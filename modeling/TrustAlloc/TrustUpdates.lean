import TrustAlloc.TrustRoundTrip

/-!
# How far a message of a peer is applied

`process_received_trust` stores what it reads as it goes, and takes nothing
back when it meets an error. What it stores is what a reader that only notes
updates has noted before the error, applied in order to a store in which the
sender has a record.
-/

namespace TrustAlloc.TrustUpdates

open CapabilityTopics CborCodec CertificateDecoding Decoding EdgeInfo PeerInfo PeerReferences
open Processing ReputationModel TrustDissemination TrustPayload TrustRoundTrip

variable {np ne nc : ℕ} {PT D : Type}

section Reading

/-- Something that a message says about its sender. -/
inductive Update (ne nc : ℕ) where
  /-- The time of its clock. -/
  | seen (lastSeen : UInt32)
  /-- A time that cannot be read, and what is left of the time before. -/
  | unread (left : UInt32 → UInt32)
  /-- What it has counted of an edge. -/
  | edge (e : Fin ne) (tm : EdgeResourceTm)
  /-- What it has counted of a capability. -/
  | capability (e : Fin ne) (c : Fin (ne*nc)) (tm : EdgeCapabilityTm)

/-- What becomes of it in the record of the sender. -/
def applyUpdate (penv : PeerEnv np ne nc PT) (b : Edges ne nc) (i : Fin np)
    (p : Peers np ne nc PT) : Update ne nc → Peers np ne nc PT
  | .seen lastSeen => setLastSeen i lastSeen p
  | .unread left => setLastSeen i (left (p.peer i).lastSeen) p
  | .edge e tm => (peerInfoUpdateEdge penv p i e tm (b.edge e).ep).1
  | .capability e c tm => (peerInfoUpdateCapability penv p i e c tm (b.edge e).ep (b.cap c).name).1

/-- Note an update. -/
def note (u : Update ne nc) : Process (List (Update ne nc)) PUnit := modify fun noted => noted++[u]

/-- Read an entry of a capability. -/
def readCapability (cbor : TrustDecoder D) (b : Edges ne nc) (e : Fin ne) (map : D) :
    Process (List (Update ne nc)) D := do
  let (map,capName) ← nanocborCheck (cbor.getTstr map)
  if edgeCapabilityNameLen < capName.length then nanocborCheck (cbor.skip map)
  else match edgeInfoCapabilityFind b e (cString capName) with
    | some c => do
      let (map,capTm) ← deserialiseTrustEdgeCapability cbor.toPublishDecoder map
      note (.capability e c capTm)
      return map
    | none => nanocborCheck (cbor.skip map)

/-- Read what a message says of an edge that the receiver knows. -/
def readKnownEdge (cbor : TrustDecoder D) (b : Edges ne nc) (turns : ℕ) (e : Fin ne) (dec : D) :
    Process (List (Update ne nc)) D := do
  let arr ← nanocborCheck (cbor.enterArray dec)
  let (arr,edgeTm) ← deserialiseTrustEdgeResource cbor.toPublishDecoder arr
  note (.edge e edgeTm)
  let map ← nanocborCheck (cbor.enterMap arr)
  let map ← untilEnd cbor.atEnd (readCapability cbor b e) turns map
  let arr := cbor.leaveContainer arr map
  if cbor.atEnd arr=false then throw (-1) else return cbor.leaveContainer dec arr

/-- Read an entry of an edge. -/
def readEdge (cbor : TrustDecoder D) (b : Edges ne nc) (turns : ℕ) (map : D) :
    Process (List (Update ne nc)) D := do
  let (map,ipaddr) ← nanocborGetIpaddr cbor.toPublishDecoder map
  match edgeInfoFindAddr b ipaddr with
    | none => nanocborCheck (cbor.skip map)
    | some e => readKnownEdge cbor b turns e map

/-- Read the time in the clock of the sender. -/
def readLastSeen (cbor : TrustDecoder D) (arr : D) : Process (List (Update ne nc)) D :=
  match nanocborCheck (cbor.getUint32 arr) with
  | .ok (arr,lastSeen) => do
    note (.seen lastSeen)
    return arr
  | .error e => do
    note (.unread (cbor.leftUint32 arr))
    throw e

/-- Read a message. -/
def readTrust (cbor : TrustDecoder D) (b : Edges ne nc) (buffer : List UInt8) :
    Process (List (Update ne nc)) Unit := do
  let arr ← nanocborCheck (cbor.enterArray (cbor.init buffer))
  let arr ← readLastSeen cbor arr
  let map ← nanocborCheck (cbor.enterMap arr)
  let map ← untilEnd cbor.atEnd (readEdge cbor b buffer.length) buffer.length map
  if cbor.atEnd map=false then throw (-1)
  else if cbor.atEnd (cbor.leaveContainer arr map)=false then throw (-1)
  else return ()

end Reading

section Applying

variable (cbor : TrustDecoder D) (penv : PeerEnv np ne nc PT) (b : Edges ne nc) (i : Fin np)
  (p : Peers np ne nc PT)

/-- The store is what the noted updates make of the store at first. -/
def Applied (q : Peers np ne nc PT) (noted : List (Update ne nc)) : Prop :=
  q=noted.foldl (applyUpdate penv b i) p

/-- An update is applied when it is noted. -/
theorem simulates_note {g : Peers np ne nc PT → Peers np ne nc PT} (u : Update ne nc)
    (hg : ∀ q, g q=applyUpdate penv b i q u) :
    Simulates (Applied penv b i p) (modify g : Process (Peers np ne nc PT) PUnit) (note u) := by
  refine simulates_modify fun q noted hq => ?_
  rw [Applied,List.foldl_append,←hq]
  exact hg q

/-- An entry of a capability. -/
theorem simulates_capability (e : Fin ne) (map : D) : Simulates (Applied penv b i p)
    (receiveCapability cbor penv b i e map) (readCapability cbor b e map) := by
  refine simulates_check_bind fun r => ?_
  dsimp only
  split
  · exact simulates_check _
  · cases edgeInfoCapabilityFind b e (cString r.2) with
    | none => exact simulates_check _
    | some c =>
      refine simulates_check_bind fun r' => ?_
      have hnote := simulates_note penv b i p (.capability e c r'.2) fun _ => rfl
      exact hnote.bind fun _ => simulates_pure _

/-- An entry of an edge that the receiver knows. -/
theorem simulates_knownEdge (turns : ℕ) (e : Fin ne) (dec : D) : Simulates (Applied penv b i p)
    (deserialiseTrustEdgeAndCapabilities cbor penv b turns i e dec)
    (readKnownEdge cbor b turns e dec) := by
  refine simulates_check_bind fun _ => simulates_check_bind fun r => ?_
  dsimp only
  have hnote := simulates_note penv b i p (.edge e r.2) fun _ => rfl
  refine hnote.bind fun _ => simulates_check_bind fun _ => ?_
  refine (simulates_untilEnd (simulates_capability cbor penv b i p e) turns _).bind fun _ => ?_
  split
  · exact simulates_throw _
  · exact simulates_pure _

/-- An entry of any edge. -/
theorem simulates_edge (turns : ℕ) (map : D) : Simulates (Applied penv b i p)
    (receiveEdge cbor penv b turns i map) (readEdge cbor b turns map) := by
  refine simulates_check_bind fun r => ?_
  dsimp only
  cases edgeInfoFindAddr b r.2 with
  | none => exact simulates_check _
  | some e => exact simulates_knownEdge cbor penv b i p turns e r.1

/-- The time in the clock of the sender. -/
theorem simulates_lastSeen (arr : D) : Simulates (Applied penv b i p)
    (receiveLastSeen cbor i arr) (readLastSeen cbor arr) := by
  unfold receiveLastSeen readLastSeen
  cases nanocborCheck (cbor.getUint32 arr) with
  | error e =>
    have hnote := simulates_note penv b i p (.unread (cbor.leftUint32 arr)) fun _ => rfl
    exact hnote.bind fun _ => simulates_throw e
  | ok r =>
    have hnote := simulates_note penv b i p (.seen r.2) fun _ => rfl
    exact hnote.bind fun _ => simulates_pure r.1

/-- A whole message. -/
theorem simulates_trust (buffer : List UInt8) : Simulates (Applied penv b i p)
    (receiveTrust cbor penv b i buffer) (readTrust cbor b buffer) := by
  refine simulates_check_bind fun _ => (simulates_lastSeen cbor penv b i p _).bind fun _ => ?_
  refine simulates_check_bind fun _ => ?_
  refine (simulates_untilEnd (simulates_edge cbor penv b i p buffer.length) _ _).bind fun _ => ?_
  split
  · exact simulates_throw _
  · split
    · exact simulates_throw _
    · exact simulates_pure _

/-- Without room for a record of a peer, nothing changes. -/
theorem peerInfoAdd_none {p q : Peers np ne nc PT} {src : IpAddr}
    (h : peerInfoAdd penv p src=(q,none)) : q=p := by
  unfold peerInfoAdd at h
  split at h
  · cases h
  · split at h
    · cases h
    · exact (Prod.mk.inj h).1.symm

/-- **How far a message is applied.** Whatever the result is, the peer store is
the one in which the sender has a record, with all updates applied, in order,
that were read before the error, if there was one. Nothing changes when there
is no room for a record of the sender. -/
theorem processReceivedTrust_eq (node : Node np ne nc PT) (src : IpAddr) (buffer : List UInt8) :
    processReceivedTrust cbor penv node src buffer=
      match peerInfoAdd penv node.peers src with
      | (_,none) => (node,-1)
      | (p,some i) =>
        let read := exec (readTrust cbor node.edges buffer) []
        ({node with peers := read.2.foldl (applyUpdate penv node.edges i) p},resultOf read.1) := by
  unfold processReceivedTrust
  rcases hadd : peerInfoAdd penv node.peers src with ⟨q,_ | i⟩
  · rw [peerInfoAdd_none penv hadd]
  · obtain ⟨hresult,hstore⟩ := simulates_trust cbor penv node.edges i q buffer q [] rfl
    dsimp only
    rw [hresult]
    exact congrArg (fun q => ({node with peers := q},_)) hstore

end Applying

/-- A message about a known edge that ends in front of the name of a capability. -/
def cutMessage : List UInt8 :=
  [0x82,0x07,0xA1,0x50]++(sampleAddr 1).toList++[0x82,0x82,0x82,3,1,0x82,3,1,0xA1,0x63]

/-- Of such a message of a peer that is known, the record of the edge stays,
although it is refused. -/
theorem not_unchanged_of_cutMessage :
    (processReceivedTrust byteDecoder samplePeerEnv (sampleNode receiverOps) (sampleAddr 8)
        cutMessage).2≠0 ∧
      (processReceivedTrust byteDecoder samplePeerEnv (sampleNode receiverOps) (sampleAddr 8)
        cutMessage).1.peers≠(sampleNode receiverOps).peers := by
  refine ⟨by decide +kernel,fun h => ?_⟩
  exact absurd (congrArg PeerStore.records h) (by decide +kernel)

end TrustAlloc.TrustUpdates
