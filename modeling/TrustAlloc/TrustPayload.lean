import TrustAlloc.EdgeStoreRuns
import TrustAlloc.PeerReferences
import TrustAlloc.ReputationModel
import TrustAlloc.TrustReceive

/-!
# The payload that trust is disseminated in

`serialise_trust` writes the time and, for each edge, its trust values and
those of its capabilities. What it writes is the encoding of an item, whose
length is a sum over edges and capabilities. The buffer it writes to has a
fixed size, which a full store exceeds, and then nothing is sent.
-/

namespace TrustAlloc.TrustPayload

open Cbor CborCodec Certificates EdgeInfo EdgeStoreRuns Pools ReputationModel Runs

variable {ne nc : ℕ}

/-- The edge store with the trust values of the model with reputation. -/
abbrev Edges (ne nc : ℕ) := EdgeStore ne nc EdgeResourceTm EdgeCapabilityTm

section Serialising

/-- `nanocbor_fmt_ipaddr`. -/
def nanocborFmtIpaddr (N : TrustNanocbor) (enc : Encoder) (addr : IpAddr) : Except ℤ Encoder :=
  putChecked N.toNanocbor (N.bstrHead 16) addr.toList enc

/-- `nanocbor_put_tstr`. -/
def nanocborPutTstr (N : TrustNanocbor) (enc : Encoder) (str : List UInt8) : Except ℤ Encoder :=
  putChecked N.toNanocbor (N.tstrHead str.length) str enc

/-- The body of the loop over the capabilities of an edge. -/
def serialiseCapability (N : TrustNanocbor) (s : Edges ne nc) (enc : Encoder)
    (c : Fin (ne*nc)) : Except ℤ Encoder := do
  let enc ← nanocborPutTstr N enc (s.cap c).name
  serialiseTrustEdgeCapability N.toNanocbor enc (s.cap c).tm

/-- `serialise_trust_edge_and_capabilities`. -/
def serialiseTrustEdgeAndCapabilities (N : TrustNanocbor) (s : Edges ne nc) (enc : Encoder)
    (e : Fin ne) : Except ℤ Encoder := do
  let enc ← emitChecked N.toNanocbor (N.arrayHead 2) enc
  let enc ← serialiseTrustEdgeResource N.toNanocbor enc (s.edge e).tm
  let enc ← emitChecked N.toNanocbor (N.mapHead (s.edge e).capabilities.length) enc
  (s.edge e).capabilities.foldlM (serialiseCapability N s) enc

/-- The body of the loop over the edges. -/
def serialiseEdge (N : TrustNanocbor) (s : Edges ne nc) (enc : Encoder) (e : Fin ne) :
    Except ℤ Encoder := do
  let enc ← nanocborFmtIpaddr N enc (s.edge e).ep
  serialiseTrustEdgeAndCapabilities N s enc e

/-- What `serialise_trust` emits behind the head of the map. -/
def serialiseEntries (N : TrustNanocbor) (s : Edges ne nc) (enc : Encoder) :
    Option IpAddr → Except ℤ Encoder
  | none => s.edgeResources.foldlM (serialiseEdge N s) enc
  | some addr =>
    match edgeInfoFindAddr s addr with
    | none => throw (-1)
    | some e => do
      let enc ← nanocborFmtIpaddr N enc addr
      serialiseTrustEdgeAndCapabilities N s enc e

/-- `serialise_trust` at the given time, with a buffer of the given length. The
address is that of the only edge to send, if there is one. The encoder it ends
with is returned, whose counted length the source returns. -/
def serialiseTrust (N : TrustNanocbor) (s : Edges ne nc) (clockSeconds : UInt32)
    (addr : Option IpAddr) (bufferLen : ℕ) : Except ℤ Encoder := do
  let numEdges := addr.elim s.edgeResources.length fun _ => 1
  let enc ← emitChecked N.toNanocbor (N.arrayHead 2) (nanocborEncoderInit bufferLen)
  let enc ← emitChecked N.toNanocbor (N.uintHead clockSeconds.toNat) enc
  let enc ← emitChecked N.toNanocbor (N.mapHead numEdges) enc
  serialiseEntries N s enc addr

end Serialising

section Items

/-- The entry of a capability: its name and its values. -/
def capabilityEntry (s : Edges ne nc) (c : Fin (ne*nc)) : Item×Item :=
  (.text (s.cap c).name,capabilityTmItem (s.cap c).tm)

/-- An edge as an item: its values and its capabilities. -/
def edgeItem (s : Edges ne nc) (e : Fin ne) : Item :=
  .array [edgeTmItem (s.edge e).tm,.map ((s.edge e).capabilities.map (capabilityEntry s))]

/-- The entry of an edge: its address and the edge. -/
def edgeEntry (s : Edges ne nc) (e : Fin ne) : Item×Item :=
  (.bytes (s.edge e).ep.toList,edgeItem s e)

/-- Trust in all edges as an item. -/
def trustItem (s : Edges ne nc) (clockSeconds : UInt32) : Item :=
  .array [.uint clockSeconds.toNat,.map (s.edgeResources.map (edgeEntry s))]

/-- The encoding of an edge. -/
theorem encode_edgeItem (s : Edges ne nc) (e : Fin ne) :
    encode (edgeItem s e)=arrayHead 2++(encode (edgeTmItem (s.edge e).tm)++
      (mapHead (s.edge e).capabilities.length++(s.edge e).capabilities.flatMap fun c =>
        encode (capabilityEntry s c).1++encode (capabilityEntry s c).2)) := by
  simp [edgeItem,encode,encodeItems,encodeEntries_map]

/-- The encoding of trust in all edges. -/
theorem encode_trustItem (s : Edges ne nc) (clockSeconds : UInt32) :
    encode (trustItem s clockSeconds)=arrayHead 2++(uintHead clockSeconds.toNat++
      (mapHead s.edgeResources.length++s.edgeResources.flatMap fun e =>
        encode (edgeEntry s e).1++encode (edgeEntry s e).2)) := by
  simp [trustItem,encode,encodeItems,encodeEntries_map]

end Items

section Written

variable {N : TrustNanocbor} {s : Edges ne nc}

/-- A capability is written as its entry. -/
theorem writes_capability (hN : StandardTrustHeads N) (c : Fin (ne*nc)) :
    Writes (fun enc => serialiseCapability N s enc c)
      (encode (capabilityEntry s c).1++encode (capabilityEntry s c).2) := by
  have htm := writes_capabilityTm hN.toStandardHeads (s.cap c).tm
  have hlong := length_encode_pos (capabilityTmItem (s.cap c).tm)
  have hhead := headLength_le_succ (s.cap c).name.length
  have hput := writes_put hN.toStandardHeads (N.tstrHead (s.cap c).name.length) (s.cap c).name
    htm (by
      rw [hN.tstrHead,textHead,length_head]
      omega)
  rw [hN.tstrHead,←List.append_assoc] at hput
  unfold serialiseCapability nanocborPutTstr
  rw [hN.tstrHead]
  exact hput

/-- An edge is written as its item. -/
theorem writes_edge (hN : StandardTrustHeads N) (e : Fin ne) :
    Writes (fun enc => serialiseTrustEdgeAndCapabilities N s enc e) (encode (edgeItem s e)) := by
  have harray := writes_emit hN.toStandardHeads (N.arrayHead 2)
  have htm := writes_edgeTm hN.toStandardHeads (s.edge e).tm
  have hmap := writes_emit hN.toStandardHeads (N.mapHead (s.edge e).capabilities.length)
  have hloop := writes_foldlM (l:=(s.edge e).capabilities) (f:=serialiseCapability N s)
    fun c _ => writes_capability hN c
  rw [encode_edgeItem,←hN.arrayHead,←hN.mapHead]
  exact harray.bind (htm.bind (hmap.bind hloop))

/-- An edge with its address is written as its entry. -/
theorem writes_edgeEntry (hN : StandardTrustHeads N) (e : Fin ne) :
    Writes (fun enc => serialiseEdge N s enc e)
      (encode (edgeEntry s e).1++encode (edgeEntry s e).2) := by
  have hlen : (s.edge e).ep.toList.length=16 := by simp
  have hhead : headLength 16=1 := rfl
  have hput := writes_put hN.toStandardHeads (N.bstrHead 16) (s.edge e).ep.toList
    (writes_edge (s:=s) hN e) (by
      rw [hN.bstrHead,bytesHead,length_head,hhead,hlen]
      omega)
  rw [hN.bstrHead,←List.append_assoc] at hput
  unfold serialiseEdge nanocborFmtIpaddr
  rw [hN.bstrHead]
  simpa only [edgeEntry,encode,hlen] using hput

/-- `serialise_trust` writes its item if it fits, and fails if it does not. -/
theorem serialiseTrust_writes (hN : StandardTrustHeads N) (s : Edges ne nc) (time : UInt32)
    (space : ℕ) :
    ((encode (trustItem s time)).length ≤ space → serialiseTrust N s time none space=
      .ok ⟨space,(encode (trustItem s time)).length,encode (trustItem s time)⟩) ∧
    (space < (encode (trustItem s time)).length →
      ∃ e, e<0 ∧ serialiseTrust N s time none space=.error e) := by
  have harray := writes_emit hN.toStandardHeads (N.arrayHead 2)
  have htime := writes_emit hN.toStandardHeads (N.uintHead time.toNat)
  have hmap := writes_emit hN.toStandardHeads (N.mapHead s.edgeResources.length)
  have hloop := writes_foldlM (l:=s.edgeResources) (f:=serialiseEdge N s)
    fun e _ => writes_edgeEntry hN e
  have hall := harray.bind (htime.bind (hmap.bind hloop)) (nanocborEncoderInit space)
    (Nat.zero_le _)
  rw [hN.arrayHead,hN.uintHead,hN.mapHead,←encode_trustItem] at hall
  simpa [nanocborEncoderInit,serialiseTrust,serialiseEntries,hN.arrayHead,hN.uintHead,hN.mapHead]
    using hall

end Written

section Callers

/-- `COAP_MAX_CHUNK_SIZE`. -/
def coapMaxChunkSize : ℕ := 256

/-- `MAX_TRUST_PAYLOAD`. -/
def maxTrustPayload : ℕ := coapMaxChunkSize-dtlsEcSigSize

/-- What a caller of `serialise_trust` comes to. -/
inductive Outcome where
  /-- There is no free block in `trust_tx_memb`. -/
  | noMemory
  /-- `serialise_trust` has failed with the given result. -/
  | serialiseFailed (payloadLen : ℤ)
  /-- `queue_message_to_sign` has refused the payload. -/
  | signFailed
  /-- The payload waits for its signature. -/
  | queued (payload : List UInt8)
  deriving DecidableEq

/-- The result of `serialise_trust`. -/
def payloadLen : Except ℤ Encoder → ℤ
  | .error e => e
  | .ok enc => enc.len

/-- The bytes that are in the buffer after a success. -/
def payloadBuf : Except ℤ Encoder → List UInt8
  | .error _ => []
  | .ok enc => enc.stored

/-- What `periodic_action` and `res_trust_get_handler` have in common: whether
there is memory, and which payloads the queue takes, is up to the others. -/
def sendTrust (N : TrustNanocbor) (s : Edges ne nc) (clockSeconds : UInt32)
    (addr : Option IpAddr) (memory : Bool) (queueMessageToSign : List UInt8 → Bool) : Outcome :=
  let result := serialiseTrust N s clockSeconds addr maxTrustPayload
  if memory=false then .noMemory
  else if payloadLen result ≤ 0 ∨ maxTrustPayload < payloadLen result then
    .serialiseFailed (payloadLen result)
  else if queueMessageToSign (payloadBuf result)=false then .signFailed
  else .queued (payloadBuf result)

/-- `periodic_action`, which returns whether the payload is queued. -/
def periodicAction (N : TrustNanocbor) (s : Edges ne nc) (clockSeconds : UInt32)
    (memory : Bool) (queueMessageToSign : List UInt8 → Bool) : Outcome :=
  sendTrust N s clockSeconds none memory queueMessageToSign

/-- The codes that `res_trust_get_handler` sets on its response. -/
inductive GetResponse where
  /-- `CREATED_2_01`. -/
  | created
  /-- `INTERNAL_SERVER_ERROR_5_00`. -/
  | internalServerError
  /-- `SERVICE_UNAVAILABLE_5_03` with a maximal age in seconds. -/
  | serviceUnavailable (maxAge : ℕ)
  deriving DecidableEq

/-- The code for an outcome. -/
def Outcome.response : Outcome → GetResponse
  | .noMemory => .serviceUnavailable TrustReceive.askRetryAfterMemoryAllocationFail
  | .serialiseFailed _ => .internalServerError
  | .signFailed => .serviceUnavailable TrustReceive.askRetryAfterQueueFail
  | .queued _ => .created

/-- The address that a request is about, if its payload has the length of one. -/
def requestedAddr (payload : List UInt8) : Option IpAddr :=
  if payload.length=16 then some (CertificateDecoding.bytesAt 16 payload 0) else none

/-- `res_trust_get_handler` for a request with the given payload. -/
def resTrustGetHandler (N : TrustNanocbor) (s : Edges ne nc) (clockSeconds : UInt32)
    (payload : List UInt8) (memory : Bool) (queueMessageToSign : List UInt8 → Bool) :
    Outcome×GetResponse :=
  let outcome := sendTrust N s clockSeconds (requestedAddr payload) memory queueMessageToSign
  (outcome,outcome.response)

/-- Trust in all edges can be sent: what is serialised has no more bytes than
its buffer, the assertion of `serialise_trust` holds, and neither of the
callers fails to serialise. -/
structure PayloadFits (N : TrustNanocbor) (s : Edges ne nc) (clockSeconds : UInt32) : Prop where
  /-- What is written to a buffer of any length. -/
  length : ∀ bufferLen enc, serialiseTrust N s clockSeconds none bufferLen=.ok enc →
    enc.len ≤ maxTrustPayload
  /-- The assertion of `serialise_trust`. -/
  assertion : ∀ enc, serialiseTrust N s clockSeconds none maxTrustPayload=.ok enc →
    enc.len ≤ maxTrustPayload
  /-- `periodic_action`. -/
  periodic : ∀ memory queueMessageToSign len,
    periodicAction N s clockSeconds memory queueMessageToSign≠.serialiseFailed len
  /-- `res_trust_get_handler`, when it is not asked for a single edge. -/
  get : ∀ payload memory queueMessageToSign len, requestedAddr payload=none →
    (resTrustGetHandler N s clockSeconds payload memory queueMessageToSign).1≠.serialiseFailed len

variable {N : TrustNanocbor} {s : Edges ne nc} {time : UInt32}

/-- A caller does not fail to serialise what fits. -/
theorem sendTrust_ne_failed (hN : StandardTrustHeads N)
    (hfits : (encode (trustItem s time)).length ≤ maxTrustPayload) (memory : Bool)
    (queueMessageToSign : List UInt8 → Bool) (len : ℤ) :
    sendTrust N s time none memory queueMessageToSign≠.serialiseFailed len := by
  have hpos := length_encode_pos (trustItem s time)
  have hok := (serialiseTrust_writes hN s time maxTrustPayload).1 hfits
  have hlen : ¬(payloadLen (serialiseTrust N s time none maxTrustPayload) ≤ 0 ∨
      (maxTrustPayload : ℤ) < payloadLen (serialiseTrust N s time none maxTrustPayload)) := by
    rw [hok,payloadLen]
    dsimp only
    omega
  unfold sendTrust
  dsimp only
  rw [if_neg hlen]
  split
  · exact fun h => nomatch h
  · split
    · exact fun h => nomatch h
    · exact fun h => nomatch h

/-- Trust in all edges can be sent exactly when its encoding fits the buffer. -/
theorem payloadFits_iff (hN : StandardTrustHeads N) (s : Edges ne nc) (time : UInt32) :
    PayloadFits N s time ↔ (encode (trustItem s time)).length ≤ maxTrustPayload := by
  constructor
  · intro h
    exact h.length _ _ ((serialiseTrust_writes hN s time _).1 (le_refl _))
  · intro hfits
    have hlength : ∀ space enc, serialiseTrust N s time none space=.ok enc →
        enc.len ≤ maxTrustPayload := by
      intro space enc henc
      by_cases hspace : (encode (trustItem s time)).length ≤ space
      · rw [(serialiseTrust_writes hN s time space).1 hspace] at henc
        cases henc
        exact hfits
      · obtain ⟨e,_,herror⟩ := (serialiseTrust_writes hN s time space).2 (by omega)
        rw [herror] at henc
        cases henc
    refine ⟨hlength,hlength _,sendTrust_ne_failed hN hfits,?_⟩
    intro payload memory queue len hnone
    rw [resTrustGetHandler,hnone]
    exact sendTrust_ne_failed hN hfits memory queue len

end Callers

section Names

variable {ET CT : Type} {s : EdgeStore ne nc ET CT}

/-- All names have a property. -/
def NamesAre (P : List UInt8 → Prop) (s : EdgeStore ne nc ET CT) : Prop := ∀ c, P (s.cap c).name

/-- Names fit their fields. -/
def NamesFit (s : EdgeStore ne nc ET CT) : Prop :=
  NamesAre (fun name => name.length ≤ edgeCapabilityNameLen) s

variable {P : List UInt8 → Prop}

/-- Names that stay as they are have the property. -/
theorem NamesAre.congr {s' : EdgeStore ne nc ET CT} (h : NamesAre P s)
    (hname : ∀ c, (s'.cap c).name=(s.cap c).name) : NamesAre P s' := fun c => by
  rw [hname c]
  exact h c

/-- Adding an edge changes no name. -/
theorem NamesAre.edgeAdd (h : NamesAre P s) (env : EdgeEnv ne nc ET CT) (addr : IpAddr) :
    NamesAre P (edgeInfoAdd env s addr).1 := by
  rcases edgeInfoAdd_cases env s addr with ⟨_,e,_,_,ha⟩ | ⟨_,_,ha⟩ | ⟨_,_,e,_,ha⟩ |
    ⟨_,old,_,_,_,e,_,ha⟩
  · rw [ha]
    exact h
  · rw [ha]
    exact h
  · rw [ha]
    exact h.congr fun c => by rw [placeEdge_cap]
  · rw [ha]
    exact h.congr fun c => by rw [placeEdge_cap,edgeInfoRemove_cap]

/-- A new capability has a name that is cut to the length of its field. -/
theorem NamesAre.capabilityAdd (h : NamesAre P s) (hs : Represented s)
    (env : EdgeEnv ne nc ET CT) {e : Fin ne} (he : e∈s.edgeResources) {name : List UInt8}
    (hname : P (name.take edgeCapabilityNameLen)) :
    NamesAre P (edgeInfoCapabilityAdd env s e name).1 := by
  rcases edgeInfoCapabilityAdd_cases hs.wellFormed env he name with
    ⟨c,_,_,ha⟩ | ⟨_,_,ha⟩ | ⟨_,_,c,_,ha⟩
  · rw [ha]
    exact h
  · rw [ha]
    exact h
  · rw [ha]
    intro c'
    by_cases hc : c'=c
    · subst hc
      rw [placeCap_name]
      exact hname
    · rw [placeCap_cap_other e hc]
      exact h c'

/-- Every admitted operation leaves names with the property, if a name that it
adds has it. -/
theorem NamesAre.step (h : NamesAre P s) (hs : Represented s) (env : EdgeEnv ne nc ET CT)
    {op : Op ne nc ET CT} (hop : Admitted s op)
    (hnew : ∀ e name, op=.capabilityAdd e name → P (name.take edgeCapabilityNameLen)) :
    NamesAre P (step env s op) := by
  cases op with
  | edgeAdd addr => exact h.edgeAdd env addr
  | edgeRemove e => exact h.congr fun c => congrArg EdgeCapability.name (edgeInfoRemove_cap e c)
  | capabilityAdd e name => exact h.capabilityAdd hs env hop.1 (hnew e name rfl)
  | capabilityRemove e c =>
    exact h.congr fun c' => congrArg EdgeCapability.name (edgeInfoCapabilityRemove_cap e c c')
  | capabilityRemoveByName e name =>
    change NamesAre P (edgeInfoCapabilityRemoveByName s e name).1
    unfold edgeInfoCapabilityRemoveByName
    split
    · next c _ =>
      exact h.congr fun c' => congrArg EdgeCapability.name (edgeInfoCapabilityRemove_cap e c c')
    · exact h
  | capabilityClear e =>
    have hsame := (edgeInfoCapabilityClear_spec s e).2.2.2
    exact h.congr fun c => congrArg EdgeCapability.name (hsame c)
  | writeEdge e flags tm => exact h
  | writeCap c flags tm =>
    refine h.congr fun c' => ?_
    by_cases hc : c'=c
    · subst hc
      change ((s.setCap c' _).cap c').name=_
      rw [EdgeStore.setCap_cap_same]
    · change ((s.setCap c _).cap c').name=_
      rw [EdgeStore.setCap_cap_other _ hc]

end Names

section Sizes

/-- The bytes of a capability: its name, its counts and three heads. -/
def capabilitySize (s : Edges ne nc) (c : Fin (ne*nc)) : ℕ :=
  3+(s.cap c).name.length+countsWidth (s.cap c).tm.resultQuality

/-- The bytes of an edge: its address, its counts, six heads and its capabilities. -/
def edgeSize (s : Edges ne nc) (e : Fin ne) : ℕ :=
  22+countsWidth (s.edge e).tm.taskSubmission+countsWidth (s.edge e).tm.taskResult+
    ((s.edge e).capabilities.map (capabilitySize s)).sum

/-- The bytes of all edges. -/
def storeSize (s : Edges ne nc) : ℕ := (s.edgeResources.map (edgeSize s)).sum

/-- The bytes that are left for edges: the array and the map take a byte each,
and the time up to five. -/
def storeRoom : ℕ := maxTrustPayload-(2+5)

/-- The representation of a store, with names that fit. -/
structure Stored (s : Edges ne nc) : Prop where
  /-- The representation invariant. -/
  represented : Represented s
  /-- Names. -/
  namesFit : NamesFit s

variable {s : Edges ne nc}

/-- The entry of a capability has the size of the capability. -/
theorem length_capabilityEntry (h : NamesFit s) (c : Fin (ne*nc)) :
    (encode (capabilityEntry s c).1++encode (capabilityEntry s c).2).length=
      capabilitySize s c := by
  have hname := h c
  have hhead : headLength (s.cap c).name.length=1 := if_pos (by
    unfold edgeCapabilityNameLen at hname
    omega)
  simp only [capabilityEntry,encode,List.length_append,textHead,length_head,hhead,
    length_capabilityTmItem,capabilitySize]
  omega

/-- The entry of an edge has the size of the edge. -/
theorem length_edgeEntry (hnc : nc < 24) (h : Stored s) {e : Fin ne} (he : e∈s.edgeResources) :
    (encode (edgeEntry s e).1++encode (edgeEntry s e).2).length=edgeSize s e := by
  have hcaps := h.represented.wellFormed.bounded e he
  have hhead : headLength (s.edge e).capabilities.length=1 := if_pos (by omega)
  have htwo : headLength 2=1 := rfl
  have haddr : headLength 16=1 := rfl
  have hlen : (s.edge e).ep.toList.length=16 := by simp
  have hloop : ((s.edge e).capabilities.flatMap fun c =>
      encode (capabilityEntry s c).1++encode (capabilityEntry s c).2).length=
      ((s.edge e).capabilities.map (capabilitySize s)).sum := by
    rw [List.length_flatMap]
    exact congrArg List.sum (List.map_congr_left fun c _ => length_capabilityEntry h.namesFit c)
  rw [edgeEntry,encode_edgeItem]
  simp only [encode,List.length_append,bytesHead,arrayHead,mapHead,length_head,
    length_edgeTmItem,hlen,haddr,htwo,hhead] at hloop ⊢
  rw [hloop,edgeSize]
  omega

/-- Trust in all edges takes the sizes of the edges, two heads and the time. -/
theorem length_trustItem (hne : ne < 24) (hnc : nc < 24) (h : Stored s) (time : UInt32) :
    (encode (trustItem s time)).length=2+headLength time.toNat+storeSize s := by
  have hedges := h.represented.wellFormed.ownsEdges.length_le
  have hhead : headLength s.edgeResources.length=1 := if_pos (by omega)
  have htwo : headLength 2=1 := rfl
  have hloop : (s.edgeResources.flatMap fun e =>
      encode (edgeEntry s e).1++encode (edgeEntry s e).2).length=storeSize s := by
    rw [List.length_flatMap]
    exact congrArg List.sum (List.map_congr_left fun e he => length_edgeEntry hnc h he)
  rw [encode_trustItem]
  simp only [List.length_append] at hloop ⊢
  rw [hloop]
  simp only [arrayHead,uintHead,mapHead,length_head,htwo,hhead]
  omega

/-- Trust in all edges can be sent at any time exactly when the sizes of the
edges do not exceed the room for them. -/
theorem payloadFits_iff_storeSize {N : TrustNanocbor} (hN : StandardTrustHeads N) (hne : ne < 24)
    (hnc : nc < 24) (h : Stored s) :
    (∀ time, PayloadFits N s time) ↔ storeSize s ≤ storeRoom := by
  have hroom : maxTrustPayload=storeRoom+7 := rfl
  constructor
  · intro hfits
    have hlate := (payloadFits_iff hN s 0xFFFFFFFF).mp (hfits 0xFFFFFFFF)
    have hhead : headLength (0xFFFFFFFF : UInt32).toNat=5 := rfl
    rw [length_trustItem hne hnc h,hhead] at hlate
    omega
  · intro hsize time
    have hhead := headLength_le time.toNat_lt
    rw [payloadFits_iff hN,length_trustItem hne hnc h]
    omega

/-- Every admitted operation keeps the representation and names that fit. -/
theorem Stored.step (h : Stored s) (env : EdgeEnv ne nc EdgeResourceTm EdgeCapabilityTm)
    {op : Op ne nc EdgeResourceTm EdgeCapabilityTm} (hop : Admitted s op) :
    Stored (step env s op) :=
  ⟨h.represented.step env hop,h.namesFit.step h.represented env hop
    fun _ name _ => List.length_take_le _ name⟩

/-- The empty store is represented and has no names. -/
theorem stored_init (ne nc : ℕ) (et : EdgeResourceTm) (ct : EdgeCapabilityTm) :
    Stored (edgeInfoInit ne nc et ct) := ⟨represented_init ne nc et ct,fun _ => Nat.zero_le _⟩

/-- **The trust payload over a whole run.** With room for four edges with three
capabilities each, trust can be sent in every reachable state at any time
exactly when the sizes of the edges never exceed the room that there is. -/
theorem payloadFits_always_iff {N : TrustNanocbor} (hN : StandardTrustHeads N)
    (env : EdgeEnv 4 3 EdgeResourceTm EdgeCapabilityTm) (et : EdgeResourceTm)
    (ct : EdgeCapabilityTm) (ops : List (Op 4 3 EdgeResourceTm EdgeCapabilityTm))
    (hops : Along (step env) Admitted (edgeInfoInit 4 3 et ct) ops) :
    Always (step env) (fun s => ∀ time, PayloadFits N s time) (edgeInfoInit 4 3 et ct) ops ↔
      Always (step env) (fun s => storeSize s ≤ storeRoom) (edgeInfoInit 4 3 et ct) ops :=
  always_congr (fun _ _ hI hA => hI.step env hA)
    (fun _ hI => payloadFits_iff_storeSize hN (by decide) (by decide) hI)
    (stored_init 4 3 et ct) hops

/-- First-fit pools, and counts that start at one. -/
def reputationEnv : EdgeEnv 4 3 EdgeResourceTm EdgeCapabilityTm :=
  ⟨firstFit 4,firstFit 12,fun _ => edgeResourceTmInit,fun _ => edgeCapabilityTmInit⟩

/-- Two edges with a capability, and large counts, can be sent. -/
theorem payloadFits_always_iff_sample :
    Always (step reputationEnv) (fun s => ∀ time, PayloadFits standardNanocbor s time)
      (edgeInfoInit 4 3 edgeResourceTmInit edgeCapabilityTmInit)
      [.edgeAdd (sampleAddr 1),.capabilityAdd 0 [0x63,0x72],.edgeAdd (sampleAddr 2),
        .writeEdge 1 1 ⟨⟨70000,300⟩,⟨24,1⟩⟩] :=
  (payloadFits_always_iff standardNanocbor_heads reputationEnv edgeResourceTmInit
    edgeCapabilityTmInit [.edgeAdd (sampleAddr 1),.capabilityAdd 0 [0x63,0x72],
      .edgeAdd (sampleAddr 2),.writeEdge 1 1 ⟨⟨70000,300⟩,⟨24,1⟩⟩] (by decide)).mpr (by decide)

/-- The names `cr`, `routing` and `envmon`. -/
def applicationNames : List (List UInt8) :=
  [[0x63,0x72],[0x72,0x6F,0x75,0x74,0x69,0x6E,0x67],[0x65,0x6E,0x76,0x6D,0x6F,0x6E]]

/-- Four edges are added, each with three capabilities. -/
def fullStoreOps : List (Op 4 3 EdgeResourceTm EdgeCapabilityTm) :=
  (List.finRange 4).flatMap fun (e : Fin 4) =>
    .edgeAdd (sampleAddr (UInt8.ofNat e.val))::applicationNames.map (.capabilityAdd e)

/-- Four edges that offer the three applications do not fit, although nothing
has happened with them yet. -/
theorem not_payloadFits_of_full :
    Along (step reputationEnv) Admitted
        (edgeInfoInit 4 3 edgeResourceTmInit edgeCapabilityTmInit) fullStoreOps ∧
      ¬Always (step reputationEnv) (fun s => ∀ time, PayloadFits standardNanocbor s time)
        (edgeInfoInit 4 3 edgeResourceTmInit edgeCapabilityTmInit) fullStoreOps := by
  have hops : Along (step reputationEnv) Admitted
      (edgeInfoInit 4 3 edgeResourceTmInit edgeCapabilityTmInit) fullStoreOps := by decide
  refine ⟨hops,fun h => ?_⟩
  have hstored := (always_of_step (fun _ _ hI hA => hI.step reputationEnv hA)
    (stored_init 4 3 edgeResourceTmInit edgeCapabilityTmInit) hops).last
  have hsize := (payloadFits_iff_storeSize standardNanocbor_heads (by decide) (by decide)
    hstored).mp h.last
  exact absurd hsize (by decide)

end Sizes

end TrustAlloc.TrustPayload
