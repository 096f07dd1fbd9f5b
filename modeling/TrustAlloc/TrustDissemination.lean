import TrustAlloc.CapabilityTopics
import TrustAlloc.CertificateCodec
import TrustAlloc.Processing
import TrustAlloc.TrustPayload

/-!
# Trust from one node to another

`process_received_trust` takes a payload of `serialise_trust` apart, and
stores what it says about edges and capabilities that the receiver knows.
Reading is one loop within another, each over the entries of a map. On the
bytes of the sender they do what two folds over its edges and capabilities do.
-/

namespace TrustAlloc.TrustDissemination

open CapabilityTopics Cbor CborCodec CertificateCodec CertificateDecoding Certificates Decoding
open EdgeInfo PeerInfo PeerReferences Processing ReputationModel TrustPayload

variable {np ne nc : ℕ} {PT D : Type}

/-- The peer store with the trust values of the model with reputation. -/
abbrev Peers (np ne nc : ℕ) (PT : Type) := PeerStore np ne nc EdgeResourceTm EdgeCapabilityTm PT

/-- Both stores of a node. -/
abbrev Node (np ne nc : ℕ) (PT : Type) := Stores np ne nc EdgeResourceTm EdgeCapabilityTm PT

section Receiving

/-- The body of the loop of `deserialise_trust_edge_and_capabilities`. -/
def receiveCapability (cbor : TrustDecoder D) (penv : PeerEnv np ne nc PT) (b : Edges ne nc)
    (i : Fin np) (e : Fin ne) (map : D) : Process (Peers np ne nc PT) D := do
  let (map,capName) ← nanocborCheck (cbor.getTstr map)
  if edgeCapabilityNameLen < capName.length then nanocborCheck (cbor.skip map)
  else match edgeInfoCapabilityFind b e (cString capName) with
    | some c => do
      let (map,capTm) ← deserialiseTrustEdgeCapability cbor.toPublishDecoder map
      modify fun p => (peerInfoUpdateCapability penv p i e c capTm (b.edge e).ep (b.cap c).name).1
      return map
    | none => nanocborCheck (cbor.skip map)

/-- `deserialise_trust_edge_and_capabilities`, with a bound on the turns of its loop. -/
def deserialiseTrustEdgeAndCapabilities (cbor : TrustDecoder D) (penv : PeerEnv np ne nc PT)
    (b : Edges ne nc) (turns : ℕ) (i : Fin np) (e : Fin ne) (dec : D) :
    Process (Peers np ne nc PT) D := do
  let arr ← nanocborCheck (cbor.enterArray dec)
  let (arr,edgeTm) ← deserialiseTrustEdgeResource cbor.toPublishDecoder arr
  modify fun p => (peerInfoUpdateEdge penv p i e edgeTm (b.edge e).ep).1
  let map ← nanocborCheck (cbor.enterMap arr)
  let map ← untilEnd cbor.atEnd (receiveCapability cbor penv b i e) turns map
  let arr := cbor.leaveContainer arr map
  if cbor.atEnd arr=false then throw (-1) else return cbor.leaveContainer dec arr

/-- The body of the loop of `process_received_trust`. -/
def receiveEdge (cbor : TrustDecoder D) (penv : PeerEnv np ne nc PT) (b : Edges ne nc)
    (turns : ℕ) (i : Fin np) (map : D) : Process (Peers np ne nc PT) D := do
  let (map,ipaddr) ← nanocborGetIpaddr cbor.toPublishDecoder map
  match edgeInfoFindAddr b ipaddr with
    | none => nanocborCheck (cbor.skip map)
    | some e => deserialiseTrustEdgeAndCapabilities cbor penv b turns i e map

/-- The time in a peer's clock when it was last seen. -/
def setLastSeen (i : Fin np) (lastSeen : UInt32) (p : Peers np ne nc PT) : Peers np ne nc PT :=
  {p with peersMemb := p.peersMemb.set i {p.peer i with lastSeen := lastSeen}}

/-- `nanocbor_get_uint32` into the record of a peer, where it leaves something
also when it fails. -/
def receiveLastSeen (cbor : TrustDecoder D) (i : Fin np) (arr : D) :
    Process (Peers np ne nc PT) D :=
  match nanocborCheck (cbor.getUint32 arr) with
  | .ok (arr,lastSeen) => do
    modify (setLastSeen i lastSeen)
    return arr
  | .error e => do
    modify fun p => setLastSeen i (cbor.leftUint32 arr (p.peer i).lastSeen) p
    throw e

/-- `process_received_trust` once it has a peer. Each turn of its loops reads
at least a byte, so that there are no more of them than bytes. -/
def receiveTrust (cbor : TrustDecoder D) (penv : PeerEnv np ne nc PT) (b : Edges ne nc)
    (i : Fin np) (buffer : List UInt8) : Process (Peers np ne nc PT) Unit := do
  let arr ← nanocborCheck (cbor.enterArray (cbor.init buffer))
  let arr ← receiveLastSeen cbor i arr
  let map ← nanocborCheck (cbor.enterMap arr)
  let map ← untilEnd cbor.atEnd (receiveEdge cbor penv b buffer.length i) buffer.length map
  if cbor.atEnd map=false then throw (-1)
  else if cbor.atEnd (cbor.leaveContainer arr map)=false then throw (-1)
  else return ()

/-- The result of a function that returns zero when it succeeds. -/
def resultOf {α : Type} : Except ℤ α → ℤ
  | .ok _ => 0
  | .error e => e

/-- `process_received_trust`. -/
def processReceivedTrust (cbor : TrustDecoder D) (penv : PeerEnv np ne nc PT)
    (b : Node np ne nc PT) (src : IpAddr) (buffer : List UInt8) : Node np ne nc PT×ℤ :=
  match peerInfoAdd penv b.peers src with
  | (p,none) => ({b with peers := p},-1)
  | (p,some i) =>
    let result := exec (receiveTrust cbor penv b.edges i buffer) p
    ({b with peers := result.2},resultOf result.1)

end Receiving

section Absorbing

/-- What the receiver does with a capability of the sender. -/
def absorbCapability (penv : PeerEnv np ne nc PT) (a b : Edges ne nc) (i : Fin np) (e : Fin ne)
    (p : Peers np ne nc PT) (c : Fin (ne*nc)) : Peers np ne nc PT :=
  (edgeInfoCapabilityFind b e (a.cap c).name).elim p fun c' =>
    (peerInfoUpdateCapability penv p i e c' (a.cap c).tm (b.edge e).ep (b.cap c').name).1

/-- What the receiver does with an edge of the sender that it knows. -/
def absorbKnown (penv : PeerEnv np ne nc PT) (a b : Edges ne nc) (i : Fin np)
    (p : Peers np ne nc PT) (ea e : Fin ne) : Peers np ne nc PT :=
  (a.edge ea).capabilities.foldl (absorbCapability penv a b i e)
    (peerInfoUpdateEdge penv p i e (a.edge ea).tm (b.edge e).ep).1

/-- What the receiver does with an edge of the sender. -/
def absorbEdge (penv : PeerEnv np ne nc PT) (a b : Edges ne nc) (i : Fin np)
    (p : Peers np ne nc PT) (ea : Fin ne) : Peers np ne nc PT :=
  (edgeInfoFindAddr b (a.edge ea).ep).elim p fun e => absorbKnown penv a b i p ea e

end Absorbing

/-- A name is a string that fits its field. -/
def NameFits (name : List UInt8) : Prop := name.length ≤ edgeCapabilityNameLen ∧ 0∉name

/-- Names are decided to fit. -/
instance decidableNameFits (name : List UInt8) : Decidable (NameFits name) :=
  inferInstanceAs (Decidable (_ ∧ _))

/-- Such a name is read as it is. -/
theorem NameFits.cString {name : List UInt8} (h : NameFits name) : cString name=name := by
  rw [CapabilityTopics.cString,List.takeWhile_eq_self_iff]
  intro b hb
  have hne : b≠0 := fun hzero => h.2 (hzero ▸ hb)
  exact decide_eq_true hne

/-- A name that fits is not cut. -/
theorem NameFits.take {name : List UInt8} (h : NameFits name) :
    NameFits (name.take edgeCapabilityNameLen) := by
  rwa [List.take_of_length_le h.1]

section Reading

variable {cbor : TrustDecoder D} {At : D → Option ℕ → List UInt8 → Prop}
  (penv : PeerEnv np ne nc PT) {a b : Edges ne nc} {i : Fin np} {e : Fin ne}

/-- The decoder stands in a map, in front of the entries of capabilities. -/
structure AtCapabilities (At : D → Option ℕ → List UInt8 → Prop) (a : Edges ne nc)
    (rest : List UInt8) (l : List (Fin (ne*nc))) (dec : D) : Prop where
  /-- The names fit. -/
  names : ∀ c∈l, NameFits (a.cap c).name
  /-- The bytes ahead. -/
  ahead : At dec (some (2*l.length)) ((l.flatMap fun c =>
    encode (capabilityEntry a c).1++encode (capabilityEntry a c).2)++rest)

/-- One turn reads the entry of a capability. -/
theorem ends_receiveCapability (hcbor : LawfulTrustDecoder cbor At) {rest : List UInt8}
    {c : Fin (ne*nc)} {l : List (Fin (ne*nc))} {dec : D}
    (hdec : AtCapabilities At a rest (c::l) dec) (p : Peers np ne nc PT) :
    ∃ dec', Ends (receiveCapability cbor penv b i e dec) p dec'
      (absorbCapability penv a b i e p c) ∧ AtCapabilities At a rest l dec' := by
  have hname := hdec.names c List.mem_cons_self
  have hnames : ∀ c∈l, NameFits (a.cap c).name := fun c hc =>
    hdec.names c (List.mem_cons_of_mem _ hc)
  have hshort : ¬edgeCapabilityNameLen < (a.cap c).name.length := not_lt.mpr hname.1
  have hlen : (a.cap c).name.length < 2^32 := by
    have hle := hname.1
    unfold edgeCapabilityNameLen at hle
    omega
  have htext := hdec.ahead
  rw [List.flatMap_cons,capabilityEntry,encode,List.append_assoc,List.append_assoc,
    List.append_assoc] at htext
  obtain ⟨map,hget,hmap⟩ := (hcbor.getTstr dec _ _ _ htext (by simp) hlen).check
  have hleft : (some (2*(c::l).length)).map (·-1)=some (2*l.length+1) := rfl
  rw [hleft] at hmap
  have hstring := hname.cString
  unfold receiveCapability absorbCapability
  cases hfind : edgeInfoCapabilityFind b e (a.cap c).name with
  | some c' =>
    obtain ⟨map',htm,hmap'⟩ := decodes_capabilityTm hcbor.toLawfulDecoder (a.cap c).tm hmap
      (by simp)
    refine ⟨map',(ends_check hget p).bind ?_,hnames,hmap'⟩
    dsimp only
    rw [if_neg hshort,hstring,hfind]
    exact (ends_check htm p).bind ((ends_modify _ p).bind (ends_pure map' _))
  | none =>
    obtain ⟨hskip,hmap'⟩ := hcbor.skip map _ _ _ hmap (by simp)
      (capabilityTmItem_fits (a.cap c).tm)
    have hok : nanocborCheck (cbor.skip map)=.ok (cbor.skip map).2 := if_neg (not_lt.mpr hskip)
    refine ⟨(cbor.skip map).2,(ends_check hget p).bind ?_,hnames,hmap'⟩
    dsimp only
    rw [if_neg hshort,hstring,hfind]
    exact ends_check hok p

/-- The whole map of capabilities is read. -/
theorem ends_capabilities (hcbor : LawfulTrustDecoder cbor At) {rest : List UInt8}
    {l : List (Fin (ne*nc))} {dec : D} (hdec : AtCapabilities At a rest l dec) {turns : ℕ}
    (hturns : l.length ≤ turns) (p : Peers np ne nc PT) :
    ∃ dec', Ends (untilEnd cbor.atEnd (receiveCapability cbor penv b i e) turns dec) p dec'
      (l.foldl (absorbCapability penv a b i e) p) ∧ At dec' (some 0) rest := by
  have hend : ∀ l dec, AtCapabilities At a rest l dec → cbor.atEnd dec=l.isEmpty := by
    intro l dec h
    rw [hcbor.atEnd_container _ _ _ h.ahead]
    cases l <;> simp
  obtain ⟨dec',hends,hdec'⟩ := ends_untilEnd hend
    (fun c l dec s h => ends_receiveCapability penv (b:=b) (i:=i) (e:=e) hcbor h s)
    hturns hdec p
  exact ⟨dec',hends,hdec'.ahead⟩

/-- An edge can be read: its names fit, its map has a head, and there are
enough turns for its capabilities. -/
structure Readable (a : Edges ne nc) (turns : ℕ) (ea : Fin ne) : Prop where
  /-- The names of its capabilities. -/
  names : ∀ c∈(a.edge ea).capabilities, NameFits (a.cap c).name
  /-- The head of the map of its capabilities. -/
  count : (a.edge ea).capabilities.length < 2^31
  /-- The turns of the loop. -/
  turns : (a.edge ea).capabilities.length ≤ turns

/-- Such an edge fits the heads of its items. -/
theorem Readable.fits {turns : ℕ} {ea : Fin ne} (h : Readable a turns ea) :
    Fits (edgeItem a ea) := by
  have hcount := h.count
  refine .array (by simp) fun item hitem => ?_
  simp only [List.mem_cons,List.not_mem_nil,or_false] at hitem
  rcases hitem with rfl | rfl
  · exact edgeTmItem_fits _
  · refine .map (by rw [List.length_map]; omega) (fun entry hentry => ?_) fun entry hentry => ?_
    · obtain ⟨c,hc,rfl⟩ := List.mem_map.mp hentry
      have hname := (h.names c hc).1
      unfold edgeCapabilityNameLen at hname
      exact .text (by omega)
    · obtain ⟨c,hc,rfl⟩ := List.mem_map.mp hentry
      exact capabilityTmItem_fits _

/-- An edge that the receiver knows is read. -/
theorem ends_knownEdge (hcbor : LawfulTrustDecoder cbor At) {rest : List UInt8} {turns : ℕ}
    {ea : Fin ne} (hread : Readable a turns ea) {left : Option ℕ} {dec : D}
    (hdec : At dec left (encode (edgeItem a ea)++rest)) (hleft : left≠some 0)
    (p : Peers np ne nc PT) :
    ∃ dec', Ends (deserialiseTrustEdgeAndCapabilities cbor penv b turns i e dec) p dec'
      (absorbKnown penv a b i p ea e) ∧ At dec' (left.map (·-1)) rest := by
  have hitem := hdec
  rw [encode_edgeItem,List.append_assoc,List.append_assoc,List.append_assoc] at hitem
  obtain ⟨arr,henter,h0⟩ := (hcbor.enterArray dec left 2 _ hitem hleft (by decide)).check
  obtain ⟨arr₁,htm,h1⟩ := decodes_edgeTm hcbor.toLawfulDecoder (a.edge ea).tm h0 (by decide)
  obtain ⟨map,hmap,h2⟩ := (hcbor.enterMap arr₁ (some 1) _ _ h1 (by decide) hread.count).check
  obtain ⟨map',hloop,h3⟩ := ends_capabilities penv (b:=b) (i:=i) (e:=e) hcbor
    ⟨hread.names,h2⟩ hread.turns (peerInfoUpdateEdge penv p i e (a.edge ea).tm (b.edge e).ep).1
  have h4 := hcbor.leaveContainer arr₁ (some 1) _ map' rest h1 (by decide) h3
  have hend : cbor.atEnd (cbor.leaveContainer arr₁ map')=true :=
    hcbor.atEnd_container _ 0 _ h4
  refine ⟨_,?_,hcbor.leaveContainer dec left _ _ rest hdec hleft h4⟩
  refine (ends_check henter p).bind ((ends_check htm p).bind ?_)
  refine (ends_modify _ p).bind ((ends_check hmap _).bind (hloop.bind ?_))
  dsimp only
  rw [hend,if_neg (by decide)]
  exact ends_pure _ _

/-- The decoder stands in a map, in front of the entries of edges. -/
structure AtEdges (At : D → Option ℕ → List UInt8 → Prop) (a : Edges ne nc) (turns : ℕ)
    (rest : List UInt8) (l : List (Fin ne)) (dec : D) : Prop where
  /-- The edges can be read. -/
  readable : ∀ ea∈l, Readable a turns ea
  /-- The bytes ahead. -/
  ahead : At dec (some (2*l.length)) ((l.flatMap fun ea =>
    encode (edgeEntry a ea).1++encode (edgeEntry a ea).2)++rest)

/-- One turn reads the entry of an edge. -/
theorem ends_receiveEdge (hcbor : LawfulTrustDecoder cbor At) {rest : List UInt8} {turns : ℕ}
    {ea : Fin ne} {l : List (Fin ne)} {dec : D} (hdec : AtEdges At a turns rest (ea::l) dec)
    (p : Peers np ne nc PT) :
    ∃ dec', Ends (receiveEdge cbor penv b turns i dec) p dec' (absorbEdge penv a b i p ea) ∧
      AtEdges At a turns rest l dec' := by
  have hread := hdec.readable ea List.mem_cons_self
  have hrest : ∀ ea∈l, Readable a turns ea := fun ea hea =>
    hdec.readable ea (List.mem_cons_of_mem _ hea)
  have hlen : (a.edge ea).ep.toList.length=16 := by simp
  have hbytes := hdec.ahead
  rw [List.flatMap_cons,edgeEntry,encode,List.append_assoc,List.append_assoc,
    List.append_assoc,hlen] at hbytes
  obtain ⟨map,hget,hmap⟩ := decodes_object hcbor.toLawfulDecoder hlen (by decide) hbytes (by simp)
  have hleft : (some (2*(ea::l).length)).map (·-1)=some (2*l.length+1) := rfl
  rw [hleft] at hmap
  have haddr : nanocborGetIpaddr cbor.toPublishDecoder dec=.ok (map,(a.edge ea).ep) := by
    rw [nanocborGetIpaddr,hget,ok_bind]
    dsimp only
    rw [bytesAt_toList]
    rfl
  unfold receiveEdge absorbEdge
  cases hfind : edgeInfoFindAddr b (a.edge ea).ep with
  | some e =>
    obtain ⟨map',hends,hmap'⟩ := ends_knownEdge penv (b:=b) (i:=i) (e:=e) hcbor hread
      hmap (by simp) p
    refine ⟨map',(ends_check haddr p).bind ?_,hrest,hmap'⟩
    dsimp only
    rw [hfind]
    exact hends
  | none =>
    obtain ⟨hskip,hmap'⟩ := hcbor.skip map _ _ _ hmap (by simp) hread.fits
    have hok : nanocborCheck (cbor.skip map)=.ok (cbor.skip map).2 := if_neg (not_lt.mpr hskip)
    refine ⟨(cbor.skip map).2,(ends_check haddr p).bind ?_,hrest,hmap'⟩
    dsimp only
    rw [hfind]
    exact ends_check hok p

/-- The whole map of edges is read. -/
theorem ends_edges (hcbor : LawfulTrustDecoder cbor At) {rest : List UInt8} {turns : ℕ}
    {l : List (Fin ne)} {dec : D} (hdec : AtEdges At a turns rest l dec)
    (hturns : l.length ≤ turns) (p : Peers np ne nc PT) :
    ∃ dec', Ends (untilEnd cbor.atEnd (receiveEdge cbor penv b turns i) turns dec) p dec'
      (l.foldl (absorbEdge penv a b i) p) ∧ At dec' (some 0) rest := by
  have hend : ∀ l dec, AtEdges At a turns rest l dec → cbor.atEnd dec=l.isEmpty := by
    intro l dec h
    rw [hcbor.atEnd_container _ _ _ h.ahead]
    cases l <;> simp
  obtain ⟨dec',hends,hdec'⟩ := ends_untilEnd hend
    (fun ea l dec s h => ends_receiveEdge penv (b:=b) (i:=i) hcbor h s) hturns hdec p
  exact ⟨dec',hends,hdec'.ahead⟩

/-- A list is no longer than what is listed of each of its elements, if that is something. -/
theorem length_le_flatMap {α β : Type} {f : α → List β} (l : List α) (hf : ∀ x, 1 ≤ (f x).length) :
    l.length ≤ (l.flatMap f).length := by
  induction l with
  | nil => exact Nat.zero_le _
  | cons x l ih =>
    have hx := hf x
    rw [List.flatMap_cons,List.length_append,List.length_cons]
    omega

/-- What is listed of one element is no longer than what is listed of all. -/
theorem length_le_of_mem {α β : Type} {f : α → List β} {l : List α} {x : α} (hx : x∈l) :
    (f x).length ≤ (l.flatMap f).length := by
  induction l with
  | nil => cases hx
  | cons y l ih =>
    rw [List.flatMap_cons,List.length_append]
    rcases List.mem_cons.mp hx with rfl | hrest
    · exact Nat.le_add_right _ _
    · exact (ih hrest).trans (Nat.le_add_left _ _)

/-- The entry of an edge has at least a byte for each capability. -/
theorem length_caps_le_entry (a : Edges ne nc) (ea : Fin ne) :
    (a.edge ea).capabilities.length ≤
      (encode (edgeEntry a ea).1++encode (edgeEntry a ea).2).length := by
  have hloop := length_le_flatMap (f:=fun c =>
    encode (capabilityEntry a c).1++encode (capabilityEntry a c).2) (a.edge ea).capabilities
    fun c => by
      have hpos := length_encode_pos (capabilityEntry a c).1
      rw [List.length_append]
      omega
  rw [edgeEntry,encode_edgeItem]
  simp only [List.length_append] at hloop ⊢
  omega

/-- A payload of all edges is read to its end, and does what the fold over the
edges of the sender does. -/
theorem ends_receiveTrust (hcbor : LawfulTrustDecoder cbor At)
    (hnames : ∀ c, NameFits (a.cap c).name) (hedges : a.edgeResources.length < 2^31)
    (hcaps : ∀ ea∈a.edgeResources, (a.edge ea).capabilities.length < 2^31) (time : UInt32)
    (p : Peers np ne nc PT) :
    Ends (receiveTrust cbor penv b i (encode (trustItem a time))) p ()
      (a.edgeResources.foldl (absorbEdge penv a b i) (setLastSeen i time p)) := by
  have hbytes := encode_trustItem a time
  have hpos : ∀ ea, 1 ≤ (encode (edgeEntry a ea).1++encode (edgeEntry a ea).2).length := by
    intro ea
    have hkey := length_encode_pos (edgeEntry a ea).1
    rw [List.length_append]
    omega
  have hloop := length_le_flatMap a.edgeResources hpos
  have hall : (a.edgeResources.flatMap fun ea =>
      encode (edgeEntry a ea).1++encode (edgeEntry a ea).2).length ≤
      (encode (trustItem a time)).length := by
    rw [hbytes]
    simp only [List.length_append]
    omega
  have hread : ∀ ea∈a.edgeResources, Readable a (encode (trustItem a time)).length ea := by
    intro ea hea
    refine ⟨fun c _ => hnames c,hcaps ea hea,(length_caps_le_entry a ea).trans ?_⟩
    exact (length_le_of_mem hea).trans hall
  have hinit := hcbor.init (encode (trustItem a time))
  unfold receiveTrust
  generalize cbor.init (encode (trustItem a time))=dec at hinit ⊢
  rw [hbytes] at hinit
  obtain ⟨arr,henter,h0⟩ := (hcbor.enterArray dec none 2 _ hinit (by decide) (by decide)).check
  obtain ⟨arr₁,htime,h1⟩ := (hcbor.getUint32 arr (some 2) _ _ h0 (by decide) time.toNat_lt).check
  rw [UInt32.ofNat_toNat] at htime
  obtain ⟨map,hmap,h2⟩ := (hcbor.enterMap arr₁ (some 1) _ _ h1 (by decide) hedges).check
  obtain ⟨map',hends,h3⟩ := ends_edges penv (b:=b) (i:=i) hcbor
    ⟨hread,by rw [List.append_nil]; exact h2⟩ (hloop.trans hall) (setLastSeen i time p)
  have hdone : cbor.atEnd map'=true := hcbor.atEnd_container _ 0 _ h3
  have h4 := hcbor.leaveContainer arr₁ (some 1) _ map' [] h1 (by decide) h3
  have hend : cbor.atEnd (cbor.leaveContainer arr₁ map')=true :=
    hcbor.atEnd_container _ 0 _ h4
  have hseen : Ends (receiveLastSeen cbor i arr) p arr₁ (setLastSeen i time p) := by
    rw [receiveLastSeen,htime]
    exact (ends_modify _ p).bind (ends_pure _ _)
  refine (ends_check henter p).bind (hseen.bind ((ends_check hmap _).bind (hends.bind ?_)))
  rw [hdone,hend,if_neg (by decide),if_neg (by decide)]
  exact ends_pure _ _

end Reading

section Keeping

variable {cbor : TrustDecoder D} {penv : PeerEnv np ne nc PT} {b : Edges ne nc} {i : Fin np}
  {I : Peers np ne nc PT → Prop}

/-- What no update that a message can ask for breaks. -/
structure KeptByUpdates (penv : PeerEnv np ne nc PT) (b : Edges ne nc) (i : Fin np)
    (I : Peers np ne nc PT → Prop) : Prop where
  /-- When the peer was last seen. -/
  seen : ∀ time p, I p → I (setLastSeen i time p)
  /-- What it reports of an edge. -/
  edge : ∀ e tm p, I p → I (peerInfoUpdateEdge penv p i e tm (b.edge e).ep).1
  /-- What it reports of a capability. -/
  cap : ∀ e c tm p, I p →
    I (peerInfoUpdateCapability penv p i e c tm (b.edge e).ep (b.cap c).name).1

/-- An entry of a capability keeps it. -/
theorem KeptByUpdates.receiveCapability (h : KeptByUpdates penv b i I) (e : Fin ne) (map : D) :
    Keeps I (receiveCapability cbor penv b i e map) := by
  refine keeps_check_bind fun r _ => ?_
  dsimp only
  split
  · exact keeps_check _
  · split
    · next c _ =>
      exact keeps_check_bind fun r' _ => (keeps_modify (h.cap e c r'.2)).bind fun _ => keeps_pure _
    · exact keeps_check _

/-- So does an entry of an edge that the receiver knows. -/
theorem KeptByUpdates.knownEdge (h : KeptByUpdates penv b i I) (turns : ℕ) (e : Fin ne) (dec : D) :
    Keeps I (deserialiseTrustEdgeAndCapabilities cbor penv b turns i e dec) := by
  refine keeps_check_bind fun _ _ => keeps_check_bind fun r _ => ?_
  refine (keeps_modify (h.edge e r.2)).bind fun _ => keeps_check_bind fun _ _ => ?_
  refine (keeps_untilEnd (h.receiveCapability e) turns _).bind fun _ => ?_
  dsimp only
  split
  · exact keeps_throw _
  · exact keeps_pure _

/-- And an entry of any edge. -/
theorem KeptByUpdates.receiveEdge (h : KeptByUpdates penv b i I) (turns : ℕ) (map : D) :
    Keeps I (receiveEdge cbor penv b turns i map) := by
  refine keeps_check_bind fun r _ => ?_
  dsimp only
  split
  · exact keeps_check _
  · next e _ => exact h.knownEdge turns e _

/-- And the time in the clock of the peer. -/
theorem KeptByUpdates.receiveLastSeen (h : KeptByUpdates penv b i I) (arr : D) :
    Keeps I (receiveLastSeen cbor i arr) := by
  unfold TrustDissemination.receiveLastSeen
  split
  · next lastSeen _ => exact (keeps_modify (h.seen lastSeen)).bind fun _ => keeps_pure _
  · exact (keeps_modify fun p => h.seen _ p).bind fun _ => keeps_throw _

/-- Any bytes keep it, whether they are accepted or not. -/
theorem KeptByUpdates.receiveTrust (h : KeptByUpdates penv b i I) (buffer : List UInt8) :
    Keeps I (receiveTrust cbor penv b i buffer) := by
  refine keeps_check_bind fun _ _ => (h.receiveLastSeen _).bind fun _ => ?_
  refine keeps_check_bind fun _ _ => ?_
  refine (keeps_untilEnd (h.receiveEdge buffer.length) buffer.length _).bind fun _ => ?_
  split
  · exact keeps_throw _
  · split
    · exact keeps_throw _
    · exact keeps_pure _

end Keeping

end TrustAlloc.TrustDissemination
