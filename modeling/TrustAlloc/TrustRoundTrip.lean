import TrustAlloc.PeerViews
import TrustAlloc.TrustDissemination

/-!
# What a receiver takes over of a sender's trust

In the table of what peers have reported, the folds over the edges and
capabilities of the sender write exactly the places of what both nodes know.
This holds between any two nodes in any states of their runs, as long as the
receiver has no dangling references.
-/

namespace TrustAlloc.TrustRoundTrip

open Cbor CborCodec Certificates EdgeInfo EdgeStoreRuns PeerInfo PeerReferences PeerViews
open Processing ReputationModel Runs TrustDissemination TrustPayload

variable {np ne nc : ℕ} {PT D : Type}

section Written

variable (penv : PeerEnv np ne nc PT) {a b : Edges ne nc} {i : Fin np} {e : Fin ne}
  {p p' p'' : Peers np ne nc PT}

/-- What capabilities of the sender have changed of what it has reported of an edge. -/
structure AbsorbedCapabilities (a b : Edges ne nc) (i : Fin np) (e : Fin ne)
    (l : List (Fin (ne*nc))) (p p' : Peers np ne nc PT) : Prop where
  /-- The invariants are kept. -/
  sound : Sound b p'
  /-- Nothing else has changed. -/
  other : OthersSame p p' i e
  /-- What it has reported of the edge itself is the same. -/
  edge : edgeView p' i e=edgeView p i e
  /-- The values of capabilities that both know are stored. -/
  reported : ∀ c∈l, ∀ c'∈(b.edge e).capabilities, (b.cap c').name=(a.cap c).name →
    capView p' i e c'=some (a.cap c).tm
  /-- What was reported of others is kept. -/
  kept : ∀ c', (∀ c∈l, (b.cap c').name≠(a.cap c).name) → capView p' i e c'=capView p i e c'

/-- One capability is absorbed. -/
theorem absorbed_capability (hb : Represented b) (he : e∈b.edgeResources) (hp : Sound b p)
    (hi : i∈p.peers) (hview : edgeView p i e≠none) (c : Fin (ne*nc)) :
    AbsorbedCapabilities a b i e [c] p (absorbCapability penv a b i e p c) := by
  unfold absorbCapability
  cases hfind : edgeInfoCapabilityFind b e (a.cap c).name with
  | none =>
    have hunknown := (edgeInfoCapabilityFind_none_iff e _).mp hfind
    refine ⟨hp,⟨rfl,fun _ _ => rfl,rfl,rfl,fun _ _ _ _ => ⟨rfl,fun _ => rfl⟩⟩,rfl,?_,
      fun _ _ => rfl⟩
    intro c₁ hc₁ c' hc' hname
    rw [List.mem_singleton.mp hc₁] at hname
    exact absurd hname (hunknown c' hc')
  | some c₀ =>
    obtain ⟨hc₀,hname₀⟩ := edgeInfoCapabilityFind_some hfind
    obtain ⟨hsound,hother,hedge,hcap,hrest⟩ :=
      hp.updateCapability penv hi hview hc₀ (a.cap c).tm rfl
    refine ⟨hsound,hother,hedge,?_,fun c' hne => hrest c' ?_⟩
    · intro c₁ hc₁ c' hc' hname
      rw [List.mem_singleton.mp hc₁] at hname ⊢
      rw [hb.distinct.names e he c' hc' c₀ hc₀ (hname.trans hname₀.symm)]
      exact hcap
    · rintro rfl
      exact hne c (List.mem_singleton.mpr rfl) hname₀

/-- Capabilities with different names are absorbed one after the other. -/
theorem absorbed_capabilities (hb : Represented b) (he : e∈b.edgeResources)
    {l : List (Fin (ne*nc))} (hl : l.Pairwise fun c c' => (a.cap c).name≠(a.cap c').name)
    (hp : Sound b p) (hi : i∈p.peers) (hview : edgeView p i e≠none) :
    AbsorbedCapabilities a b i e l p (l.foldl (absorbCapability penv a b i e) p) := by
  induction l generalizing p with
  | nil =>
    exact ⟨hp,⟨rfl,fun _ _ => rfl,rfl,rfl,fun _ _ _ _ => ⟨rfl,fun _ => rfl⟩⟩,rfl,
      fun _ hc => (nomatch hc),fun _ _ => rfl⟩
  | cons c l ih =>
    obtain ⟨hhead,htail⟩ := List.pairwise_cons.mp hl
    have hone := absorbed_capability penv (a:=a) hb he hp hi hview c
    have hi' : i∈(absorbCapability penv a b i e p c).peers := hone.other.peers ▸ hi
    have hrest := ih htail hone.sound hi' (by rw [hone.edge]; exact hview)
    rw [List.foldl_cons]
    refine ⟨hrest.sound,hone.other.trans hrest.other,hrest.edge.trans hone.edge,?_,?_⟩
    · intro c₁ hc₁ c' hc' hname
      rcases List.mem_cons.mp hc₁ with rfl | hin
      · -- later capabilities have other names
        rw [hrest.kept c' fun c₂ hc₂ => hname ▸ hhead c₂ hc₂]
        exact hone.reported c₁ (List.mem_singleton.mpr rfl) c' hc' hname
      · exact hrest.reported c₁ hin c' hc' hname
    · intro c' hne
      rw [hrest.kept c' fun c₁ hc₁ => hne c₁ (List.mem_cons_of_mem c hc₁)]
      exact hone.kept c' fun c₁ hc₁ =>
        hne c₁ (List.mem_singleton.mp hc₁ ▸ List.mem_cons_self)

/-- What the peer has reported of an edge is what the sender holds of it: its
values, and those of every capability that both know. -/
structure Reported (a b : Edges ne nc) (p : Peers np ne nc PT) (i : Fin np) (ea e : Fin ne) :
    Prop where
  /-- Values of the edge. -/
  edge : edgeView p i e=some (a.edge ea).tm
  /-- Values of its capabilities. -/
  caps : ∀ c∈(a.edge ea).capabilities, ∀ c'∈(b.edge e).capabilities,
    (b.cap c').name=(a.cap c).name → capView p i e c'=some (a.cap c).tm

/-- It is still that when nothing has changed. -/
theorem Reported.congr {ea : Fin ne} (h : Reported a b p i ea e) (hsame : SameView p p' i e) :
    Reported a b p' i ea e :=
  ⟨hsame.edge.trans h.edge,fun c hc c' hc' hname =>
    (hsame.cap c').trans (h.caps c hc c' hc' hname)⟩

/-- What edges of the sender have changed of what it has reported. -/
structure AbsorbedEdges (a b : Edges ne nc) (i : Fin np) (l : List (Fin ne))
    (p p' : Peers np ne nc PT) : Prop where
  /-- The invariants are kept. -/
  sound : Sound b p'
  /-- There are the same peers. -/
  peers : p'.peers=p.peers
  /-- Other peers are as before. -/
  peer : ∀ i', i'≠i → p'.peer i'=p.peer i'
  /-- The address of the peer. -/
  addr : (p'.peer i).addr=(p.peer i).addr
  /-- When it was last seen. -/
  lastSeen : (p'.peer i).lastSeen=(p.peer i).lastSeen
  /-- What other peers have reported is kept. -/
  others : ∀ i'∈p.peers, i'≠i → ∀ e, SameView p p' i' e
  /-- The values of edges that both know are stored. -/
  reported : ∀ ea∈l, ∀ e∈b.edgeResources, (b.edge e).ep=(a.edge ea).ep → Reported a b p' i ea e
  /-- What was reported of other edges is kept. -/
  kept : ∀ e, (∀ ea∈l, (b.edge e).ep≠(a.edge ea).ep) → SameView p p' i e
  /-- So is what was reported of other capabilities. -/
  keptCaps : ∀ ea∈l, ∀ e∈b.edgeResources, (b.edge e).ep=(a.edge ea).ep →
    ∀ c', (∀ c∈(a.edge ea).capabilities, (b.cap c').name≠(a.cap c).name) →
      capView p' i e c'=capView p i e c'

/-- One edge is absorbed. -/
theorem absorbed_edge (hb : Represented b) (hp : Sound b p) (hi : i∈p.peers) {ea : Fin ne}
    (hnames : (a.edge ea).capabilities.Pairwise fun c c' => (a.cap c).name≠(a.cap c').name) :
    AbsorbedEdges a b i [ea] p (absorbEdge penv a b i p ea) := by
  unfold absorbEdge
  cases hfind : edgeInfoFindAddr b (a.edge ea).ep with
  | none =>
    have hunknown := (edgeInfoFindAddr_none_iff _).mp hfind
    have habsurd : ∀ ea₁∈[ea], ∀ e∈b.edgeResources, (b.edge e).ep≠(a.edge ea₁).ep := by
      intro ea₁ hea₁ e he
      rw [List.mem_singleton.mp hea₁]
      exact hunknown e he
    exact ⟨hp,rfl,fun _ _ => rfl,rfl,rfl,fun _ _ _ _ => ⟨rfl,fun _ => rfl⟩,
      fun ea₁ hea₁ e he hep => absurd hep (habsurd ea₁ hea₁ e he),
      fun _ _ => ⟨rfl,fun _ => rfl⟩,fun ea₁ hea₁ e he hep => absurd hep (habsurd ea₁ hea₁ e he)⟩
  | some e =>
    obtain ⟨he,hep⟩ := edgeInfoFindAddr_some hfind
    obtain ⟨hsound,hother,hedge,hcap⟩ := hp.updateEdge penv hi he (a.edge ea).tm rfl
    have hi' := hother.peers.symm ▸ hi
    have hcaps := absorbed_capabilities penv (a:=a) hb he hnames hsound hi' (by rw [hedge]; simp)
    have hall := hother.trans hcaps.other
    have hsame : ∀ e'∈b.edgeResources, (b.edge e').ep=(a.edge ea).ep → e'=e :=
      fun e' he' hep' => hb.distinct.addresses e' he' e he (hep'.trans hep.symm)
    refine ⟨hcaps.sound,hall.peers,hall.peer,hall.addr,hall.lastSeen,
      fun i' hi' hne e' => hall.view i' hi' e' (Or.inl hne),?_,?_,?_⟩
    · intro ea₁ hea₁ e' he' hep'
      rw [List.mem_singleton.mp hea₁] at hep' ⊢
      rw [hsame e' he' hep']
      exact ⟨hcaps.edge.trans hedge,hcaps.reported⟩
    · intro e' hne
      refine hall.view i hi e' (Or.inr ?_)
      rintro rfl
      exact hne ea (List.mem_singleton.mpr rfl) hep
    · intro ea₁ hea₁ e' he' hep' c' hne
      rw [List.mem_singleton.mp hea₁] at hep' hne
      rw [hsame e' he' hep']
      exact (hcaps.kept c' hne).trans (hcap c')

/-- Edges with different addresses are absorbed one after the other. -/
theorem absorbed_edges (hb : Represented b) {l : List (Fin ne)}
    (hl : l.Pairwise fun ea ea' => (a.edge ea).ep≠(a.edge ea').ep)
    (hnames : ∀ ea∈l,
      (a.edge ea).capabilities.Pairwise fun c c' => (a.cap c).name≠(a.cap c').name)
    (hp : Sound b p) (hi : i∈p.peers) :
    AbsorbedEdges a b i l p (l.foldl (absorbEdge penv a b i) p) := by
  induction l generalizing p with
  | nil =>
    exact ⟨hp,rfl,fun _ _ => rfl,rfl,rfl,fun _ _ _ _ => ⟨rfl,fun _ => rfl⟩,
      fun _ hea => (nomatch hea),fun _ _ => ⟨rfl,fun _ => rfl⟩,fun _ hea => (nomatch hea)⟩
  | cons ea l ih =>
    obtain ⟨hhead,htail⟩ := List.pairwise_cons.mp hl
    have hone := absorbed_edge penv hb hp hi (hnames ea List.mem_cons_self)
    have hi' : i∈(absorbEdge penv a b i p ea).peers := hone.peers ▸ hi
    have hrest := ih htail (fun ea' hea' => hnames ea' (List.mem_cons_of_mem ea hea'))
      hone.sound hi'
    -- later edges have other addresses
    have hlater : ∀ e, (b.edge e).ep=(a.edge ea).ep → ∀ ea'∈l, (b.edge e).ep≠(a.edge ea').ep :=
      fun e hep ea' hea' => hep ▸ hhead ea' hea'
    rw [List.foldl_cons]
    refine ⟨hrest.sound,hrest.peers.trans hone.peers,
      fun i' hne => (hrest.peer i' hne).trans (hone.peer i' hne),hrest.addr.trans hone.addr,
      hrest.lastSeen.trans hone.lastSeen,fun i' hi' hne e => (hone.others i' hi' hne e).trans
        (hrest.others i' (hone.peers.symm ▸ hi') hne e),?_,?_,?_⟩
    · intro ea₁ hea₁ e he hep
      rcases List.mem_cons.mp hea₁ with rfl | hin
      · exact (hone.reported ea₁ (List.mem_singleton.mpr rfl) e he hep).congr
          (hrest.kept e (hlater e hep))
      · exact hrest.reported ea₁ hin e he hep
    · intro e hne
      have hfirst := hone.kept e fun ea₁ hea₁ =>
        hne ea₁ (List.mem_singleton.mp hea₁ ▸ List.mem_cons_self)
      exact hfirst.trans (hrest.kept e fun ea₁ hea₁ => hne ea₁ (List.mem_cons_of_mem ea hea₁))
    · intro ea₁ hea₁ e he hep c' hne
      rcases List.mem_cons.mp hea₁ with rfl | hin
      · rw [(hrest.kept e (hlater e hep)).cap]
        exact hone.keptCaps ea₁ (List.mem_singleton.mpr rfl) e he hep c' hne
      · have hfirst := hone.kept e fun ea₂ hea₂ => by
          rw [List.mem_singleton.mp hea₂,hep]
          exact (hhead ea₁ hin).symm
        rw [hrest.keptCaps ea₁ hin e he hep c' hne,hfirst.cap]

end Written

section Senders

variable (penv : PeerEnv np ne nc PT) {b : Edges ne nc} {i : Fin np} {p p' : Peers np ne nc PT}

/-- When a peer was last seen has no bearing on its records. -/
theorem setLastSeen_edges (i i' : Fin np) (time : UInt32) (p : Peers np ne nc PT) :
    ((setLastSeen i time p).peer i').edges=(p.peer i').edges := by
  by_cases hne : i'=i
  · subst hne
    have hsame : (setLastSeen i' time p).peer i'={p.peer i' with lastSeen := time} :=
      p.peersMemb.set_mem_same i' _
    rw [hsame]
  · exact congrArg Peer.edges (p.peersMemb.set_mem_other _ hne)

/-- Nor on what peers have reported. -/
theorem sameView_setLastSeen (i i' : Fin np) (time : UInt32) (p : Peers np ne nc PT)
    (e : Fin ne) : SameView p (setLastSeen i time p) i' e := by
  refine SameView.of_find (findEdge_congr (setLastSeen_edges i i' time p) ?_ e) fun j _ => ?_
  · exact fun _ _ => rfl
  · exact ⟨rfl,fun _ _ => rfl⟩

/-- Nor on the records there are. -/
theorem records_setLastSeen (i : Fin np) (time : UInt32) (p : Peers np ne nc PT) :
    (setLastSeen i time p).records=p.records :=
  List.flatMap_congr fun i' _ => setLastSeen_edges i i' time p

/-- Nor on the invariant of the peer store. -/
theorem peersWellFormed_setLastSeen (hp : PeersWellFormed p) (i : Fin np) (time : UInt32) :
    PeersWellFormed (setLastSeen i time p) := by
  refine ⟨hp.ownsPeers,?_,?_⟩
  · rw [records_setLastSeen]
    exact hp.ownsRecords
  · rw [PeerStore.reports,records_setLastSeen]
    exact hp.ownsReports

/-- Nor on the other invariants. -/
theorem sound_setLastSeen (hp : Sound b p) (i : Fin np) (time : UInt32) :
    Sound b (setLastSeen i time p) := by
  have hrecords := records_setLastSeen i time p
  refine ⟨hp.edges,peersWellFormed_setLastSeen hp.peers i time,
    ⟨fun i' hi' => ?_,fun j hj => ?_⟩,fun j hj => ?_⟩
  · rw [setLastSeen_edges]
    exact hp.distinct.edges i' hi'
  · exact hp.distinct.caps j (hrecords ▸ hj)
  · exact hp.references j (hrecords ▸ hj)

/-- There is a peer with the address, or room for one. -/
def KnowsOrHasRoom (p : Peers np ne nc PT) (addr : IpAddr) : Prop :=
  (∃ i∈p.peers, (p.peer i).addr=addr) ∨ ∃ i, p.peersMemb.used i=false

/-- Both are decided by the store. -/
instance decidableKnowsOrHasRoom (p : Peers np ne nc PT) (addr : IpAddr) :
    Decidable (KnowsOrHasRoom p addr) := inferInstanceAs (Decidable (_ ∨ _))

/-- What `peer_info_add` does to a store that gets a peer. -/
structure Added (b : Edges ne nc) (addr : IpAddr) (i : Fin np) (p p' : Peers np ne nc PT) :
    Prop where
  /-- The invariants are kept. -/
  sound : Sound b p'
  /-- The peer is found by its address. -/
  found : peerInfoFind p' addr=some i
  /-- What it has reported of edges is what was there, if there was anything. -/
  edge : ∀ e, edgeView p' i e=(peerInfoFind p addr).bind fun i => edgeView p i e
  /-- So is what it has reported of capabilities. -/
  cap : ∀ e c, capView p' i e c=(peerInfoFind p addr).bind fun i => capView p i e c
  /-- Peers stay listed. -/
  listed : ∀ i'∈p.peers, i'∈p'.peers
  /-- They are as before. -/
  peer : ∀ i'∈p.peers, p'.peer i'=p.peer i'
  /-- So is what they have reported. -/
  view : ∀ i'∈p.peers, ∀ e, SameView p p' i' e

/-- A peer that is found is listed and has the address. -/
theorem peerInfoFind_some {addr : IpAddr} (h : peerInfoFind p addr=some i) :
    i∈p.peers ∧ (p.peer i).addr=addr :=
  ⟨List.mem_of_find?_eq_some h,by simpa using List.find?_some h⟩

/-- A new peer leaves the others as they are. -/
theorem placePeer_peer (hp : PeersWellFormed p) (hi : p.peersMemb.used i=false) (addr : IpAddr)
    {i' : Fin np} (hi' : i'∈p.peers) : (p.placePeer penv i addr).peer i'=p.peer i' :=
  (p.peersMemb.take i).set_mem_other _ (hp.ownsPeers.ne_of_mem hi' hi)

/-- So is what they have reported. -/
theorem sameView_placePeer (hp : PeersWellFormed p) (hi : p.peersMemb.used i=false)
    (addr : IpAddr) {i' : Fin np} (hi' : i'∈p.peers) (e : Fin ne) :
    SameView p (p.placePeer penv i addr) i' e := by
  refine SameView.of_find (findEdge_congr ?_ ?_ e) fun j _ => ⟨rfl,fun _ _ => rfl⟩
  · rw [placePeer_peer penv hp hi addr hi']
  · exact fun _ _ => rfl

/-- The new peer is found by its address. -/
theorem peerInfoFind_placePeer (hp : PeersWellFormed p) (hi : p.peersMemb.used i=false)
    (addr : IpAddr) : peerInfoFind (p.placePeer penv i addr) addr=some i := by
  have hnew : ((p.placePeer penv i addr).peer i).addr=addr :=
    congrArg Peer.addr ((p.peersMemb.take i).set_mem_same i _)
  rw [peerInfoFind,(records_placePeer hp penv hi addr).1,List.find?_cons,hnew]
  simp

/-- `peer_info_add` succeeds for a known peer, and when there is room. -/
theorem added_of_knowsOrHasRoom (hp : Sound b p) {addr : IpAddr} (h : KnowsOrHasRoom p addr) :
    ∃ i p', peerInfoAdd penv p addr=(p',some i) ∧ Added b addr i p p' := by
  unfold peerInfoAdd
  cases hfind : peerInfoFind p addr with
  | some i =>
    exact ⟨i,p,rfl,hp,hfind,fun e => by rw [hfind,Option.bind_some],
      fun e c => by rw [hfind,Option.bind_some],fun _ hi' => hi',fun _ _ => rfl,
      fun _ _ _ => ⟨rfl,fun _ => rfl⟩⟩
  | none =>
    have hunknown : ∀ i∈p.peers, (p.peer i).addr≠addr := by simpa [peerInfoFind] using hfind
    have hfree : ∃ i, p.peersMemb.used i=false := h.resolve_left fun ⟨i,hi,haddr⟩ =>
      hunknown i hi haddr
    obtain ⟨i,hpick⟩ := Option.isSome_iff_exists.mp ((penv.peerAllocator.pick_isSome _).mpr hfree)
    have hi := penv.peerAllocator.pick_free hpick
    have hadd : (peerInfoAdd penv p addr).1=p.placePeer penv i addr := by
      rw [peerInfoAdd,hfind]
      dsimp only
      rw [hpick]
    have hlist := (records_placePeer hp.peers penv hi addr).1
    have hempty : ∀ e, peerInfoFindEdge (p.placePeer penv i addr) i e=none := by
      intro e
      have hedges : ((p.placePeer penv i addr).peer i).edges=[] :=
        congrArg Peer.edges ((p.peersMemb.take i).set_mem_same i _)
      rw [peerInfoFindEdge,hedges,List.find?_nil]
    refine ⟨i,p.placePeer penv i addr,?_,?_⟩
    · dsimp only
      rw [hpick]
    · refine ⟨⟨hp.edges,hp.peers.placePeer penv hi addr,?_,?_⟩,
        peerInfoFind_placePeer penv hp.peers hi addr,fun e => ?_,fun e c => ?_,fun i' hi' => ?_,
        fun i' hi' => placePeer_peer penv hp.peers hi addr hi',
        fun i' hi' e => sameView_placePeer penv hp.peers hi addr hi' e⟩
      · rw [←hadd]
        exact hp.distinct.peerAdd hp.peers penv addr
      · rw [←hadd]
        exact hp.references.peerAdd hp.peers penv addr
      · rw [edgeView,hempty,hfind,Option.map_none,Option.bind_none]
      · rw [capView,hempty,hfind,Option.bind_none,Option.bind_none]
      · rw [hlist]
        exact List.mem_cons_of_mem i hi'

end Senders

section Nodes

variable {n : Node np ne nc PT}

/-- A name that an operation brings in fits its field. -/
def NamesAdmitted {ET CT : Type} : PeerReferences.Op np ne nc ET CT → Prop
  | .capabilityAdd _ name => NameFits name
  | _ => True

/-- Names are decided to be admitted. -/
instance decidableNamesAdmitted {ET CT : Type} : ∀ op : PeerReferences.Op np ne nc ET CT,
    Decidable (NamesAdmitted op)
  | .capabilityAdd _ name => inferInstanceAs (Decidable (NameFits name))
  | .edgeAdd _ | .edgeRemove _ | .capabilityRemove _ _ | .capabilityClear _ | .writeEdge _ _ _
  | .writeCap _ _ _ | .peerAdd _ | .updateEdge _ _ _ | .updateCapability _ _ _ _ => .isTrue trivial

/-- An operation on a node is admitted, and so is the name that it brings in. -/
def NodeAdmitted (n : Node np ne nc PT)
    (op : PeerReferences.Op np ne nc EdgeResourceTm EdgeCapabilityTm) : Prop :=
  PeerReferences.Admitted n op ∧ NamesAdmitted op

/-- Both are decided. -/
instance decidableNodeAdmitted (n : Node np ne nc PT)
    (op : PeerReferences.Op np ne nc EdgeResourceTm EdgeCapabilityTm) :
    Decidable (NodeAdmitted n op) := inferInstanceAs (Decidable (_ ∧ _))

/-- The invariant of the two stores of a node. -/
structure NodeInv (n : Node np ne nc PT) : Prop where
  /-- The edge store is represented. -/
  represented : Represented n.edges
  /-- Names fit their fields. -/
  names : NamesAre NameFits n.edges
  /-- The peer store is well formed. -/
  peers : PeersWellFormed n.peers
  /-- Records and reports are about different things. -/
  distinct : PeersDistinct n.peers

/-- Operations on the edge store keep the invariant of the node. -/
theorem NodeInv.edgeStep (h : NodeInv n) (env : EdgeEnv ne nc EdgeResourceTm EdgeCapabilityTm)
    (op : EdgeStoreRuns.Op ne nc EdgeResourceTm EdgeCapabilityTm)
    (hop : EdgeStoreRuns.Admitted n.edges op)
    (hnew : ∀ e name, op=.capabilityAdd e name → NameFits name) :
    NodeInv {n with edges := EdgeStoreRuns.step env n.edges op} :=
  ⟨h.represented.step env hop,h.names.step h.represented env hop
    fun e name hadd => (hnew e name hadd).take,h.peers,h.distinct⟩

/-- Every admitted operation keeps the invariant of the node. -/
theorem NodeInv.step (h : NodeInv n) (env : EdgeEnv ne nc EdgeResourceTm EdgeCapabilityTm)
    (penv : PeerEnv np ne nc PT) {op : PeerReferences.Op np ne nc EdgeResourceTm EdgeCapabilityTm}
    (hop : NodeAdmitted n op) : NodeInv (PeerReferences.step env penv n op) := by
  cases op with
  | edgeAdd addr =>
    exact h.edgeStep env (.edgeAdd addr) trivial fun _ _ hadd => (nomatch hadd)
  | edgeRemove e =>
    exact h.edgeStep env (.edgeRemove e) trivial fun _ _ hadd => (nomatch hadd)
  | capabilityAdd e name =>
    refine h.edgeStep env (.capabilityAdd e name) ⟨hop.1,hop.2.1⟩ fun _ _ hadd => ?_
    cases hadd
    exact hop.2
  | capabilityRemove e c =>
    exact h.edgeStep env (.capabilityRemove e c) trivial fun _ _ hadd => (nomatch hadd)
  | capabilityClear e =>
    exact h.edgeStep env (.capabilityClear e) trivial fun _ _ hadd => (nomatch hadd)
  | writeEdge e flags tm =>
    exact h.edgeStep env (.writeEdge e flags tm) trivial fun _ _ hadd => (nomatch hadd)
  | writeCap c flags tm =>
    exact h.edgeStep env (.writeCap c flags tm) trivial fun _ _ hadd => (nomatch hadd)
  | peerAdd addr =>
    exact ⟨h.represented,h.names,h.peers.peerAdd penv addr,h.distinct.peerAdd h.peers penv addr⟩
  | updateEdge i e tm =>
    exact ⟨h.represented,h.names,h.peers.updateEdge penv hop.1.1 e tm _,
      h.distinct.updateEdge h.peers penv hop.1.1 e tm _⟩
  | updateCapability i e c tm =>
    exact ⟨h.represented,h.names,h.peers.updateCapability penv hop.1.1 e c tm _ _,
      h.distinct.updateCapability h.peers penv hop.1.1 e c tm _ _⟩

/-- A new node. -/
theorem nodeInv_start (edge : Fin ne) (cap : Fin (ne*nc)) (et : EdgeResourceTm)
    (ct : EdgeCapabilityTm) (pt : PT) : NodeInv (start np ne nc edge cap et ct pt) :=
  ⟨represented_init ne nc et ct,fun _ => ⟨Nat.zero_le _,List.not_mem_nil⟩,
    peersWellFormed_init edge cap et ct pt,fun _ hi => (nomatch hi),fun _ hj => (nomatch hj)⟩

/-- A state of a node in some run, under any policies of its pools. -/
def Reachable (n : Node np ne nc PT) : Prop :=
  ∃ (env : EdgeEnv ne nc EdgeResourceTm EdgeCapabilityTm) (penv : PeerEnv np ne nc PT)
    (edge : Fin ne) (cap : Fin (ne*nc)) (et : EdgeResourceTm) (ct : EdgeCapabilityTm) (pt : PT)
    (ops : List (PeerReferences.Op np ne nc EdgeResourceTm EdgeCapabilityTm)),
    Along (PeerReferences.step env penv) NodeAdmitted (start np ne nc edge cap et ct pt) ops ∧
      ops.foldl (PeerReferences.step env penv) (start np ne nc edge cap et ct pt)=n

/-- Every reachable node has the invariant. -/
theorem Reachable.inv (h : Reachable n) : NodeInv n := by
  obtain ⟨env,penv,edge,cap,et,ct,pt,ops,hops,rfl⟩ := h
  exact (always_of_step (fun _ _ hI hA => hI.step env penv hA)
    (nodeInv_start edge cap et ct pt) hops).last

end Nodes

section RoundTrips

/-- What the peer with the given address has reported of an edge. -/
def reportedEdge (p : Peers np ne nc PT) (addr : IpAddr) (e : Fin ne) : Option EdgeResourceTm :=
  (peerInfoFind p addr).bind fun i => edgeView p i e

/-- What the peer with the given address has reported of a capability. -/
def reportedCap (p : Peers np ne nc PT) (addr : IpAddr) (e : Fin ne) (c : Fin (ne*nc)) :
    Option EdgeCapabilityTm := (peerInfoFind p addr).bind fun i => capView p i e c

/-- Two edges of two nodes have the same address. -/
def SameEdge (a b : Node np ne nc PT) (ea e : Fin ne) : Prop :=
  (b.edges.edge e).ep=(a.edges.edge ea).ep

/-- Two capabilities of two nodes have the same name. -/
def SameCap (a b : Node np ne nc PT) (ca c : Fin (ne*nc)) : Prop :=
  (b.edges.cap c).name=(a.edges.cap ca).name

/-- The receiver has taken over what the sender holds of what both know, and
nothing else has changed. -/
structure RoundTrip (a b b' : Node np ne nc PT) (src : IpAddr) (time : UInt32) : Prop where
  /-- The receiver's own trust data. -/
  edges : b'.edges=b.edges
  /-- When the sender was last seen. -/
  lastSeen : ∃ i, peerInfoFind b'.peers src=some i ∧ (b'.peers.peer i).lastSeen=time
  /-- Edges that both know. -/
  edge : ∀ ea∈a.edges.edgeResources, ∀ e∈b.edges.edgeResources, SameEdge a b ea e →
    reportedEdge b'.peers src e=some (a.edges.edge ea).tm
  /-- Capabilities that both hold for such an edge. -/
  cap : ∀ ea∈a.edges.edgeResources, ∀ e∈b.edges.edgeResources, SameEdge a b ea e →
    ∀ ca∈(a.edges.edge ea).capabilities, ∀ c∈(b.edges.edge e).capabilities, SameCap a b ca c →
      reportedCap b'.peers src e c=some (a.edges.cap ca).tm
  /-- Edges that the sender does not know. -/
  keptEdge : ∀ e, (∀ ea∈a.edges.edgeResources, ¬SameEdge a b ea e) →
    reportedEdge b'.peers src e=reportedEdge b.peers src e ∧
      ∀ c, reportedCap b'.peers src e c=reportedCap b.peers src e c
  /-- Capabilities that the sender does not hold for an edge that both know. -/
  keptCap : ∀ ea∈a.edges.edgeResources, ∀ e∈b.edges.edgeResources, SameEdge a b ea e →
    ∀ c, (∀ ca∈(a.edges.edge ea).capabilities, ¬SameCap a b ca c) →
      reportedCap b'.peers src e c=reportedCap b.peers src e c
  /-- Other peers and what they have reported. -/
  others : ∀ i∈b.peers.peers, (b.peers.peer i).addr≠src →
    i∈b'.peers.peers ∧ b'.peers.peer i=b.peers.peer i ∧ ∀ e, SameView b.peers b'.peers i e

variable {cbor : TrustDecoder D} {At : D → Option ℕ → List UInt8 → Prop} {N : TrustNanocbor}
  {a b : Node np ne nc PT}

/-- The sender's capabilities have different names. -/
theorem NodeInv.pairwise_names (ha : NodeInv a) {ea : Fin ne} (hea : ea∈a.edges.edgeResources) :
    (a.edges.edge ea).capabilities.Pairwise fun c c' =>
      (a.edges.cap c).name≠(a.edges.cap c').name :=
  (nodup_capabilities ha.represented.wellFormed hea).imp_of_mem fun hc hc' hne hname =>
    hne (ha.represented.distinct.names ea hea _ hc _ hc' hname)

/-- The sender's edges have different addresses. -/
theorem NodeInv.pairwise_addresses (ha : NodeInv a) :
    a.edges.edgeResources.Pairwise fun ea ea' => (a.edges.edge ea).ep≠(a.edges.edge ea').ep :=
  ha.represented.wellFormed.ownsEdges.nodup.imp_of_mem fun hea hea' hne hep =>
    hne (ha.represented.distinct.addresses _ hea _ hea' hep)

/-- Where a sender was added, it is found. -/
theorem AbsorbedEdges.found {src : IpAddr} {i : Fin np} {l : List (Fin ne)} {time : UInt32}
    {p q : Peers np ne nc PT} (hadded : Added b.edges src i b.peers p)
    (hfold : AbsorbedEdges a.edges b.edges i l (setLastSeen i time p) q) :
    peerInfoFind q src=some i ∧ (q.peer i).lastSeen=time := by
  have hseen : (setLastSeen i time p).peer i={p.peer i with lastSeen := time} :=
    p.peersMemb.set_mem_same i _
  have haddr : ∀ i', (q.peer i').addr=(p.peer i').addr := by
    intro i'
    by_cases h : i'=i
    · rw [h,hfold.addr,hseen]
    · rw [hfold.peer i' h]
      exact congrArg Peer.addr (p.peersMemb.set_mem_other _ h)
  refine ⟨?_,by rw [hfold.lastSeen,hseen]⟩
  rw [←hadded.found,peerInfoFind,peerInfoFind,hfold.peers]
  exact List.find?_congr fun i' _ => by rw [haddr i']

/-- Absorbing all edges of a sender that was added is taking over what it holds. -/
theorem AbsorbedEdges.roundTrip {src : IpAddr} {i : Fin np} {time : UInt32}
    {p q : Peers np ne nc PT} (hadded : Added b.edges src i b.peers p)
    (hfold : AbsorbedEdges a.edges b.edges i a.edges.edgeResources (setLastSeen i time p) q) :
    RoundTrip a b {b with peers := q} src time := by
  obtain ⟨hfound,hlast⟩ := hfold.found hadded
  have hreported : ∀ e, reportedEdge q src e=edgeView q i e := fun e => by
    rw [reportedEdge,hfound,Option.bind_some]
  have hreportedCap : ∀ e c, reportedCap q src e c=capView q i e c := fun e c => by
    rw [reportedCap,hfound,Option.bind_some]
  have hfirst : ∀ e, SameView p (setLastSeen i time p) i e :=
    fun e => sameView_setLastSeen i i time p e
  refine ⟨rfl,⟨i,hfound,hlast⟩,?_,?_,?_,?_,?_⟩
  · intro ea hea e he hsame
    rw [hreported]
    exact (hfold.reported ea hea e he hsame).edge
  · intro ea hea e he hsame ca hca c hc hname
    rw [hreportedCap]
    exact (hfold.reported ea hea e he hsame).caps ca hca c hc hname
  · intro e hunknown
    have hkept := (hfirst e).trans (hfold.kept e hunknown)
    refine ⟨?_,fun c => ?_⟩
    · rw [hreported,hkept.edge,hadded.edge]
      rfl
    · rw [hreportedCap,hkept.cap,hadded.cap]
      rfl
  · intro ea hea e he hsame c hunknown
    rw [hreportedCap,hfold.keptCaps ea hea e he hsame c hunknown,(hfirst e).cap,hadded.cap]
    rfl
  · intro i' hi' haddr
    have hother : i'≠i := by
      rintro rfl
      rw [←hadded.peer i' hi'] at haddr
      exact haddr (peerInfoFind_some hadded.found).2
    have hlisted := hadded.listed i' hi'
    refine ⟨?_,?_,fun e => ?_⟩
    · rw [hfold.peers]
      exact hlisted
    · rw [hfold.peer i' hother,←hadded.peer i' hi']
      exact p.peersMemb.set_mem_other _ hother
    · exact ((hadded.view i' hi' e).trans (sameView_setLastSeen i i' time p e)).trans
        (hfold.others i' hlisted hother e)

/-- What a node serialises, a node that has room for it as a peer takes over. -/
theorem roundTrip (hcbor : LawfulTrustDecoder cbor At) (penv : PeerEnv np ne nc PT)
    (ha : NodeInv a) (hb : NodeInv b) (hrefs : ReferencesValid b) (hne : ne < 2^31)
    (hnc : nc < 2^31) {src : IpAddr} (hroom : KnowsOrHasRoom b.peers src) (time : UInt32) :
    (processReceivedTrust cbor penv b src (encode (trustItem a.edges time))).2=0 ∧
      RoundTrip a b (processReceivedTrust cbor penv b src (encode (trustItem a.edges time))).1
        src time := by
  have hsound : Sound b.edges b.peers :=
    ⟨hb.represented.wellFormed,hb.peers,hb.distinct,hrefs⟩
  obtain ⟨i,p,hadd,hadded⟩ := added_of_knowsOrHasRoom penv hsound hroom
  have hedges : a.edges.edgeResources.length < 2^31 :=
    lt_of_le_of_lt ha.represented.wellFormed.ownsEdges.length_le hne
  have hcaps : ∀ ea∈a.edges.edgeResources, (a.edges.edge ea).capabilities.length < 2^31 :=
    fun ea hea => lt_of_le_of_lt (ha.represented.wellFormed.bounded ea hea) hnc
  have hends := ends_receiveTrust (b:=b.edges) (i:=i) penv hcbor ha.names hedges hcaps time p
  have hfold := absorbed_edges penv hb.represented ha.pairwise_addresses
    (fun ea hea => ha.pairwise_names hea) (sound_setLastSeen hadded.sound i time)
    (show i∈(setLastSeen i time p).peers from (peerInfoFind_some hadded.found).1)
  generalize a.edges.edgeResources.foldl (absorbEdge penv a.edges b.edges i)
    (setLastSeen i time p)=q at hends hfold
  have hprocess : processReceivedTrust cbor penv b src (encode (trustItem a.edges time))=
      ({b with peers := q},0) := by
    rw [processReceivedTrust,hadd]
    dsimp only
    rw [hends]
    rfl
  rw [hprocess]
  exact ⟨rfl,hfold.roundTrip hadded⟩

/-- **Trust from node to node.** For two nodes in any states of their runs, of
which the receiver has no dangling references and knows the sender or has room
for it, what `serialise_trust` makes of the sender's edges is accepted by
`process_received_trust`, and the receiver takes over exactly what it says of
edges and capabilities that both know. -/
theorem roundTrip_reachable (hN : StandardTrustHeads N) (hcbor : LawfulTrustDecoder cbor At)
    (penv : PeerEnv np ne nc PT) (ha : Reachable a) (hb : Reachable b)
    (hrefs : ReferencesValid b) (hne : ne < 2^31) (hnc : nc < 2^31) {src : IpAddr}
    (hroom : KnowsOrHasRoom b.peers src) {time : UInt32} {bufferLen : ℕ} {enc : Encoder}
    (hserialised : serialiseTrust N a.edges time none bufferLen=.ok enc) :
    (processReceivedTrust cbor penv b src enc.stored).2=0 ∧
      RoundTrip a b (processReceivedTrust cbor penv b src enc.stored).1 src time := by
  obtain ⟨hfits,hmisfit⟩ := serialiseTrust_writes hN a.edges time bufferLen
  have hstored : enc.stored=encode (trustItem a.edges time) := by
    by_cases hspace : (encode (trustItem a.edges time)).length ≤ bufferLen
    · rw [hfits hspace] at hserialised
      cases hserialised
      rfl
    · obtain ⟨e,_,herror⟩ := hmisfit (by omega)
      rw [herror] at hserialised
      cases hserialised
  rw [hstored]
  exact roundTrip hcbor penv ha.inv hb.inv hrefs hne hnc hroom time

/-- A node that knows two edges, one of them with two capabilities. -/
def senderOps : List (PeerReferences.Op 8 4 3 EdgeResourceTm EdgeCapabilityTm) :=
  [.edgeAdd (sampleAddr 1),.capabilityAdd sampleFirst [0x63,0x72],
    .capabilityAdd sampleFirst [0x65,0x6E,0x76],.edgeAdd (sampleAddr 2),
    .writeEdge sampleFirst edgeResourceActive ⟨⟨70000,300⟩,⟨24,1⟩⟩]

/-- A node that knows another edge and one of these, with one of its capabilities. -/
def receiverOps : List (PeerReferences.Op 8 4 3 EdgeResourceTm EdgeCapabilityTm) :=
  [.edgeAdd (sampleAddr 3),.edgeAdd (sampleAddr 1),.capabilityAdd sampleSecond [0x65,0x6E,0x76],
    .peerAdd (sampleAddr 8)]

/-- The state of a node after some operations. -/
def sampleNode (ops : List (PeerReferences.Op 8 4 3 EdgeResourceTm EdgeCapabilityTm)) :
    Node 8 4 3 Unit :=
  ops.foldl (PeerReferences.step reputationEnv samplePeerEnv)
    (start 8 4 3 sampleFirst (Fin.last 11) edgeResourceTmInit edgeCapabilityTmInit ())

/-- Such a state is reachable, if the operations are admitted. -/
theorem reachable_sampleNode
    (ops : List (PeerReferences.Op 8 4 3 EdgeResourceTm EdgeCapabilityTm))
    (hops : Along (PeerReferences.step reputationEnv samplePeerEnv) NodeAdmitted
      (start 8 4 3 sampleFirst (Fin.last 11) edgeResourceTmInit edgeCapabilityTmInit ()) ops) :
    Reachable (sampleNode ops) :=
  ⟨reputationEnv,samplePeerEnv,sampleFirst,Fin.last 11,edgeResourceTmInit,edgeCapabilityTmInit,(),
    ops,hops,rfl⟩

/-- What the first node sends fits 300 bytes. -/
theorem sender_fits : (encode (trustItem (sampleNode senderOps).edges 7)).length ≤ 300 := by
  have hinv := (reachable_sampleNode senderOps (by decide)).inv
  have hsize : storeSize (sampleNode senderOps).edges ≤ 200 := by decide
  have hseven : headLength (7 : UInt32).toNat=1 := by decide
  rw [length_trustItem (by decide) (by decide) ⟨hinv.represented,fun c => (hinv.names c).1⟩,hseven]
  omega

/-- What the first node sends, the second one takes over. -/
theorem roundTrip_reachable_sample :
    (processReceivedTrust byteDecoder samplePeerEnv (sampleNode receiverOps) (sampleAddr 9)
        (encode (trustItem (sampleNode senderOps).edges 7))).2=0 ∧
      RoundTrip (sampleNode senderOps) (sampleNode receiverOps)
        (processReceivedTrust byteDecoder samplePeerEnv (sampleNode receiverOps) (sampleAddr 9)
          (encode (trustItem (sampleNode senderOps).edges 7))).1 (sampleAddr 9) 7 :=
  roundTrip_reachable standardNanocbor_heads byteDecoder_lawful samplePeerEnv
    (reachable_sampleNode senderOps (by decide)) (reachable_sampleNode receiverOps (by decide))
    (by decide) (by decide) (by decide) (Or.inr ⟨1,by decide⟩)
    ((serialiseTrust_writes standardNanocbor_heads (sampleNode senderOps).edges 7 300).1
      sender_fits)

end RoundTrips

end TrustAlloc.TrustRoundTrip
