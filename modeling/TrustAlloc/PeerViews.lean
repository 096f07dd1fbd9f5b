import Mathlib.Data.List.Find
import TrustAlloc.EdgeStoreRuns
import TrustAlloc.PeerReferences

/-!
# What peers have reported

Through all pointers, the peer store is a table: what a peer has reported of
an edge, and of a capability of an edge. Each update writes one place of this
table and leaves all others alone. Neither kind of update runs out of memory
as long as no reference of the peer store dangles, since the pools have room
for a record of every edge and a report of every capability for each peer.
-/

namespace TrustAlloc.PeerViews

open EdgeInfo PeerInfo PeerReferences Pools

variable {np ne nc : ℕ} {ET CT PT : Type}

/-- What a peer has reported of an edge. -/
def edgeView (p : PeerStore np ne nc ET CT PT) (i : Fin np) (e : Fin ne) : Option ET :=
  (peerInfoFindEdge p i e).map fun j => (p.peerEdge j).tm

/-- What a peer has reported of a capability of an edge. -/
def capView (p : PeerStore np ne nc ET CT PT) (i : Fin np) (e : Fin ne) (c : Fin (ne*nc)) :
    Option CT :=
  (peerInfoFindEdge p i e).bind fun j =>
    (peerInfoFindCapability p j c).map fun r => (p.peerCap r).tm

/-- A peer has reported the same of an edge and of all its capabilities. -/
structure SameView (p p' : PeerStore np ne nc ET CT PT) (i : Fin np) (e : Fin ne) : Prop where
  /-- Of the edge. -/
  edge : edgeView p' i e=edgeView p i e
  /-- Of each capability. -/
  cap : ∀ c, capView p' i e c=capView p i e c

/-- One after the other. -/
theorem SameView.trans {p p' p'' : PeerStore np ne nc ET CT PT} {i : Fin np} {e : Fin ne}
    (h : SameView p p' i e) (h' : SameView p' p'' i e) : SameView p p'' i e :=
  ⟨h'.edge.trans h.edge,fun c => (h'.cap c).trans (h.cap c)⟩

/-- Nothing but what one peer has reported of one edge is different. -/
structure OthersSame (p p' : PeerStore np ne nc ET CT PT) (i : Fin np) (e : Fin ne) : Prop where
  /-- There are the same peers. -/
  peers : p'.peers=p.peers
  /-- Other peers are as before. -/
  peer : ∀ i', i'≠i → p'.peer i'=p.peer i'
  /-- The address of the peer. -/
  addr : (p'.peer i).addr=(p.peer i).addr
  /-- When it was last seen. -/
  lastSeen : (p'.peer i).lastSeen=(p.peer i).lastSeen
  /-- What other peers have reported, and this one of other edges. -/
  view : ∀ i'∈p.peers, ∀ e', i'≠i ∨ e'≠e → SameView p p' i' e'

/-- Nothing has changed. -/
theorem OthersSame.refl (p : PeerStore np ne nc ET CT PT) (i : Fin np) (e : Fin ne) :
    OthersSame p p i e :=
  ⟨rfl,fun _ _ => rfl,rfl,rfl,fun _ _ _ _ => ⟨rfl,fun _ => rfl⟩⟩

/-- One after the other. -/
theorem OthersSame.trans {p p' p'' : PeerStore np ne nc ET CT PT} {i : Fin np} {e : Fin ne}
    (h : OthersSame p p' i e) (h' : OthersSame p' p'' i e) : OthersSame p p'' i e :=
  ⟨h'.peers.trans h.peers,fun i' hi => (h'.peer i' hi).trans (h.peer i' hi),
    h'.addr.trans h.addr,h'.lastSeen.trans h.lastSeen,fun i' hi e' hne =>
      (h.view i' hi e' hne).trans (h'.view i' (h.peers ▸ hi) e' hne)⟩

section Lookup

variable {p p' : PeerStore np ne nc ET CT PT} {i i' : Fin np} {e e' : Fin ne} {j j' : Fin (np*ne)}

/-- A record that is found belongs to the peer and is about the edge. -/
theorem findEdge_some (h : peerInfoFindEdge p i e=some j) :
    j∈(p.peer i).edges ∧ (p.peerEdge j).edge=e :=
  ⟨List.mem_of_find?_eq_some h,by simpa using List.find?_some h⟩

/-- A report that is found belongs to the record and is about the capability. -/
theorem findCapability_some {c : Fin (ne*nc)} {r : Fin (np*ne*nc)}
    (h : peerInfoFindCapability p j c=some r) :
    r∈(p.peerEdge j).capabilities ∧ (p.peerCap r).cap=c :=
  ⟨List.mem_of_find?_eq_some h,by simpa using List.find?_some h⟩

/-- No record is found exactly when none is about the edge. -/
theorem findEdge_none_iff :
    peerInfoFindEdge p i e=none ↔ ∀ j∈(p.peer i).edges, (p.peerEdge j).edge≠e := by
  simp [peerInfoFindEdge]

/-- No report is found exactly when none is about the capability. -/
theorem findCapability_none_iff {c : Fin (ne*nc)} :
    peerInfoFindCapability p j c=none ↔
      ∀ r∈(p.peerEdge j).capabilities, (p.peerCap r).cap≠c := by
  simp [peerInfoFindCapability]

/-- The same records about the same edges are found. -/
theorem findEdge_congr (hedges : (p'.peer i).edges=(p.peer i).edges)
    (habout : ∀ j∈(p.peer i).edges, (p'.peerEdge j).edge=(p.peerEdge j).edge) (e : Fin ne) :
    peerInfoFindEdge p' i e=peerInfoFindEdge p i e := by
  unfold peerInfoFindEdge
  rw [hedges]
  exact List.find?_congr fun j hj => by rw [habout j hj]

/-- The same reports about the same capabilities are found. -/
theorem findCapability_congr (hcaps : (p'.peerEdge j).capabilities=(p.peerEdge j).capabilities)
    (habout : ∀ r∈(p.peerEdge j).capabilities, (p'.peerCap r).cap=(p.peerCap r).cap)
    (c : Fin (ne*nc)) : peerInfoFindCapability p' j c=peerInfoFindCapability p j c := by
  unfold peerInfoFindCapability
  rw [hcaps]
  exact List.find?_congr fun r hr => by rw [habout r hr]

/-- When the same record is found, and nothing in it has changed, the same has
been reported. -/
theorem SameView.of_find (hfind : peerInfoFindEdge p' i e=peerInfoFindEdge p i e)
    (hrecord : ∀ j, peerInfoFindEdge p i e=some j → p'.peerEdge j=p.peerEdge j ∧
      ∀ r∈(p.peerEdge j).capabilities, p'.peerCap r=p.peerCap r) : SameView p p' i e := by
  cases hj : peerInfoFindEdge p i e with
  | none =>
    rw [hj] at hfind
    constructor
    · rw [edgeView,edgeView,hfind,hj]
      rfl
    · intro c
      rw [capView,capView,hfind,hj]
      rfl
  | some j =>
    obtain ⟨hsame,hreports⟩ := hrecord j hj
    rw [hj] at hfind
    constructor
    · rw [edgeView,edgeView,hfind,hj,Option.map_some,Option.map_some,hsame]
    · intro c
      have hcap : peerInfoFindCapability p' j c=peerInfoFindCapability p j c :=
        findCapability_congr (by rw [hsame]) (fun r hr => by rw [hreports r hr]) c
      rw [capView,capView,hfind,hj,Option.bind_some,Option.bind_some,hcap]
      cases hr : peerInfoFindCapability p j c with
      | none => rfl
      | some r => rw [Option.map_some,Option.map_some,hreports r (findCapability_some hr).1]

end Lookup

section Places

variable {p : PeerStore np ne nc ET CT PT} {i i' : Fin np} {e e' : Fin ne} {j j' : Fin (np*ne)}

/-- A record belongs to one peer only. -/
theorem record_owner (h : PeersWellFormed p) (hi : i∈p.peers) (hi' : i'∈p.peers)
    (hj : j∈(p.peer i).edges) (hj' : j∈(p.peer i').edges) : i=i' :=
  eq_of_mem_segments h.ownsRecords.nodup hi hi' hj hj'

/-- A report belongs to one record only. -/
theorem report_owner (h : PeersWellFormed p) {r : Fin (np*ne*nc)} (hj : j∈p.records)
    (hj' : j'∈p.records) (hr : r∈(p.peerEdge j).capabilities)
    (hr' : r∈(p.peerEdge j').capabilities) : j=j' :=
  eq_of_mem_segments h.ownsReports.nodup hj hj' hr hr'

/-- A record that is found for a listed peer is a record of the store. -/
theorem mem_records_of_find (hi : i∈p.peers) (h : peerInfoFindEdge p i e=some j) :
    j∈p.records := List.mem_flatMap.mpr ⟨i,hi,(findEdge_some h).1⟩

/-- Different records are found for different peers and edges. -/
theorem find_ne (hp : PeersWellFormed p) (hi : i∈p.peers) (hi' : i'∈p.peers)
    (hne : i'≠i ∨ e'≠e) (hj : peerInfoFindEdge p i e=some j)
    (hj' : peerInfoFindEdge p i' e'=some j') : j'≠j := by
  rintro rfl
  obtain ⟨hmem,habout⟩ := findEdge_some hj
  obtain ⟨hmem',habout'⟩ := findEdge_some hj'
  rcases hne with h | h
  · exact h (record_owner hp hi' hi hmem' hmem)
  · exact h (habout'.symm.trans habout)

/-- A new record is found for its peer and edge and leaves everything else alone. -/
theorem othersSame_placeRecord (hp : PeersWellFormed p) (hi : i∈p.peers)
    (hj : p.peerEdgesMemb.used j=false) (about : IpAddr) :
    OthersSame p (p.placeRecord i j e about) i e ∧
      peerInfoFindEdge (p.placeRecord i j e about) i e=some j := by
  have hnot : ∀ i'∈p.peers, j∉(p.peer i').edges := fun i' hi' hmem =>
    hp.ownsRecords.not_mem hj (List.mem_flatMap.mpr ⟨i',hi',hmem⟩)
  have hown : (p.placeRecord i j e about).peer i=
      {p.peer i with edges := j::(p.peer i).edges} := by
    rw [←listPush_of_not_mem (hnot i hi)]
    exact p.peersMemb.set_mem_same i _
  have hother : ∀ i', i'≠i → (p.placeRecord i j e about).peer i'=p.peer i' :=
    fun i' hne => p.peersMemb.set_mem_other _ hne
  have hold : ∀ i'∈p.peers, ∀ j'∈(p.peer i').edges,
      (p.placeRecord i j e about).peerEdge j'=p.peerEdge j' := fun i' hi' j' hj' =>
    placeRecord_other i (fun hc : j'=j => hnot i' hi' (hc ▸ hj')) e about
  have hnew := placeRecord_same (p:=p) i j e about
  refine ⟨⟨rfl,hother,by rw [hown],by rw [hown],fun i' hi' e' hne => ?_⟩,?_⟩
  · refine SameView.of_find ?_ fun j' hj' =>
      ⟨hold i' hi' j' (findEdge_some hj').1,fun _ _ => rfl⟩
    by_cases h : i'=i
    · subst h
      have hee : e≠e' := fun hc => (hne.resolve_left fun h => h rfl) hc.symm
      have hskip : decide (((p.placeRecord i' j e about).peerEdge j).edge=e')=false := by
        rw [hnew]
        exact decide_eq_false hee
      unfold peerInfoFindEdge
      rw [hown]
      dsimp only
      rw [List.find?_cons,hskip]
      exact List.find?_congr fun j' hj' => by rw [hold i' hi j' hj']
    · exact findEdge_congr (by rw [hother i' h]) (fun j' hj' => by rw [hold i' hi' j' hj']) e'
  · unfold peerInfoFindEdge
    rw [hown]
    dsimp only
    rw [List.find?_cons,hnew]
    simp

/-- Rewriting a record that is found leaves everything else alone. -/
theorem othersSame_writeRecord (hp : PeersWellFormed p) (hi : i∈p.peers)
    (hj : peerInfoFindEdge p i e=some j) (tm : ET) (about : IpAddr) :
    OthersSame p (p.writeRecord j tm about) i e ∧
      edgeView (p.writeRecord j tm about) i e=some tm ∧
      ∀ c, capView (p.writeRecord j tm about) i e c=capView p i e c := by
  have hsame := writeRecord_same (p:=p) j tm about
  have habout : ∀ j', ((p.writeRecord j tm about).peerEdge j').edge=(p.peerEdge j').edge := by
    intro j'
    by_cases h : j'=j
    · rw [h,hsame]
    · rw [writeRecord_other h]
  have hfind : ∀ i' e', peerInfoFindEdge (p.writeRecord j tm about) i' e'=
      peerInfoFindEdge p i' e' := by
    intro i' e'
    refine findEdge_congr ?_ (fun j' _ => habout j') e'
    rfl
  refine ⟨⟨rfl,fun _ _ => rfl,rfl,rfl,fun i' hi' e' hne => ?_⟩,?_,fun c => ?_⟩
  · refine SameView.of_find (hfind i' e') fun j' hj' => ⟨?_,fun _ _ => rfl⟩
    exact writeRecord_other (find_ne hp hi hi' hne hj hj') tm about
  · rw [edgeView,hfind,hj,Option.map_some,hsame]
  · have hcap : peerInfoFindCapability (p.writeRecord j tm about) j c=
        peerInfoFindCapability p j c := by
      refine findCapability_congr ?_ (fun _ _ => ?_) c
      · rw [hsame]
      · rfl
    rw [capView,capView,hfind,hj,Option.bind_some,Option.bind_some,hcap]
    rfl

/-- A new report in a record that is found is found for its capability and
leaves everything else alone. -/
theorem othersSame_placeReport (hp : PeersWellFormed p) (hi : i∈p.peers)
    (hj : peerInfoFindEdge p i e=some j) {r : Fin (np*ne*nc)}
    (hr : p.peerCapabilitiesMemb.used r=false) (c : Fin (ne*nc)) (about : List UInt8) :
    OthersSame p (p.placeReport j r c about) i e ∧
      peerInfoFindEdge (p.placeReport j r c about) i e=some j ∧
      peerInfoFindCapability (p.placeReport j r c about) j c=some r ∧
      edgeView (p.placeReport j r c about) i e=edgeView p i e ∧
      ∀ c', c'≠c → capView (p.placeReport j r c about) i e c'=capView p i e c' := by
  have hjrec := mem_records_of_find hi hj
  have hsame := placeReport_same hp hjrec hr c about
  have hother : ∀ j', j'≠j → (p.placeReport j r c about).peerEdge j'=p.peerEdge j' :=
    fun j' hne => placeReport_other hne r c about
  have hnew : (p.placeReport j r c about).peerCap r=⟨c,(p.peerCap r).tm,about⟩ :=
    (p.peerCapabilitiesMemb.take r).set_mem_same r _
  have hold : ∀ j'∈p.records, ∀ r'∈(p.peerEdge j').capabilities,
      (p.placeReport j r c about).peerCap r'=p.peerCap r' := fun j' hj' r' hr' =>
    (p.peerCapabilitiesMemb.take r).set_mem_other _
      (hp.ownsReports.ne_of_mem (List.mem_flatMap.mpr ⟨j',hj',hr'⟩) hr)
  have habout : ∀ j', ((p.placeReport j r c about).peerEdge j').edge=(p.peerEdge j').edge := by
    intro j'
    by_cases h : j'=j
    · rw [h,hsame]
    · rw [hother j' h]
  have hfind : ∀ i' e', peerInfoFindEdge (p.placeReport j r c about) i' e'=
      peerInfoFindEdge p i' e' := by
    intro i' e'
    refine findEdge_congr ?_ (fun j' _ => habout j') e'
    rfl
  refine ⟨⟨rfl,fun _ _ => rfl,rfl,rfl,fun i' hi' e' hne => ?_⟩,(hfind i e).trans hj,?_,?_,
    fun c' hc' => ?_⟩
  · refine SameView.of_find (hfind i' e') fun j' hj' => ⟨?_,hold j' (mem_records_of_find hi' hj')⟩
    exact hother j' (find_ne hp hi hi' hne hj hj')
  · unfold peerInfoFindCapability
    rw [hsame]
    dsimp only
    rw [List.find?_cons,hnew]
    simp
  · rw [edgeView,edgeView,hfind,hj,Option.map_some,Option.map_some,hsame]
  · have hskip : decide (((p.placeReport j r c about).peerCap r).cap=c')=false := by
      rw [hnew]
      exact decide_eq_false hc'.symm
    have hcap : peerInfoFindCapability (p.placeReport j r c about) j c'=
        peerInfoFindCapability p j c' := by
      unfold peerInfoFindCapability
      rw [hsame]
      dsimp only
      rw [List.find?_cons,hskip]
      exact List.find?_congr fun r' hr' => by rw [hold j hjrec r' hr']
    rw [capView,capView,hfind,hj,Option.bind_some,Option.bind_some,hcap]
    cases hr' : peerInfoFindCapability p j c' with
    | none => rfl
    | some r' =>
      rw [Option.map_some,Option.map_some,hold j hjrec r' (findCapability_some hr').1]

/-- Rewriting a report that is found leaves everything else alone. -/
theorem othersSame_writeReport (hp : PeersWellFormed p) (hi : i∈p.peers)
    (hj : peerInfoFindEdge p i e=some j) {c : Fin (ne*nc)} {r : Fin (np*ne*nc)}
    (hr : peerInfoFindCapability p j c=some r) (tm : CT) (about : List UInt8) :
    OthersSame p (p.writeReport r tm about) i e ∧
      edgeView (p.writeReport r tm about) i e=edgeView p i e ∧
      capView (p.writeReport r tm about) i e c=some tm ∧
      ∀ c', c'≠c → capView (p.writeReport r tm about) i e c'=capView p i e c' := by
  have hjrec := mem_records_of_find hi hj
  obtain ⟨hrmem,hrcap⟩ := findCapability_some hr
  have hsame : (p.writeReport r tm about).peerCap r={p.peerCap r with tm := tm,about := about} :=
    p.peerCapabilitiesMemb.set_mem_same r _
  have hother : ∀ r', r'≠r → (p.writeReport r tm about).peerCap r'=p.peerCap r' :=
    fun r' hne => p.peerCapabilitiesMemb.set_mem_other _ hne
  have habout : ∀ r', ((p.writeReport r tm about).peerCap r').cap=(p.peerCap r').cap := by
    intro r'
    by_cases h : r'=r
    · rw [h,hsame]
    · rw [hother r' h]
  have hcap : ∀ c', peerInfoFindCapability (p.writeReport r tm about) j c'=
      peerInfoFindCapability p j c' := by
    intro c'
    refine findCapability_congr ?_ (fun r' _ => habout r') c'
    rfl
  have hfind : ∀ i' e', peerInfoFindEdge (p.writeReport r tm about) i' e'=
      peerInfoFindEdge p i' e' := fun _ _ => rfl
  refine ⟨⟨rfl,fun _ _ => rfl,rfl,rfl,fun i' hi' e' hne => ?_⟩,rfl,?_,fun c' hc' => ?_⟩
  · refine SameView.of_find rfl fun j' hj' => ⟨rfl,fun r' hr' => hother r' ?_⟩
    rintro rfl
    exact find_ne hp hi hi' hne hj hj'
      (report_owner hp (mem_records_of_find hi' hj') hjrec hr' hrmem)
  · rw [capView,hfind,hj,Option.bind_some,hcap,hr,Option.map_some,hsame]
  · rw [capView,capView,hfind,hj,Option.bind_some,Option.bind_some,hcap]
    cases hr' : peerInfoFindCapability p j c' with
    | none => rfl
    | some r' =>
      have hne : r'≠r := fun hc => hc' (((findCapability_some hr').2.symm.trans
        (by rw [hc])).trans hrcap)
      rw [Option.map_some,Option.map_some,hother r' hne]

end Places

/-- The records of a peer are about different edges, and the reports of a
record about different capabilities. -/
structure PeersDistinct (p : PeerStore np ne nc ET CT PT) : Prop where
  /-- Edges that a peer has records about. -/
  edges : ∀ i∈p.peers, ((p.peer i).edges.map fun j => (p.peerEdge j).edge).Nodup
  /-- Capabilities that a record has reports about. -/
  caps : ∀ j∈p.records, ((p.peerEdge j).capabilities.map fun r => (p.peerCap r).cap).Nodup

section Distinct

variable {p : PeerStore np ne nc ET CT PT} {i : Fin np} {e : Fin ne} {j : Fin (np*ne)}

/-- A new peer has no records. -/
theorem PeersDistinct.peerAdd (h : PeersDistinct p) (hp : PeersWellFormed p)
    (penv : PeerEnv np ne nc PT) (addr : IpAddr) : PeersDistinct (peerInfoAdd penv p addr).1 := by
  rcases peerInfoAdd_cases penv p addr with ha | ⟨i,hi,ha⟩
  · rw [ha]
    exact h
  · rw [ha]
    obtain ⟨hlist,hrec⟩ := records_placePeer hp penv hi addr
    refine ⟨fun i' hi' => ?_,fun j hj => h.caps j (hrec ▸ hj)⟩
    rw [hlist,List.mem_cons] at hi'
    by_cases hne : i'=i
    · subst hne
      have hnew : ((p.placePeer penv i' addr).peer i').edges=[] :=
        congrArg Peer.edges ((p.peersMemb.take i').set_mem_same i' _)
      rw [hnew]
      exact List.nodup_nil
    · have hold : (p.placePeer penv i addr).peer i'=p.peer i' :=
        (p.peersMemb.take i).set_mem_other _ hne
      rw [hold]
      exact h.edges i' (hi'.resolve_left hne)

/-- A new record is about an edge that the peer had no record about. -/
theorem PeersDistinct.placeRecord (h : PeersDistinct p) (hp : PeersWellFormed p) (hi : i∈p.peers)
    (hj : p.peerEdgesMemb.used j=false) (hnone : peerInfoFindEdge p i e=none) (about : IpAddr) :
    PeersDistinct (p.placeRecord i j e about) := by
  have hnot : ∀ i'∈p.peers, ∀ j'∈(p.peer i').edges, j'≠j := fun i' hi' j' hj' =>
    hp.ownsRecords.ne_of_mem (List.mem_flatMap.mpr ⟨i',hi',hj'⟩) hj
  have hsame := placeRecord_same (p:=p) i j e about
  have habout : ∀ i'∈p.peers, ((p.peer i').edges.map fun j' =>
      ((p.placeRecord i j e about).peerEdge j').edge)=
      (p.peer i').edges.map fun j' => (p.peerEdge j').edge := fun i' hi' =>
    List.map_congr_left fun j' hj' => by rw [placeRecord_other i (hnot i' hi' j' hj')]
  constructor
  · intro i' hi'
    by_cases hne : i'=i
    · subst hne
      have hmem : j∉(p.peer i').edges := fun hm => hnot i' hi' j hm rfl
      have hown : ((p.placeRecord i' j e about).peer i').edges=j::(p.peer i').edges :=
        (congrArg Peer.edges (p.peersMemb.set_mem_same i' _)).trans (listPush_of_not_mem hmem)
      rw [hown,List.map_cons,habout i' hi',hsame,List.nodup_cons]
      refine ⟨fun hmem => ?_,h.edges i' hi'⟩
      obtain ⟨j',hj',hedge⟩ := List.mem_map.mp hmem
      exact findEdge_none_iff.mp hnone j' hj' hedge
    · have hold : (p.placeRecord i j e about).peer i'=p.peer i' :=
        p.peersMemb.set_mem_other _ hne
      rw [hold,habout i' hi']
      exact h.edges i' hi'
  · intro j' hj'
    rw [(records_placeRecord hp hi hj e about).mem_iff] at hj'
    rcases List.mem_cons.mp hj' with rfl | hold
    · rw [hsame]
      exact List.nodup_nil
    · rw [placeRecord_other i (hp.ownsRecords.ne_of_mem hold hj)]
      exact h.caps j' hold

/-- Rewriting a record leaves what records are about. -/
theorem PeersDistinct.writeRecord (h : PeersDistinct p) (j : Fin (np*ne)) (tm : ET)
    (about : IpAddr) : PeersDistinct (p.writeRecord j tm about) := by
  have hkept : ∀ j', ((p.writeRecord j tm about).peerEdge j').edge=(p.peerEdge j').edge ∧
      ((p.writeRecord j tm about).peerEdge j').capabilities=(p.peerEdge j').capabilities := by
    intro j'
    by_cases hne : j'=j
    · rw [hne,writeRecord_same]
      exact ⟨rfl,rfl⟩
    · rw [writeRecord_other hne]
      exact ⟨rfl,rfl⟩
  constructor
  · intro i hi
    have hmap := List.map_congr_left (l:=(p.peer i).edges) fun j' _ => (hkept j').1
    exact hmap ▸ h.edges i hi
  · intro j' hj'
    rw [(hkept j').2]
    exact h.caps j' hj'

/-- A new report is about a capability that the record had no report about. -/
theorem PeersDistinct.placeReport (h : PeersDistinct p) (hp : PeersWellFormed p)
    (hj : j∈p.records) {r : Fin (np*ne*nc)} (hr : p.peerCapabilitiesMemb.used r=false)
    {c : Fin (ne*nc)} (hnone : peerInfoFindCapability p j c=none) (about : List UInt8) :
    PeersDistinct (p.placeReport j r c about) := by
  have hsame := placeReport_same hp hj hr c about
  have hkept : ∀ j', ((p.placeReport j r c about).peerEdge j').edge=(p.peerEdge j').edge := by
    intro j'
    by_cases hne : j'=j
    · rw [hne,hsame]
    · rw [placeReport_other hne]
  have habout : ∀ j'∈p.records, ((p.peerEdge j').capabilities.map fun r' =>
      ((p.placeReport j r c about).peerCap r').cap)=
      (p.peerEdge j').capabilities.map fun r' => (p.peerCap r').cap := fun j' hj' =>
    List.map_congr_left fun r' hr' => congrArg PeerEdgeCapability.cap
      ((p.peerCapabilitiesMemb.take r).set_mem_other _
        (hp.ownsReports.ne_of_mem (List.mem_flatMap.mpr ⟨j',hj',hr'⟩) hr))
  constructor
  · intro i hi
    have hmap := List.map_congr_left (l:=(p.peer i).edges) fun j' _ => hkept j'
    exact hmap ▸ h.edges i hi
  · intro j' hj'
    by_cases hne : j'=j
    · subst hne
      have hnew : ((p.placeReport j' r c about).peerCap r).cap=c :=
        congrArg PeerEdgeCapability.cap ((p.peerCapabilitiesMemb.take r).set_mem_same r _)
      rw [hsame]
      dsimp only
      rw [List.map_cons,habout j' hj,hnew,List.nodup_cons]
      refine ⟨fun hmem => ?_,h.caps j' hj⟩
      obtain ⟨r',hr',hcap⟩ := List.mem_map.mp hmem
      exact findCapability_none_iff.mp hnone r' hr' hcap
    · rw [placeReport_other hne,habout j' hj']
      exact h.caps j' hj'

/-- Rewriting a report leaves what reports are about. -/
theorem PeersDistinct.writeReport (h : PeersDistinct p) (r : Fin (np*ne*nc)) (tm : CT)
    (about : List UInt8) : PeersDistinct (p.writeReport r tm about) := by
  have hkept : ∀ r', ((p.writeReport r tm about).peerCap r').cap=(p.peerCap r').cap := by
    intro r'
    by_cases hne : r'=r
    · subst hne
      have hsame : (p.writeReport r' tm about).peerCap r'=
          {p.peerCap r' with tm := tm,about := about} := p.peerCapabilitiesMemb.set_mem_same r' _
      rw [hsame]
    · exact congrArg PeerEdgeCapability.cap (p.peerCapabilitiesMemb.set_mem_other _ hne)
  refine ⟨h.edges,fun j hj => ?_⟩
  have hmap := List.map_congr_left (l:=(p.peerEdge j).capabilities) fun r' _ => hkept r'
  exact hmap ▸ h.caps j hj

/-- A lookup or allocation of a record keeps records distinct. -/
theorem PeersDistinct.findEdgeOrAllocate (h : PeersDistinct p) (hp : PeersWellFormed p)
    (penv : PeerEnv np ne nc PT) (hi : i∈p.peers) (about : IpAddr)
    {result : PeerStore np ne nc ET CT PT×Option (Fin (np*ne))}
    (hr : peerInfoFindEdgeOrAllocate penv p i e about=result) : PeersDistinct result.1 := by
  subst hr
  rcases findEdgeOrAllocate_cases penv p i e about with ⟨j,_,_,ha⟩ | ha | ⟨j,hnone,hj,ha⟩
  · rw [ha]
    exact h
  · rw [ha]
    exact h
  · rw [ha]
    exact h.placeRecord hp hi hj hnone about

/-- `peer_info_update_edge` keeps records distinct. -/
theorem PeersDistinct.updateEdge (h : PeersDistinct p) (hp : PeersWellFormed p)
    (penv : PeerEnv np ne nc PT) (hi : i∈p.peers) (e : Fin ne) (tm : ET) (about : IpAddr) :
    PeersDistinct (peerInfoUpdateEdge penv p i e tm about).1 := by
  unfold peerInfoUpdateEdge
  split
  · next p' j hr => exact (h.findEdgeOrAllocate hp penv hi about hr).writeRecord j tm about
  · next p' hr => exact h.findEdgeOrAllocate hp penv hi about hr

/-- `peer_info_update_capability` keeps records and reports distinct. -/
theorem PeersDistinct.updateCapability (h : PeersDistinct p) (hp : PeersWellFormed p)
    (penv : PeerEnv np ne nc PT) (hi : i∈p.peers) (e : Fin ne) (c : Fin (ne*nc)) (tm : CT)
    (about : IpAddr) (name : List UInt8) :
    PeersDistinct (peerInfoUpdateCapability penv p i e c tm about name).1 := by
  unfold peerInfoUpdateCapability
  split
  · next p' j hr =>
    have h' := h.findEdgeOrAllocate hp penv hi about hr
    obtain ⟨hp',hj⟩ := hp.findEdgeOrAllocate penv hi e about hr
    rcases findCapabilityOrAllocate_cases penv p' j c name with
      ⟨r,_,_,ha⟩ | ha | ⟨r,hnone,hfree,ha⟩
    · rw [ha]
      exact h'.writeReport r tm name
    · rw [ha]
      exact h'
    · rw [ha]
      exact (h'.placeReport hp' (hj j rfl).1 hfree hnone name).writeReport r tm name
  · next p' hr => exact h.findEdgeOrAllocate hp penv hi about hr

end Distinct

/-- Both stores are well formed and no reference dangles. -/
structure Sound (s : EdgeStore ne nc ET CT) (p : PeerStore np ne nc ET CT PT) : Prop where
  /-- The invariant of the edge store. -/
  edges : WellFormed s
  /-- The invariant of the peer store. -/
  peers : PeersWellFormed p
  /-- Records and reports are about different things. -/
  distinct : PeersDistinct p
  /-- The references of the peer store. -/
  references : NoDangling s p

section Room

variable {s : EdgeStore ne nc ET CT} {p : PeerStore np ne nc ET CT PT} {i : Fin np} {e : Fin ne}
  {j : Fin (np*ne)}

/-- A peer has at most one record for each edge. -/
theorem length_edges_le (h : PeersDistinct p) (hi : i∈p.peers) : (p.peer i).edges.length ≤ ne := by
  simpa using (h.edges i hi).length_le_card

/-- An edge that a peer has no record about leaves room for one. -/
theorem length_edges_lt (h : PeersDistinct p) (hi : i∈p.peers)
    (hnone : peerInfoFindEdge p i e=none) : (p.peer i).edges.length < ne := by
  have hnew : (e::(p.peer i).edges.map fun j => (p.peerEdge j).edge).Nodup := by
    refine List.nodup_cons.mpr ⟨fun hmem => ?_,h.edges i hi⟩
    obtain ⟨j,hj,hedge⟩ := List.mem_map.mp hmem
    exact findEdge_none_iff.mp hnone j hj hedge
  have hlen := hnew.length_le_card
  rw [List.length_cons,List.length_map,Fintype.card_fin] at hlen
  exact hlen

/-- There is a free block for the record. -/
theorem exists_free_record (hp : PeersWellFormed p) (h : PeersDistinct p) (hi : i∈p.peers)
    (hnone : peerInfoFindEdge p i e=none) : ∃ j, p.peerEdgesMemb.used j=false :=
  hp.ownsRecords.exists_free hp.ownsPeers.nodup (fun _ hi' => length_edges_le h hi') hi
    (length_edges_lt h hi hnone)

/-- The peer store, whatever its records refer to. -/
structure Shares (p : PeerStore np ne nc ET CT PT) : Prop where
  /-- The invariant of the peer store. -/
  peers : PeersWellFormed p
  /-- Records and reports are about different things. -/
  distinct : PeersDistinct p
  /-- No record exceeds its share of reports. -/
  bounded : ∀ j∈p.records, (p.peerEdge j).capabilities.length ≤ nc

/-- A record that has not used up its share leaves a block free for a report. -/
theorem Shares.exists_free_report (h : Shares p) (hj : j∈p.records)
    (hlt : (p.peerEdge j).capabilities.length < nc) :
    ∃ r, p.peerCapabilitiesMemb.used r=false :=
  h.peers.ownsReports.exists_free h.peers.ownsRecords.nodup h.bounded hj hlt

/-- A record has at most as many reports as an edge has capabilities. -/
theorem Sound.length_caps_le (h : Sound s p) (hj : j∈p.records) :
    (p.peerEdge j).capabilities.length ≤ nc := by
  obtain ⟨hlisted,_,hcaps⟩ := h.references j hj
  have hsub : ((p.peerEdge j).capabilities.map fun r => (p.peerCap r).cap)⊆
      (s.edge (p.peerEdge j).edge).capabilities := fun c hc => by
    obtain ⟨r,hr,rfl⟩ := List.mem_map.mp hc
    exact (hcaps r hr).1
  have hlen := ((h.distinct.caps j hj).subperm hsub).length_le
  rw [List.length_map] at hlen
  exact hlen.trans (h.edges.bounded _ hlisted)

/-- A capability of its edge that a record has no report about leaves room for one. -/
theorem Sound.length_caps_lt (h : Sound s p) (hj : j∈p.records) {c : Fin (ne*nc)}
    (hc : c∈(s.edge (p.peerEdge j).edge).capabilities)
    (hnone : peerInfoFindCapability p j c=none) : (p.peerEdge j).capabilities.length < nc := by
  obtain ⟨hlisted,_,hcaps⟩ := h.references j hj
  have hnew : (c::(p.peerEdge j).capabilities.map fun r => (p.peerCap r).cap).Nodup := by
    refine List.nodup_cons.mpr ⟨fun hmem => ?_,h.distinct.caps j hj⟩
    obtain ⟨r,hr,hcap⟩ := List.mem_map.mp hmem
    exact findCapability_none_iff.mp hnone r hr hcap
  have hsub : (c::(p.peerEdge j).capabilities.map fun r => (p.peerCap r).cap)⊆
      (s.edge (p.peerEdge j).edge).capabilities := fun c' hc' => by
    rcases List.mem_cons.mp hc' with rfl | hold
    · exact hc
    · obtain ⟨r,hr,rfl⟩ := List.mem_map.mp hold
      exact (hcaps r hr).1
  have hlen := (hnew.subperm hsub).length_le
  rw [List.length_cons,List.length_map] at hlen
  exact lt_of_lt_of_le hlen (h.edges.bounded _ hlisted)

/-- No record exceeds its share. -/
theorem Sound.shares (h : Sound s p) : Shares p :=
  ⟨h.peers,h.distinct,fun _ hj => h.length_caps_le hj⟩

end Room

section Updates

variable {s : EdgeStore ne nc ET CT} {p : PeerStore np ne nc ET CT PT} {i : Fin np} {e : Fin ne}
  {j : Fin (np*ne)}

/-- A record that is there is found again. -/
theorem findEdgeOrAllocate_of_find (penv : PeerEnv np ne nc PT) (hj : peerInfoFindEdge p i e=some j)
    (about : IpAddr) : peerInfoFindEdgeOrAllocate penv p i e about=(p,some j) := by
  rw [peerInfoFindEdgeOrAllocate,hj]

/-- A report that is there is found again. -/
theorem findCapabilityOrAllocate_of_find (penv : PeerEnv np ne nc PT) {c : Fin (ne*nc)}
    {r : Fin (np*ne*nc)} (hr : peerInfoFindCapability p j c=some r) (about : List UInt8) :
    peerInfoFindCapabilityOrAllocate penv p j c about=(p,some r) := by
  rw [peerInfoFindCapabilityOrAllocate,hr]

/-- There always is a record about an edge, or it is made, and then it is empty. -/
theorem Shares.findEdgeOrAllocate (h : Shares p) (penv : PeerEnv np ne nc PT) (hi : i∈p.peers)
    (e : Fin ne) (about : IpAddr) :
    ∃ p' j, peerInfoFindEdgeOrAllocate penv p i e about=(p',some j) ∧ Shares p' ∧
      peerInfoFindEdge p' i e=some j ∧ OthersSame p p' i e ∧
      (∀ c, capView p' i e c=capView p i e c) ∧
      (p'=p ∨ peerInfoFindEdge p i e=none ∧ (p'.peerEdge j).capabilities=[]) := by
  cases hfind : peerInfoFindEdge p i e with
  | some j =>
    exact ⟨p,j,findEdgeOrAllocate_of_find penv hfind _,h,hfind,.refl p i e,fun _ => rfl,Or.inl rfl⟩
  | none =>
    have hroom := length_edges_lt h.distinct hi hfind
    obtain ⟨j,hpick⟩ := Option.isSome_iff_exists.mp
      ((penv.recordAllocator.pick_isSome _).mpr (exists_free_record h.peers h.distinct hi hfind))
    have hfree := penv.recordAllocator.pick_free hpick
    obtain ⟨hother,hnew⟩ := othersSame_placeRecord (e:=e) h.peers hi hfree about
    have hempty : ((p.placeRecord i j e about).peerEdge j).capabilities=[] := by
      rw [placeRecord_same]
    refine ⟨p.placeRecord i j e about,j,?_,⟨h.peers.placeRecord hi hfree e _,
      h.distinct.placeRecord h.peers hi hfree hfind _,fun j' hj' => ?_⟩,hnew,hother,fun c => ?_,
      Or.inr ⟨rfl,hempty⟩⟩
    · rw [peerInfoFindEdgeOrAllocate,hfind]
      dsimp only
      rw [if_neg (not_le.mpr hroom),hpick]
    · by_cases heq : j'=j
      · rw [heq,hempty]
        exact Nat.zero_le nc
      · rw [placeRecord_other i heq]
        refine h.bounded j' ?_
        rw [(records_placeRecord h.peers hi hfree e _).mem_iff] at hj'
        exact (List.mem_cons.mp hj').resolve_left heq
    · have hnone : peerInfoFindCapability (p.placeRecord i j e about) j c=none := by
        rw [findCapability_none_iff,hempty]
        exact fun _ hr => nomatch hr
      rw [capView,capView,hfind,hnew,Option.bind_some,hnone]
      rfl

/-- There always is a report about a capability, or it is made, when the record
has not used up its share. -/
theorem Shares.findCapabilityOrAllocate (h : Shares p) (penv : PeerEnv np ne nc PT)
    (hi : i∈p.peers) (hj : peerInfoFindEdge p i e=some j) {c : Fin (ne*nc)}
    (hroom : peerInfoFindCapability p j c=none → (p.peerEdge j).capabilities.length < nc)
    (name : List UInt8) :
    ∃ p' r, peerInfoFindCapabilityOrAllocate penv p j c name=(p',some r) ∧ Shares p' ∧
      peerInfoFindEdge p' i e=some j ∧ peerInfoFindCapability p' j c=some r ∧
      OthersSame p p' i e ∧ edgeView p' i e=edgeView p i e ∧
      ∀ c', c'≠c → capView p' i e c'=capView p i e c' := by
  have hjrec := mem_records_of_find hi hj
  cases hfind : peerInfoFindCapability p j c with
  | some r =>
    exact ⟨p,r,findCapabilityOrAllocate_of_find penv hfind _,h,hj,hfind,.refl p i e,rfl,
      fun _ _ => rfl⟩
  | none =>
    have hlt := hroom hfind
    obtain ⟨r,hpick⟩ := Option.isSome_iff_exists.mp
      ((penv.reportAllocator.pick_isSome _).mpr (h.exists_free_report hjrec hlt))
    have hfree := penv.reportAllocator.pick_free hpick
    obtain ⟨hother,hsame,hnew,hedge,hcap⟩ := othersSame_placeReport h.peers hi hj hfree c name
    refine ⟨p.placeReport j r c name,r,?_,⟨h.peers.placeReport hjrec hfree c _,
      h.distinct.placeReport h.peers hjrec hfree hfind _,fun j' hj' => ?_⟩,hsame,hnew,hother,hedge,
      hcap⟩
    · rw [peerInfoFindCapabilityOrAllocate,hfind]
      dsimp only
      rw [if_neg (not_le.mpr hlt),hpick]
    · by_cases heq : j'=j
      · rw [heq,placeReport_same h.peers hjrec hfree]
        exact hlt
      · rw [placeReport_other heq]
        exact h.bounded j' hj'

/-- There always is a record about a listed edge, or it is made. -/
theorem Sound.findEdgeOrAllocate (h : Sound s p) (penv : PeerEnv np ne nc PT) (hi : i∈p.peers)
    (he : e∈s.edgeResources) :
    ∃ p' j, peerInfoFindEdgeOrAllocate penv p i e (s.edge e).ep=(p',some j) ∧ Sound s p' ∧
      peerInfoFindEdge p' i e=some j ∧ OthersSame p p' i e ∧
      ∀ c, capView p' i e c=capView p i e c := by
  obtain ⟨p',j,hresult,hshares,hfind,hother,hcap,_⟩ :=
    h.shares.findEdgeOrAllocate penv hi e (s.edge e).ep
  exact ⟨p',j,hresult,⟨h.edges,hshares.peers,hshares.distinct,
    h.references.findEdgeOrAllocate h.peers penv hi he hresult⟩,hfind,hother,hcap⟩

/-- There always is a report about a capability of the edge, or it is made. -/
theorem Sound.findCapabilityOrAllocate (h : Sound s p) (penv : PeerEnv np ne nc PT)
    (hi : i∈p.peers) (hj : peerInfoFindEdge p i e=some j) {c : Fin (ne*nc)}
    (hc : c∈(s.edge e).capabilities) :
    ∃ p' r, peerInfoFindCapabilityOrAllocate penv p j c (s.cap c).name=(p',some r) ∧ Sound s p' ∧
      peerInfoFindEdge p' i e=some j ∧ peerInfoFindCapability p' j c=some r ∧
      OthersSame p p' i e ∧ edgeView p' i e=edgeView p i e ∧
      ∀ c', c'≠c → capView p' i e c'=capView p i e c' := by
  have hjrec := mem_records_of_find hi hj
  have hmem : c∈(s.edge (p.peerEdge j).edge).capabilities := by
    rw [(findEdge_some hj).2]
    exact hc
  obtain ⟨p',r,hresult,hshares,hfind,hreport,hother,hedge,hcap⟩ :=
    h.shares.findCapabilityOrAllocate penv hi hj (h.length_caps_lt hjrec hmem) (s.cap c).name
  refine ⟨p',r,hresult,⟨h.edges,hshares.peers,hshares.distinct,?_⟩,hfind,hreport,hother,hedge,hcap⟩
  have hP := h.references.findCapabilityOrAllocate h.peers penv hjrec hmem
  rw [hresult] at hP
  exact hP

/-- `peer_info_update_edge` writes what the peer has reported of the edge, and
nothing else. -/
theorem Sound.updateEdge (h : Sound s p) (penv : PeerEnv np ne nc PT) (hi : i∈p.peers)
    (he : e∈s.edgeResources) (tm : ET) {p' : PeerStore np ne nc ET CT PT}
    (hp' : (peerInfoUpdateEdge penv p i e tm (s.edge e).ep).1=p') :
    Sound s p' ∧ OthersSame p p' i e ∧ edgeView p' i e=some tm ∧
      ∀ c, capView p' i e c=capView p i e c := by
  obtain ⟨q,j,hq,hsound,hj,hother,hcap⟩ := h.findEdgeOrAllocate penv hi he
  rw [peerInfoUpdateEdge,hq] at hp'
  subst hp'
  have hiq : i∈q.peers := hother.peers ▸ hi
  obtain ⟨hother',hedge',hcap'⟩ :=
    othersSame_writeRecord hsound.peers hiq hj tm (s.edge e).ep
  exact ⟨⟨h.edges,hsound.peers.writeRecord j tm _,hsound.distinct.writeRecord j tm _,
    hsound.references.writeRecord (findEdge_some hj).2 tm⟩,hother.trans hother',hedge',
    fun c => (hcap' c).trans (hcap c)⟩

/-- `peer_info_update_capability` writes what the peer has reported of the
capability, and nothing else, if there is a record about the edge. -/
theorem Sound.updateCapability (h : Sound s p) (penv : PeerEnv np ne nc PT) (hi : i∈p.peers)
    (hview : edgeView p i e≠none) {c : Fin (ne*nc)} (hc : c∈(s.edge e).capabilities) (tm : CT)
    {p' : PeerStore np ne nc ET CT PT}
    (hp' : (peerInfoUpdateCapability penv p i e c tm (s.edge e).ep (s.cap c).name).1=p') :
    Sound s p' ∧ OthersSame p p' i e ∧ edgeView p' i e=edgeView p i e ∧
      capView p' i e c=some tm ∧ ∀ c', c'≠c → capView p' i e c'=capView p i e c' := by
  obtain ⟨j,hj⟩ : ∃ j, peerInfoFindEdge p i e=some j := by
    cases hfind : peerInfoFindEdge p i e with
    | some j => exact ⟨j,rfl⟩
    | none =>
      rw [edgeView,hfind] at hview
      exact absurd rfl hview
  obtain ⟨q,r,hq,hsound,hjq,hr,hother,hedge,hcap⟩ := h.findCapabilityOrAllocate penv hi hj hc
  rw [peerInfoUpdateCapability,findEdgeOrAllocate_of_find penv hj] at hp'
  dsimp only at hp'
  rw [hq] at hp'
  subst hp'
  have hiq : i∈q.peers := hother.peers ▸ hi
  obtain ⟨hother',hedge',hnew,hcap'⟩ :=
    othersSame_writeReport hsound.peers hiq hjq hr tm (s.cap c).name
  exact ⟨⟨h.edges,hsound.peers.writeReport r tm _,hsound.distinct.writeReport r tm _,
    hsound.references.writeReport (findCapability_some hr).2 tm⟩,hother.trans hother',
    hedge'.trans hedge,hnew,fun c' hc' => (hcap' c' hc').trans (hcap c' hc')⟩

end Updates

section Frames

variable {p : PeerStore np ne nc ET CT PT} {i : Fin np} (penv : PeerEnv np ne nc PT)

/-- Looking a record up or making one leaves everything else alone, also when
there is no room. A record that results is found. -/
theorem othersSame_findEdgeOrAllocate (hp : PeersWellFormed p) (hi : i∈p.peers) (e : Fin ne)
    (about : IpAddr) {r : PeerStore np ne nc ET CT PT×Option (Fin (np*ne))}
    (hr : peerInfoFindEdgeOrAllocate penv p i e about=r) :
    PeersWellFormed r.1 ∧ OthersSame p r.1 i e ∧ ∀ j∈r.2, peerInfoFindEdge r.1 i e=some j := by
  cases hfind : peerInfoFindEdge p i e with
  | some j =>
    rw [findEdgeOrAllocate_of_find penv hfind] at hr
    subst hr
    refine ⟨hp,.refl p i e,fun j' hj' => ?_⟩
    rw [hfind]
    exact hj'
  | none =>
    rcases findEdgeOrAllocate_cases penv p i e about with ⟨j,hj,hje,ha⟩ | ha | ⟨j,_,hfree,ha⟩
    · exact absurd hje (findEdge_none_iff.mp hfind j hj)
    · rw [ha] at hr
      subst hr
      exact ⟨hp,.refl p i e,fun _ hj => nomatch hj⟩
    · rw [ha] at hr
      subst hr
      obtain ⟨hother,hnew⟩ := othersSame_placeRecord (e:=e) hp hi hfree about
      refine ⟨hp.placeRecord hi hfree e about,hother,fun j' hj' => ?_⟩
      cases hj'
      exact hnew

/-- So does looking a report up or making one, in a record that is found. -/
theorem othersSame_findCapabilityOrAllocate (hp : PeersWellFormed p) (hi : i∈p.peers) {e : Fin ne}
    {j : Fin (np*ne)} (hj : peerInfoFindEdge p i e=some j) (c : Fin (ne*nc)) (about : List UInt8)
    {r : PeerStore np ne nc ET CT PT×Option (Fin (np*ne*nc))}
    (hr : peerInfoFindCapabilityOrAllocate penv p j c about=r) :
    PeersWellFormed r.1 ∧ OthersSame p r.1 i e ∧ peerInfoFindEdge r.1 i e=some j ∧
      ∀ k∈r.2, peerInfoFindCapability r.1 j c=some k := by
  cases hfind : peerInfoFindCapability p j c with
  | some k =>
    rw [findCapabilityOrAllocate_of_find penv hfind] at hr
    subst hr
    refine ⟨hp,.refl p i e,hj,fun k' hk' => ?_⟩
    rw [hfind]
    exact hk'
  | none =>
    rcases findCapabilityOrAllocate_cases penv p j c about with
      ⟨k,hk,hkc,ha⟩ | ha | ⟨k,_,hfree,ha⟩
    · exact absurd hkc (findCapability_none_iff.mp hfind k hk)
    · rw [ha] at hr
      subst hr
      exact ⟨hp,.refl p i e,hj,fun _ hk => nomatch hk⟩
    · rw [ha] at hr
      subst hr
      obtain ⟨hother,hsame,hnew,_,_⟩ := othersSame_placeReport hp hi hj hfree c about
      refine ⟨hp.placeReport (mem_records_of_find hi hj) hfree c about,hother,hsame,
        fun k' hk' => ?_⟩
      cases hk'
      exact hnew

/-- `peer_info_update_edge` leaves everything else alone, whether or not it
succeeds and whatever the records refer to. -/
theorem othersSame_updateEdge (hp : PeersWellFormed p) (hi : i∈p.peers) (e : Fin ne) (tm : ET)
    (about : IpAddr) : OthersSame p (peerInfoUpdateEdge penv p i e tm about).1 i e := by
  unfold peerInfoUpdateEdge
  split
  · next p' j hr =>
    obtain ⟨hp',hother,hj⟩ := othersSame_findEdgeOrAllocate penv hp hi e about hr
    have hi' : i∈p'.peers := hother.peers ▸ hi
    exact hother.trans (othersSame_writeRecord hp' hi' (hj j rfl) tm about).1
  · next p' hr => exact (othersSame_findEdgeOrAllocate penv hp hi e about hr).2.1

/-- So does `peer_info_update_capability`. -/
theorem othersSame_updateCapability (hp : PeersWellFormed p) (hi : i∈p.peers) (e : Fin ne)
    (c : Fin (ne*nc)) (tm : CT) (about : IpAddr) (name : List UInt8) :
    OthersSame p (peerInfoUpdateCapability penv p i e c tm about name).1 i e := by
  unfold peerInfoUpdateCapability
  split
  · next p' j hr =>
    obtain ⟨hp',hother,hj⟩ := othersSame_findEdgeOrAllocate penv hp hi e about hr
    have hi' : i∈p'.peers := hother.peers ▸ hi
    split
    · next p'' k hr' =>
      obtain ⟨hp'',hother',hj',hk⟩ :=
        othersSame_findCapabilityOrAllocate penv hp' hi' (hj j rfl) c name hr'
      have hi'' : i∈p''.peers := hother'.peers ▸ hi'
      exact (hother.trans hother').trans
        (othersSame_writeReport hp'' hi'' hj' (hk k rfl) tm name).1
    · next p'' hr' =>
      have hother' := (othersSame_findCapabilityOrAllocate penv hp' hi' (hj j rfl) c name hr').2.1
      exact hother.trans hother'
  · next p' hr => exact (othersSame_findEdgeOrAllocate penv hp hi e about hr).2.1

end Frames

end TrustAlloc.PeerViews
