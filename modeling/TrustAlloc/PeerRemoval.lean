import TrustAlloc.PeerReferences

/-!
# Removing an edge from the peer store

`peer_info_remove_edges` frees the records about an edge, but leaves them on the
lists of their peers. What a call does to a store with such a record is modelled
as far as the call itself goes. What happens to the lists when the freed blocks
are used again is not, as the store is broken by then.
-/

namespace TrustAlloc.PeerRemoval

open EdgeInfo PeerInfo PeerReferences Pools Runs

variable {np ne nc : ℕ} {ET CT PT : Type}

section Source

/-- `peer_edge_free`. -/
def peerEdgeFree (p : PeerStore np ne nc ET CT PT) (j : Fin (np*ne)) :
    PeerStore np ne nc ET CT PT :=
  {p with
    peerCapabilitiesMemb := p.peerCapabilitiesMemb.freeAll (p.peerEdge j).capabilities
    peerEdgesMemb := p.peerEdgesMemb.free j}

/-- What `peer_info_remove_edges` does with the list of one peer. -/
def removeFrom (e : Fin ne) (p : PeerStore np ne nc ET CT PT) (edges : List (Fin (np*ne))) :
    PeerStore np ne nc ET CT PT :=
  edges.foldl (fun p j => if (p.peerEdge j).edge=e then peerEdgeFree p j else p) p

/-- `peer_info_remove_edges`. The lists do not change while they are walked. -/
def peerInfoRemoveEdges (p : PeerStore np ne nc ET CT PT) (e : Fin ne) :
    PeerStore np ne nc ET CT PT :=
  p.peers.foldl (fun p i => removeFrom e p (p.peer i).edges) p

/-- What happens to the peer store. -/
inductive Op (np ne nc : ℕ) (ET CT : Type) where
  /-- `peer_info_add`. -/
  | peerAdd (addr : IpAddr)
  /-- `peer_info_update_edge`, for an edge with the given address. -/
  | updateEdge (i : Fin np) (e : Fin ne) (tm : ET) (about : IpAddr)
  /-- `peer_info_update_capability`, with the name of the capability. -/
  | updateCapability (i : Fin np) (e : Fin ne) (c : Fin (ne*nc)) (tm : CT) (about : IpAddr)
    (name : List UInt8)
  /-- `peer_info_remove_edges`. -/
  | removeEdges (e : Fin ne)

/-- One operation on the peer store. -/
def step (penv : PeerEnv np ne nc PT) (p : PeerStore np ne nc ET CT PT) :
    Op np ne nc ET CT → PeerStore np ne nc ET CT PT
  | .peerAdd addr => (peerInfoAdd penv p addr).1
  | .updateEdge i e tm about => (peerInfoUpdateEdge penv p i e tm about).1
  | .updateCapability i e c tm about name =>
    (peerInfoUpdateCapability penv p i e c tm about name).1
  | .removeEdges e => peerInfoRemoveEdges p e

/-- Updates get a peer that was just looked up or added. -/
def Admitted (p : PeerStore np ne nc ET CT PT) : Op np ne nc ET CT → Prop
  | .updateEdge i _ _ _ | .updateCapability i _ _ _ _ _ => i∈p.peers
  | .peerAdd _ | .removeEdges _ => True

/-- Admission is decided by the list of peers. -/
instance decidableAdmitted (p : PeerStore np ne nc ET CT PT) :
    ∀ op : Op np ne nc ET CT, Decidable (Admitted p op)
  | .updateEdge _ _ _ _ | .updateCapability _ _ _ _ _ _ => inferInstanceAs (Decidable (_∈_))
  | .peerAdd _ | .removeEdges _ => .isTrue trivial

end Source

section Removal

variable {p : PeerStore np ne nc ET CT PT} {e : Fin ne}

/-- A record about the edge. -/
def AboutEdge (p : PeerStore np ne nc ET CT PT) (e : Fin ne) (j : Fin (np*ne)) : Prop :=
  j∈p.records ∧ (p.peerEdge j).edge=e

/-- A report of a record about the edge. -/
def ReportAbout (p : PeerStore np ne nc ET CT PT) (e : Fin ne) (r : Fin (np*ne*nc)) : Prop :=
  ∃ j, AboutEdge p e j ∧ r∈(p.peerEdge j).capabilities

/-- The records about an edge are removed and freed with their reports, and
nothing else is changed. -/
structure RemovesExactly (p p' : PeerStore np ne nc ET CT PT) (e : Fin ne) : Prop where
  /-- The peers stay, but for their records about the edge. -/
  peer : p'.peers=p.peers ∧ ∀ i∈p.peers, p'.peer i=
    {p.peer i with edges := (p.peer i).edges.filter fun j => decide ((p.peerEdge j).edge≠e)}
  /-- The blocks of peers stay in use. -/
  usedPeers : p'.peersMemb.used=p.peersMemb.used
  /-- The records about the edge are freed. -/
  usedRecords : ∀ j, p'.peerEdgesMemb.used j=true ↔ p.peerEdgesMemb.used j=true ∧ ¬AboutEdge p e j
  /-- So are their reports. -/
  usedReports : ∀ r, p'.peerCapabilitiesMemb.used r=true ↔
    p.peerCapabilitiesMemb.used r=true ∧ ¬ReportAbout p e r
  /-- All other records stay. -/
  record : ∀ j∈p.records, (p.peerEdge j).edge≠e → p'.peerEdge j=p.peerEdge j
  /-- So do their reports. -/
  report : ∀ j∈p.records, (p.peerEdge j).edge≠e → ∀ r∈(p.peerEdge j).capabilities,
    p'.peerCap r=p.peerCap r

/-- A removal does not touch any list or record. -/
structure OnlyFrees (p p' : PeerStore np ne nc ET CT PT) : Prop where
  /-- The peers and their lists. -/
  peers : p'.peers=p.peers
  /-- The blocks of the peers. -/
  peersMemb : p'.peersMemb=p.peersMemb
  /-- What is in the records. -/
  record : ∀ j, p'.peerEdge j=p.peerEdge j
  /-- No record is taken. -/
  used : ∀ j, p.peerEdgesMemb.used j=false → p'.peerEdgesMemb.used j=false

/-- Nothing was done. -/
theorem OnlyFrees.refl (p : PeerStore np ne nc ET CT PT) : OnlyFrees p p :=
  ⟨rfl,rfl,fun _ => rfl,fun _ h => h⟩

/-- One after the other. -/
theorem OnlyFrees.trans {p p' p'' : PeerStore np ne nc ET CT PT} (h : OnlyFrees p p')
    (h' : OnlyFrees p' p'') : OnlyFrees p p'' :=
  ⟨h'.peers.trans h.peers,h'.peersMemb.trans h.peersMemb,
    fun j => (h'.record j).trans (h.record j),fun j hj => h'.used j (h.used j hj)⟩

/-- Freeing a record. -/
theorem onlyFrees_peerEdgeFree (p : PeerStore np ne nc ET CT PT) (j : Fin (np*ne)) :
    OnlyFrees p (peerEdgeFree p j) := by
  refine ⟨rfl,rfl,fun _ => rfl,fun j' hj' => ?_⟩
  by_cases h : j'=j
  · rw [h]
    exact Memb.free_used_same ..
  · exact (Memb.free_used_other _ h).trans hj'

/-- The list of one peer is walked, and the records about the edge are freed. -/
theorem removeFrom_spec (p : PeerStore np ne nc ET CT PT) (e : Fin ne)
    (edges : List (Fin (np*ne))) :
    OnlyFrees p (removeFrom e p edges) ∧
      ∀ j∈edges, (p.peerEdge j).edge=e → (removeFrom e p edges).peerEdgesMemb.used j=false := by
  induction edges generalizing p with
  | nil => exact ⟨.refl p,fun _ hj => nomatch hj⟩
  | cons j edges ih =>
    by_cases hj : (p.peerEdge j).edge=e
    · have hstep : removeFrom e p (j::edges)=removeFrom e (peerEdgeFree p j) edges := by
        rw [removeFrom,List.foldl_cons,if_pos hj]
        rfl
      obtain ⟨hfrees,hfreed⟩ := ih (peerEdgeFree p j)
      rw [hstep]
      refine ⟨(onlyFrees_peerEdgeFree p j).trans hfrees,fun j' hj' habout => ?_⟩
      rcases List.mem_cons.mp hj' with rfl | hrest
      · exact hfrees.used j' (Memb.free_used_same ..)
      · exact hfreed j' hrest habout
    · have hstep : removeFrom e p (j::edges)=removeFrom e p edges := by
        rw [removeFrom,List.foldl_cons,if_neg hj]
        rfl
      obtain ⟨hfrees,hfreed⟩ := ih p
      rw [hstep]
      refine ⟨hfrees,fun j' hj' habout => ?_⟩
      rcases List.mem_cons.mp hj' with rfl | hrest
      · exact absurd habout hj
      · exact hfreed j' hrest habout

/-- The lists of all peers are walked. -/
theorem foldl_removeFrom_spec (p : PeerStore np ne nc ET CT PT) (e : Fin ne)
    (peers : List (Fin np)) :
    OnlyFrees p (peers.foldl (fun p i => removeFrom e p (p.peer i).edges) p) ∧
      ∀ i∈peers, ∀ j∈(p.peer i).edges, (p.peerEdge j).edge=e →
        (peers.foldl (fun p i => removeFrom e p (p.peer i).edges) p).peerEdgesMemb.used j=
          false := by
  induction peers generalizing p with
  | nil => exact ⟨.refl p,fun _ hi => nomatch hi⟩
  | cons i peers ih =>
    obtain ⟨hfrees₁,hfreed₁⟩ := removeFrom_spec p e (p.peer i).edges
    obtain ⟨hfrees,hfreed⟩ := ih (removeFrom e p (p.peer i).edges)
    rw [List.foldl_cons]
    refine ⟨hfrees₁.trans hfrees,fun i' hi' j hj habout => ?_⟩
    rcases List.mem_cons.mp hi' with rfl | hrest
    · exact hfrees.used j (hfreed₁ j hj habout)
    · refine hfreed i' hrest j ?_ (by rw [hfrees₁.record]; exact habout)
      rw [PeerStore.peer,hfrees₁.peersMemb]
      exact hj

/-- A call leaves all lists as they are and frees the records about the edge. -/
theorem peerInfoRemoveEdges_spec (p : PeerStore np ne nc ET CT PT) (e : Fin ne) :
    OnlyFrees p (peerInfoRemoveEdges p e) ∧
      ∀ j, AboutEdge p e j → (peerInfoRemoveEdges p e).peerEdgesMemb.used j=false := by
  obtain ⟨hfrees,hfreed⟩ := foldl_removeFrom_spec p e p.peers
  refine ⟨hfrees,fun j hj => ?_⟩
  obtain ⟨i,hi,hmem⟩ := List.mem_flatMap.mp hj.1
  exact hfreed i hi j hmem hj.2

/-- Without records about the edge nothing happens to a list. -/
theorem removeFrom_of_unreferenced {edges : List (Fin (np*ne))}
    (h : ∀ j∈edges, (p.peerEdge j).edge≠e) : removeFrom e p edges=p := by
  induction edges with
  | nil => rfl
  | cons j edges ih =>
    rw [removeFrom,List.foldl_cons,if_neg (h j List.mem_cons_self)]
    exact ih fun j' hj' => h j' (List.mem_cons_of_mem j hj')

/-- Without records about the edge nothing happens. -/
theorem peerInfoRemoveEdges_of_unreferenced (h : EdgeUnreferenced p e) :
    peerInfoRemoveEdges p e=p := by
  have hwalk : ∀ peers : List (Fin np), (∀ i∈peers, i∈p.peers) →
      peers.foldl (fun p i => removeFrom e p (p.peer i).edges) p=p := by
    intro peers hpeers
    induction peers with
    | nil => rfl
    | cons i peers ih =>
      have hi := hpeers i List.mem_cons_self
      rw [List.foldl_cons,removeFrom_of_unreferenced fun j hj =>
        h j (List.mem_flatMap.mpr ⟨i,hi,hj⟩)]
      exact ih fun i' hi' => hpeers i' (List.mem_cons_of_mem i hi')
  exact hwalk p.peers fun _ hi => hi

/-- Removing nothing is exact when there is nothing to remove. -/
theorem removesExactly_refl (h : EdgeUnreferenced p e) : RemovesExactly p p e := by
  have hrecords : ∀ j, ¬AboutEdge p e j := fun j hj => h j hj.1 hj.2
  refine ⟨⟨rfl,fun i hi => ?_⟩,rfl,fun j => (and_iff_left (hrecords j)).symm,
    fun r => (and_iff_left fun ⟨j,hj,_⟩ => hrecords j hj).symm,fun _ _ _ => rfl,
    fun _ _ _ _ _ => rfl⟩
  have hall : (p.peer i).edges.filter (fun j => decide ((p.peerEdge j).edge≠e))=
      (p.peer i).edges :=
    List.filter_eq_self.mpr fun j hj => decide_eq_true
      (h j (List.mem_flatMap.mpr ⟨i,hi,hj⟩))
  rw [hall]

/-- A call removes exactly the records about an edge only if there are none. -/
theorem removesExactly_iff : RemovesExactly p (peerInfoRemoveEdges p e) e ↔
    EdgeUnreferenced p e := by
  constructor
  · intro h j hj habout
    obtain ⟨i,hi,hmem⟩ := List.mem_flatMap.mp hj
    have hpeer := h.peer.2 i hi
    rw [PeerStore.peer,(peerInfoRemoveEdges_spec p e).1.peersMemb] at hpeer
    have hedges : (p.peer i).edges=
        (p.peer i).edges.filter fun j => decide ((p.peerEdge j).edge≠e) :=
      congrArg Peer.edges hpeer
    rw [hedges] at hmem
    exact of_decide_eq_true (List.mem_filter.mp hmem).2 habout
  · intro h
    rw [peerInfoRemoveEdges_of_unreferenced h]
    exact removesExactly_refl h

/-- A call keeps the pools in order only if there are no records about the edge. -/
theorem peersWellFormed_removeEdges_iff (hp : PeersWellFormed p) :
    PeersWellFormed (peerInfoRemoveEdges p e) ↔ EdgeUnreferenced p e := by
  constructor
  · intro h j hj habout
    obtain ⟨hfrees,hfreed⟩ := peerInfoRemoveEdges_spec p e
    have hfree := hfreed j ⟨hj,habout⟩
    refine h.ownsRecords.not_mem hfree ?_
    obtain ⟨i,hi,hmem⟩ := List.mem_flatMap.mp hj
    refine List.mem_flatMap.mpr ⟨i,by rw [hfrees.peers]; exact hi,?_⟩
    rw [PeerStore.peer,hfrees.peersMemb]
    exact hmem
  · intro h
    rw [peerInfoRemoveEdges_of_unreferenced h]
    exact hp

end Removal

section Histories

variable {penv : PeerEnv np ne nc PT} {p : PeerStore np ne nc ET CT PT}

/-- A call of `peer_info_remove_edges` is exact. -/
def RemovalExact (penv : PeerEnv np ne nc PT) (p : PeerStore np ne nc ET CT PT)
    (op : Op np ne nc ET CT) : Prop :=
  ∀ e, op=.removeEdges e → RemovesExactly p (step penv p op) e

/-- A call of `peer_info_remove_edges` is for an edge that no record is about. -/
def RemovesUnreferenced (p : PeerStore np ne nc ET CT PT) : Op np ne nc ET CT → Prop
  | .removeEdges e => EdgeUnreferenced p e
  | .peerAdd _ | .updateEdge _ _ _ _ | .updateCapability _ _ _ _ _ _ => True

/-- The condition is decided by the records. -/
instance decidableRemovesUnreferenced (p : PeerStore np ne nc ET CT PT) :
    ∀ op : Op np ne nc ET CT, Decidable (RemovesUnreferenced p op)
  | .removeEdges _ => inferInstanceAs (Decidable (∀ j∈p.records, _≠_))
  | .peerAdd _ | .updateEdge _ _ _ _ | .updateCapability _ _ _ _ _ _ => .isTrue trivial

/-- One operation keeps the pools in order exactly when it removes nothing. -/
theorem peersWellFormed_step_iff (hp : PeersWellFormed p) {op : Op np ne nc ET CT}
    (hop : Admitted p op) : PeersWellFormed (step penv p op) ↔ RemovesUnreferenced p op := by
  cases op with
  | peerAdd addr => exact iff_of_true (hp.peerAdd penv addr) trivial
  | updateEdge i e tm about => exact iff_of_true (hp.updateEdge penv hop e tm about) trivial
  | updateCapability i e c tm about name =>
    exact iff_of_true (hp.updateCapability penv hop e c tm about name) trivial
  | removeEdges e => exact peersWellFormed_removeEdges_iff hp

/-- **Removals over a whole run.** All removals of a run are exact, and in every
state the used blocks of the three pools are those that are reachable from the
list of peers, exactly when no call is for an edge that a record is about. -/
theorem removals_exact_iff (penv : PeerEnv np ne nc PT) (edge : Fin ne) (cap : Fin (ne*nc))
    (et : ET) (ct : CT) (pt : PT) (ops : List (Op np ne nc ET CT))
    (hops : Along (step penv) Admitted (peerInfoInit np ne nc edge cap et ct pt) ops) :
    (Along (step penv) (RemovalExact penv) (peerInfoInit np ne nc edge cap et ct pt) ops ∧
      Always (step penv) PeersWellFormed (peerInfoInit np ne nc edge cap et ct pt) ops) ↔
      Along (step penv) RemovesUnreferenced (peerInfoInit np ne nc edge cap et ct pt) ops := by
  have hiff : Always (step penv) PeersWellFormed (peerInfoInit np ne nc edge cap et ct pt) ops ↔
      Along (step penv) RemovesUnreferenced (peerInfoInit np ne nc edge cap et ct pt) ops :=
    always_iff_along (I:=fun _ => True) (fun _ _ _ _ => trivial)
      (fun _ _ _ hP hA => peersWellFormed_step_iff hP hA) trivial
      (peersWellFormed_init edge cap et ct pt) hops
  refine ⟨fun h => hiff.mp h.2,fun h => ⟨h.mono fun p op hop e he => ?_,hiff.mpr h⟩⟩
  subst he
  exact removesExactly_iff.mpr hop

/-- An edge is removed that no peer has reported about. -/
theorem removals_exact_iff_sample :
    Along (step samplePeerEnv) (RemovalExact samplePeerEnv) (peerInfoInit 8 4 3 0 0 () () ())
        [.peerAdd (sampleAddr 9),.updateEdge 0 0 () (sampleAddr 1),.removeEdges 1] ∧
      Always (step samplePeerEnv) PeersWellFormed (peerInfoInit 8 4 3 0 0 () () ())
        [.peerAdd (sampleAddr 9),.updateEdge 0 0 () (sampleAddr 1),.removeEdges 1] :=
  (removals_exact_iff samplePeerEnv 0 0 () () ()
    [.peerAdd (sampleAddr 9),.updateEdge 0 0 () (sampleAddr 1),.removeEdges 1]
    (by decide)).mpr (by decide)

/-- An edge is removed that a peer has reported about. Its record stays on the
peer's list, and its block is free. -/
theorem not_removals_exact_of_reported :
    Along (step samplePeerEnv) Admitted (peerInfoInit 8 4 3 0 0 () () ())
        [.peerAdd (sampleAddr 9),.updateEdge 0 0 () (sampleAddr 1),.removeEdges 0] ∧
      ¬Along (step samplePeerEnv) (RemovalExact samplePeerEnv) (peerInfoInit 8 4 3 0 0 () () ())
        [.peerAdd (sampleAddr 9),.updateEdge 0 0 () (sampleAddr 1),.removeEdges 0] ∧
      ¬Always (step samplePeerEnv) PeersWellFormed (peerInfoInit 8 4 3 0 0 () () ())
        [.peerAdd (sampleAddr 9),.updateEdge 0 0 () (sampleAddr 1),.removeEdges 0] := by
  refine ⟨by decide,fun h => ?_,fun h => ?_⟩
  · have hexact := h.2.2.1 0 rfl
    exact removesExactly_iff.mp hexact 0 (by decide) rfl
  · have hmem := (h.last.ownsRecords.used_iff 0).mpr (by decide)
    exact absurd hmem (by decide)

end Histories

end TrustAlloc.PeerRemoval
