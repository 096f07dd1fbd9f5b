import TrustAlloc.PeerInfo
import TrustAlloc.Runs

/-!
# References from the peer store into the edge store

The records of peers point to blocks of edges and of capabilities. Adding
edges, capabilities, peers and reports keeps these pointers meaningful, since
only free blocks are filled. Removing and evicting does not look at the
records of peers, so a reference stays behind whenever a block that is
referred to is freed. Over whole runs no reference ever dangles exactly when
no step frees such a block.
-/

namespace TrustAlloc.PeerReferences

open EdgeInfo PeerInfo Pools Runs

variable {np ne nc : ℕ} {ET CT PT : Type}

/-- The record refers to a listed edge, the one that it was about, and its
reports to capabilities of that edge, those that they were about. -/
def RecordValid (s : EdgeStore ne nc ET CT) (p : PeerStore np ne nc ET CT PT)
    (j : Fin (np*ne)) : Prop :=
  (p.peerEdge j).edge∈s.edgeResources ∧
    (s.edge (p.peerEdge j).edge).ep=(p.peerEdge j).about ∧
    ∀ r∈(p.peerEdge j).capabilities,
      (p.peerCap r).cap∈(s.edge (p.peerEdge j).edge).capabilities ∧
      (s.cap (p.peerCap r).cap).name=(p.peerCap r).about

/-- No record of any peer dangles. -/
def NoDangling (s : EdgeStore ne nc ET CT) (p : PeerStore np ne nc ET CT PT) : Prop :=
  ∀ j∈p.records, RecordValid s p j

/-- No record of any peer refers to the edge. -/
def EdgeUnreferenced (p : PeerStore np ne nc ET CT PT) (e : Fin ne) : Prop :=
  ∀ j∈p.records, (p.peerEdge j).edge≠e

/-- No record about the edge carries a report about the capability. -/
def CapUnreferenced (p : PeerStore np ne nc ET CT PT) (e : Fin ne) (c : Fin (ne*nc)) : Prop :=
  ∀ j∈p.records, (p.peerEdge j).edge=e → ∀ r∈(p.peerEdge j).capabilities, (p.peerCap r).cap≠c

/-- No record about the edge carries any report. -/
def CapsUnreferenced (p : PeerStore np ne nc ET CT PT) (e : Fin ne) : Prop :=
  ∀ j∈p.records, (p.peerEdge j).edge=e → (p.peerEdge j).capabilities=[]

section EdgeSide

variable {s s' : EdgeStore ne nc ET CT} {p : PeerStore np ne nc ET CT PT}

/-- A record stays valid when its edge stays listed with its address and its
capabilities stay there with their names. -/
theorem RecordValid.transfer {j : Fin (np*ne)} (h : RecordValid s p j)
    (hlist : (p.peerEdge j).edge∈s'.edgeResources)
    (hep : (s'.edge (p.peerEdge j).edge).ep=(s.edge (p.peerEdge j).edge).ep)
    (hcap : ∀ r∈(p.peerEdge j).capabilities,
      (p.peerCap r).cap∈(s'.edge (p.peerEdge j).edge).capabilities ∧
      (s'.cap (p.peerCap r).cap).name=(s.cap (p.peerCap r).cap).name) :
    RecordValid s' p j :=
  ⟨hlist,hep.trans h.2.1,fun r hr => ⟨(hcap r hr).1,(hcap r hr).2.trans (h.2.2 r hr).2⟩⟩

/-- After the removal of an edge no record dangles exactly when none
referred to that edge. -/
theorem noDangling_edgeRemove_iff (hs : WellFormed s) (hP : NoDangling s p) (e : Fin ne) :
    NoDangling (edgeInfoRemove s e).1 p ↔ EdgeUnreferenced p e := by
  have hlist := edgeInfoRemove_edgeResources (s:=s) e
  constructor
  · intro h j hj he
    have hmem := (h j hj).1
    rw [hlist,he] at hmem
    exact hs.ownsEdges.nodup.not_mem_erase hmem
  · intro h j hj
    have hne := h j hj
    have hval := hP j hj
    have hsame := edgeInfoRemove_edge_other (s:=s) hne
    refine hval.transfer ?_ (by rw [hsame]) fun r hr => ⟨?_,by rw [edgeInfoRemove_cap]⟩
    · rw [hlist]
      exact (List.mem_erase_of_ne hne).mpr hval.1
    · rw [hsame]
      exact (hval.2.2 r hr).1

/-- Filling a free edge block leaves no record dangling. -/
theorem NoDangling.placeEdge (hP : NoDangling s p) (hs : WellFormed s)
    (env : EdgeEnv ne nc ET CT) {e : Fin ne} (he : s.edgeResourcesMemb.used e=false)
    (addr : IpAddr) : NoDangling (s.placeEdge env e addr) p := by
  intro j hj
  have hval := hP j hj
  have hne : (p.peerEdge j).edge≠e := fun hc => hs.ownsEdges.not_mem he (hc ▸ hval.1)
  have hsame := placeEdge_edge_other (s:=s) env hne addr
  refine hval.transfer ?_ (by rw [hsame]) fun r hr => ⟨?_,by rw [placeEdge_cap]⟩
  · rw [placeEdge_edgeResources env hs he]
    exact List.mem_cons_of_mem e hval.1
  · rw [hsame]
    exact (hval.2.2 r hr).1

/-- After `edge_info_add` no record dangles exactly when none referred to the
edge that was evicted, if any was. -/
theorem noDangling_edgeAdd_iff (hs : WellFormed s) (hP : NoDangling s p)
    (env : EdgeEnv ne nc ET CT) (addr : IpAddr) :
    NoDangling (edgeInfoAdd env s addr).1 p ↔
      ∀ old∈evictedEdge env s addr, EdgeUnreferenced p old := by
  rcases edgeInfoAdd_cases env s addr with ⟨hev,e,_,_,ha⟩ | ⟨_,hev,ha⟩ | ⟨_,hev,e,he,ha⟩ |
    ⟨hnew,old,hold,_,hev,e,he,ha⟩
  · rw [ha,hev]
    exact iff_of_true hP fun _ h => nomatch h
  · rw [ha,hev]
    exact iff_of_true hP fun _ h => nomatch h
  · rw [ha,hev]
    exact iff_of_true (hP.placeEdge hs env he addr) fun _ h => nomatch h
  · rw [ha,hev]
    have hiff := noDangling_edgeRemove_iff hs hP old
    constructor
    · intro h old' hold' j hj hc
      obtain rfl := Option.some.inj hold'
      -- the freed block can only be listed again under the new address
      have hval := h j hj
      rw [RecordValid,hc,placeEdge_edgeResources env (hs.edgeRemove old) he,
        edgeInfoRemove_edgeResources,List.mem_cons] at hval
      rcases hval.1 with heq | hmem
      · subst heq
        have hep := hval.2.1
        rw [placeEdge_edge_same,←(hP j hj).2.1,hc] at hep
        exact hnew old hold hep.symm
      · exact hs.ownsEdges.nodup.not_mem_erase hmem
    · intro h
      exact (hiff.mpr (h old rfl)).placeEdge (hs.edgeRemove old) env he addr

/-- After the removal of a capability no record dangles exactly when none
carried a report about it. -/
theorem noDangling_capabilityRemove_iff (hs : WellFormed s) (hP : NoDangling s p) {e : Fin ne}
    (he : e∈s.edgeResources) (c : Fin (ne*nc)) :
    NoDangling (edgeInfoCapabilityRemove s e c).1 p ↔ CapUnreferenced p e c := by
  obtain ⟨hcaps,hep,hother,hcap⟩ := edgeInfoCapabilityRemove_spec s e c
  have hlist := edgeInfoCapabilityRemove_edgeResources (s:=s) e c
  constructor
  · intro h j hj hje r hr hrc
    have hmem := ((h j hj).2.2 r hr).1
    rw [hje,hcaps,hrc] at hmem
    exact (nodup_capabilities hs he).not_mem_erase hmem
  · intro h j hj
    have hval := hP j hj
    refine hval.transfer (by rw [hlist]; exact hval.1) (hep _) fun r hr =>
      ⟨?_,by rw [hcap]⟩
    have hold := (hval.2.2 r hr).1
    by_cases hje : (p.peerEdge j).edge=e
    · rw [hje] at hold ⊢
      rw [hcaps]
      exact (List.mem_erase_of_ne (h j hj hje r hr)).mpr hold
    · rw [hother _ hje]
      exact hold

/-- After clearing an edge no record dangles exactly when none about that
edge carried a report. -/
theorem noDangling_capabilityClear_iff (hP : NoDangling s p) (e : Fin ne) :
    NoDangling (edgeInfoCapabilityClear s e) p ↔ CapsUnreferenced p e := by
  obtain ⟨hlist,hep,hother,hcap⟩ := edgeInfoCapabilityClear_spec s e
  have hempty := edgeInfoCapabilityClear_capabilities s e
  constructor
  · intro h j hj hje
    refine List.eq_nil_iff_forall_not_mem.mpr fun r hr => ?_
    have hmem := ((h j hj).2.2 r hr).1
    rw [hje,hempty] at hmem
    cases hmem
  · intro h j hj
    have hval := hP j hj
    refine hval.transfer (by rw [hlist]; exact hval.1) (hep _) fun r hr =>
      ⟨?_,by rw [hcap]⟩
    by_cases hje : (p.peerEdge j).edge=e
    · rw [h j hj hje] at hr
      cases hr
    · rw [hother _ hje]
      exact (hval.2.2 r hr).1

/-- Adding a capability leaves no record dangling. -/
theorem NoDangling.capabilityAdd (hP : NoDangling s p) (hs : WellFormed s)
    (env : EdgeEnv ne nc ET CT) {e : Fin ne} (he : e∈s.edgeResources) (name : List UInt8) :
    NoDangling (edgeInfoCapabilityAdd env s e name).1 p := by
  rcases edgeInfoCapabilityAdd_cases hs env he name with ⟨c,_,_,ha⟩ | ⟨_,_,ha⟩ | ⟨_,_,c,hc,ha⟩
  · rw [ha]
    exact hP
  · rw [ha]
    exact hP
  · rw [ha]
    intro j hj
    have hval := hP j hj
    have hsame := placeCap_edge_same env hs he hc name
    have hkept : ((s.placeCap env e c name).edge (p.peerEdge j).edge).ep=
          (s.edge (p.peerEdge j).edge).ep ∧
        (s.edge (p.peerEdge j).edge).capabilities⊆
          ((s.placeCap env e c name).edge (p.peerEdge j).edge).capabilities := by
      by_cases hje : (p.peerEdge j).edge=e
      · rw [hje,hsame]
        exact ⟨rfl,List.subset_cons_self c _⟩
      · rw [placeCap_edge_other hje]
        exact ⟨rfl,List.Subset.refl _⟩
    refine hval.transfer hval.1 hkept.1 fun r hr => ⟨hkept.2 (hval.2.2 r hr).1,?_⟩
    have hlinked := s.mem_linked hval.1 (hval.2.2 r hr).1
    have hne : (p.peerCap r).cap≠c := fun hrc => hs.ownsCaps.not_mem hc (hrc ▸ hlinked)
    rw [placeCap_cap_other e hne]

/-- Writing flags and trust values of an edge leaves no record dangling. -/
theorem NoDangling.writeEdge (hP : NoDangling s p) (e : Fin ne) (flags : UInt32) (tm : ET) :
    NoDangling (s.setEdge e {s.edge e with flags := flags,tm := tm}) p := by
  intro j hj
  have hval := hP j hj
  have hkept : ((s.setEdge e {s.edge e with flags := flags,tm := tm}).edge
        (p.peerEdge j).edge).ep=(s.edge (p.peerEdge j).edge).ep ∧
      ((s.setEdge e {s.edge e with flags := flags,tm := tm}).edge
        (p.peerEdge j).edge).capabilities=(s.edge (p.peerEdge j).edge).capabilities := by
    by_cases hje : (p.peerEdge j).edge=e
    · rw [hje,EdgeStore.setEdge_edge_same]
      exact ⟨rfl,rfl⟩
    · rw [EdgeStore.setEdge_edge_other _ hje]
      exact ⟨rfl,rfl⟩
  exact hval.transfer hval.1 hkept.1 fun r hr =>
    ⟨by rw [hkept.2]; exact (hval.2.2 r hr).1,rfl⟩

/-- Writing flags and trust values of a capability leaves no record dangling. -/
theorem NoDangling.writeCap (hP : NoDangling s p) (c : Fin (ne*nc)) (flags : UInt32) (tm : CT) :
    NoDangling (s.setCap c {s.cap c with flags := flags,tm := tm}) p := by
  intro j hj
  have hval := hP j hj
  refine hval.transfer hval.1 rfl fun r hr => ⟨(hval.2.2 r hr).1,?_⟩
  by_cases hrc : (p.peerCap r).cap=c
  · rw [hrc,EdgeStore.setCap_cap_same]
  · rw [EdgeStore.setCap_cap_other _ hrc]

end EdgeSide

section PeerSide

variable {s : EdgeStore ne nc ET CT} {p p' : PeerStore np ne nc ET CT PT}

/-- A record that does not change, with reports that do not, stays valid. -/
theorem RecordValid.congr {j : Fin (np*ne)} (h : RecordValid s p j)
    (hrec : p'.peerEdge j=p.peerEdge j)
    (hrep : ∀ r∈(p.peerEdge j).capabilities, p'.peerCap r=p.peerCap r) :
    RecordValid s p' j := by
  unfold RecordValid
  rw [hrec]
  refine ⟨h.1,h.2.1,fun r hr => ?_⟩
  rw [hrep r hr]
  exact h.2.2 r hr

/-- Adding a peer leaves no record dangling. -/
theorem NoDangling.peerAdd (hP : NoDangling s p) (hp : PeersWellFormed p)
    (env : PeerEnv np ne nc PT) (addr : IpAddr) :
    NoDangling s (peerInfoAdd env p addr).1 := by
  rcases peerInfoAdd_cases env p addr with ha | ⟨i,hi,ha⟩
  · rw [ha]
    exact hP
  · rw [ha]
    intro j hj
    rw [(records_placePeer hp env hi addr).2] at hj
    exact (hP j hj).congr rfl fun _ _ => rfl

/-- A new record about a listed edge is valid, and so are the others. -/
theorem NoDangling.placeRecord (hP : NoDangling s p) (hp : PeersWellFormed p) {i : Fin np}
    (hi : i∈p.peers) {j : Fin (np*ne)} (hj : p.peerEdgesMemb.used j=false) {e : Fin ne}
    (he : e∈s.edgeResources) : NoDangling s (p.placeRecord i j e (s.edge e).ep) := by
  intro j' hj'
  rw [(records_placeRecord hp hi hj e _).mem_iff] at hj'
  rcases List.mem_cons.mp hj' with rfl | hold
  · unfold RecordValid
    rw [placeRecord_same]
    exact ⟨he,rfl,fun r hr => nomatch hr⟩
  · have hne : j'≠j := fun hc => hp.ownsRecords.not_mem hj (hc ▸ hold)
    exact (hP j' hold).congr (placeRecord_other i hne e _) fun _ _ => rfl

/-- A lookup or allocation of a record leaves none dangling. -/
theorem NoDangling.findEdgeOrAllocate (hP : NoDangling s p) (hp : PeersWellFormed p)
    (env : PeerEnv np ne nc PT) {i : Fin np} (hi : i∈p.peers) {e : Fin ne}
    (he : e∈s.edgeResources) {result : PeerStore np ne nc ET CT PT × Option (Fin (np*ne))}
    (hr : peerInfoFindEdgeOrAllocate env p i e (s.edge e).ep=result) : NoDangling s result.1 := by
  subst hr
  rcases findEdgeOrAllocate_cases env p i e (s.edge e).ep with ⟨j,_,_,ha⟩ | ha | ⟨j,_,hj,ha⟩
  · rw [ha]
    exact hP
  · rw [ha]
    exact hP
  · rw [ha]
    exact hP.placeRecord hp hi hj he

/-- Storing values in a record about a listed edge leaves it valid. -/
theorem NoDangling.writeRecord (hP : NoDangling s p) {j : Fin (np*ne)} {e : Fin ne}
    (hje : (p.peerEdge j).edge=e) (tm : ET) :
    NoDangling s (p.writeRecord j tm (s.edge e).ep) := by
  intro j' hj'
  have hval := hP j' hj'
  by_cases hne : j'=j
  · subst hne
    unfold RecordValid
    rw [writeRecord_same]
    exact ⟨hval.1,by rw [hje],hval.2.2⟩
  · exact hval.congr (writeRecord_other hne tm _) fun _ _ => rfl

/-- `peer_info_update_edge` about a listed edge leaves no record dangling. -/
theorem NoDangling.updateEdge (hP : NoDangling s p) (hp : PeersWellFormed p)
    (env : PeerEnv np ne nc PT) {i : Fin np} (hi : i∈p.peers) {e : Fin ne}
    (he : e∈s.edgeResources) (tm : ET) :
    NoDangling s (peerInfoUpdateEdge env p i e tm (s.edge e).ep).1 := by
  unfold peerInfoUpdateEdge
  split
  · next p' j hr =>
    have hj := hp.findEdgeOrAllocate env hi e _ hr
    exact (hP.findEdgeOrAllocate hp env hi he hr).writeRecord (hj.2 j rfl).2 tm
  · next p' hr => exact hP.findEdgeOrAllocate hp env hi he hr

/-- A new report about a capability of the record's edge leaves none dangling. -/
theorem NoDangling.placeReport (hP : NoDangling s p) (hp : PeersWellFormed p)
    {j : Fin (np*ne)} (hj : j∈p.records) {r : Fin (np*ne*nc)}
    (hr : p.peerCapabilitiesMemb.used r=false) {c : Fin (ne*nc)}
    (hc : c∈(s.edge (p.peerEdge j).edge).capabilities) :
    NoDangling s (p.placeReport j r c (s.cap c).name) := by
  have hother : ∀ j'∈p.records, ∀ r'∈(p.peerEdge j').capabilities,
      (p.placeReport j r c (s.cap c).name).peerCap r'=p.peerCap r' := by
    intro j' hj' r' hr'
    have hne := hp.ownsReports.ne_of_mem (List.mem_flatMap.mpr ⟨j',hj',hr'⟩) hr
    exact (p.peerCapabilitiesMemb.take r).set_mem_other _ hne
  intro j' hj'
  have hval := hP j' hj'
  by_cases hne : j'=j
  · subst hne
    unfold RecordValid
    rw [placeReport_same hp hj hr]
    refine ⟨hval.1,hval.2.1,fun r' hr' => ?_⟩
    rcases List.mem_cons.mp hr' with rfl | hold
    · have hsame : (p.placeReport j' r' c (s.cap c).name).peerCap r'=
          ⟨c,(p.peerCap r').tm,(s.cap c).name⟩ :=
        (p.peerCapabilitiesMemb.take r').set_mem_same r' _
      rw [hsame]
      exact ⟨hc,rfl⟩
    · rw [hother j' hj' r' hold]
      exact hval.2.2 r' hold
  · exact hval.congr (placeReport_other hne r c _) (hother j' hj')

/-- A lookup or allocation of a report leaves none dangling. -/
theorem NoDangling.findCapabilityOrAllocate (hP : NoDangling s p) (hp : PeersWellFormed p)
    (env : PeerEnv np ne nc PT) {j : Fin (np*ne)} (hj : j∈p.records) {c : Fin (ne*nc)}
    (hc : c∈(s.edge (p.peerEdge j).edge).capabilities) :
    NoDangling s (peerInfoFindCapabilityOrAllocate env p j c (s.cap c).name).1 := by
  rcases findCapabilityOrAllocate_cases env p j c (s.cap c).name with
    ⟨r,_,_,ha⟩ | ha | ⟨r,_,hfree,ha⟩
  · rw [ha]
    exact hP
  · rw [ha]
    exact hP
  · rw [ha]
    exact hP.placeReport hp hj hfree hc

/-- Storing values in a report about a capability leaves none dangling. -/
theorem NoDangling.writeReport (hP : NoDangling s p) {r : Fin (np*ne*nc)} {c : Fin (ne*nc)}
    (hrc : (p.peerCap r).cap=c) (tm : CT) :
    NoDangling s (p.writeReport r tm (s.cap c).name) := by
  intro j hj
  have hval := hP j hj
  refine ⟨hval.1,hval.2.1,fun r' hr' => ?_⟩
  have hold := hval.2.2 r' hr'
  by_cases hne : r'=r
  · subst hne
    have hsame : (p.writeReport r' tm (s.cap c).name).peerCap r'=
        {p.peerCap r' with tm := tm,about := (s.cap c).name} :=
      p.peerCapabilitiesMemb.set_mem_same r' _
    rw [hsame]
    exact ⟨hold.1,by rw [hrc]⟩
  · have hsame : (p.writeReport r tm (s.cap c).name).peerCap r'=p.peerCap r' :=
      p.peerCapabilitiesMemb.set_mem_other _ hne
    rw [hsame]
    exact hold

/-- `peer_info_update_capability` about a capability of a listed edge leaves
no record dangling. -/
theorem NoDangling.updateCapability (hP : NoDangling s p) (hp : PeersWellFormed p)
    (env : PeerEnv np ne nc PT) {i : Fin np} (hi : i∈p.peers) {e : Fin ne}
    (he : e∈s.edgeResources) {c : Fin (ne*nc)} (hc : c∈(s.edge e).capabilities) (tm : CT) :
    NoDangling s
      (peerInfoUpdateCapability env p i e c tm (s.edge e).ep (s.cap c).name).1 := by
  unfold peerInfoUpdateCapability
  split
  · next p' j hr =>
    have hP' := hP.findEdgeOrAllocate hp env hi he hr
    obtain ⟨hp',hj⟩ := hp.findEdgeOrAllocate env hi e _ hr
    obtain ⟨hjrec,hje⟩ := hj j rfl
    rcases findCapabilityOrAllocate_cases env p' j c (s.cap c).name with
      ⟨r,_,hrc,ha⟩ | ha | ⟨r,_,hfree,ha⟩
    · rw [ha]
      exact hP'.writeReport hrc tm
    · rw [ha]
      exact hP'
    · rw [ha]
      have hsame : ((p'.placeReport j r c (s.cap c).name).peerCap r).cap=c :=
        congrArg PeerEdgeCapability.cap ((p'.peerCapabilitiesMemb.take r).set_mem_same r _)
      exact (hP'.placeReport hp' hjrec hfree (hje ▸ hc)).writeReport hsame tm
  · next p' hr => exact hP.findEdgeOrAllocate hp env hi he hr

end PeerSide

/-- Both stores. -/
structure Stores (np ne nc : ℕ) (ET CT PT : Type) where
  /-- The data of `edge-info.c`. -/
  edges : EdgeStore ne nc ET CT
  /-- The data of `peer-info.c`. -/
  peers : PeerStore np ne nc ET CT PT

/-- What happens to the two stores, in any order. -/
inductive Op (np ne nc : ℕ) (ET CT : Type) where
  /-- `edge_info_add`. -/
  | edgeAdd (addr : IpAddr)
  /-- `edge_info_remove`. -/
  | edgeRemove (e : Fin ne)
  /-- `edge_info_capability_add`. -/
  | capabilityAdd (e : Fin ne) (name : List UInt8)
  /-- `edge_info_capability_remove`. -/
  | capabilityRemove (e : Fin ne) (c : Fin (ne*nc))
  /-- `edge_info_capability_clear`. -/
  | capabilityClear (e : Fin ne)
  /-- Flags and trust values of an edge are written in place. -/
  | writeEdge (e : Fin ne) (flags : UInt32) (tm : ET)
  /-- Flags and trust values of a capability are written in place. -/
  | writeCap (c : Fin (ne*nc)) (flags : UInt32) (tm : CT)
  /-- `peer_info_add`. -/
  | peerAdd (addr : IpAddr)
  /-- `peer_info_update_edge`. -/
  | updateEdge (i : Fin np) (e : Fin ne) (tm : ET)
  /-- `peer_info_update_capability`. -/
  | updateCapability (i : Fin np) (e : Fin ne) (c : Fin (ne*nc)) (tm : CT)

variable {env : EdgeEnv ne nc ET CT} {penv : PeerEnv np ne nc PT} {st : Stores np ne nc ET CT PT}

/-- One operation on the two stores. -/
def step (env : EdgeEnv ne nc ET CT) (penv : PeerEnv np ne nc PT)
    (st : Stores np ne nc ET CT PT) : Op np ne nc ET CT → Stores np ne nc ET CT PT
  | .edgeAdd addr => {st with edges := (edgeInfoAdd env st.edges addr).1}
  | .edgeRemove e => {st with edges := (edgeInfoRemove st.edges e).1}
  | .capabilityAdd e name => {st with edges := (edgeInfoCapabilityAdd env st.edges e name).1}
  | .capabilityRemove e c => {st with edges := (edgeInfoCapabilityRemove st.edges e c).1}
  | .capabilityClear e => {st with edges := edgeInfoCapabilityClear st.edges e}
  | .writeEdge e flags tm =>
    {st with edges := st.edges.setEdge e {st.edges.edge e with flags := flags,tm := tm}}
  | .writeCap c flags tm =>
    {st with edges := st.edges.setCap c {st.edges.cap c with flags := flags,tm := tm}}
  | .peerAdd addr => {st with peers := (peerInfoAdd penv st.peers addr).1}
  | .updateEdge i e tm =>
    {st with peers := (peerInfoUpdateEdge penv st.peers i e tm (st.edges.edge e).ep).1}
  | .updateCapability i e c tm =>
    {st with peers := (peerInfoUpdateCapability penv st.peers i e c tm (st.edges.edge e).ep
      (st.edges.cap c).name).1}

/-- Operations get edges and peers that were just looked up or added;
`process_received_trust` finds the peer by its address, the edge by the
address in the message and the capability by its name on that edge. -/
def Admitted (st : Stores np ne nc ET CT PT) : Op np ne nc ET CT → Prop
  | .capabilityAdd e _ | .capabilityRemove e _ | .capabilityClear e => e∈st.edges.edgeResources
  | .updateEdge i e _ => i∈st.peers.peers ∧ e∈st.edges.edgeResources
  | .updateCapability i e c _ =>
    i∈st.peers.peers ∧ e∈st.edges.edgeResources ∧ c∈(st.edges.edge e).capabilities
  | _ => True

/-- Admission is decided by the lists of the two stores. -/
instance decidableAdmitted (st : Stores np ne nc ET CT PT) : ∀ op, Decidable (Admitted st op)
  | .capabilityAdd e _ | .capabilityRemove e _ | .capabilityClear e =>
    inferInstanceAs (Decidable (e∈st.edges.edgeResources))
  | .updateEdge _ _ _ => inferInstanceAs (Decidable (_ ∧ _))
  | .updateCapability _ _ _ _ => inferInstanceAs (Decidable (_ ∧ _ ∧ _))
  | .edgeAdd _ | .edgeRemove _ | .writeEdge _ _ _ | .writeCap _ _ _ | .peerAdd _ => .isTrue trivial

/-- The step frees no edge and no capability that a peer's record refers to. -/
def FreesUnreferenced (env : EdgeEnv ne nc ET CT) (st : Stores np ne nc ET CT PT) :
    Op np ne nc ET CT → Prop
  | .edgeAdd addr => ∀ old∈evictedEdge env st.edges addr, EdgeUnreferenced st.peers old
  | .edgeRemove e => EdgeUnreferenced st.peers e
  | .capabilityRemove e c => CapUnreferenced st.peers e c
  | .capabilityClear e => CapsUnreferenced st.peers e
  | _ => True

/-- The condition is decided by the records of the peers. -/
instance decidableFreesUnreferenced (env : EdgeEnv ne nc ET CT)
    (st : Stores np ne nc ET CT PT) : ∀ op, Decidable (FreesUnreferenced env st op)
  | .edgeAdd _ => inferInstanceAs (Decidable (∀ old∈evictedEdge _ _ _, ∀ j∈st.peers.records, _≠_))
  | .edgeRemove _ => inferInstanceAs (Decidable (∀ j∈st.peers.records, _≠_))
  | .capabilityRemove _ _ => inferInstanceAs (Decidable (∀ j∈st.peers.records, _ → ∀ r∈_, _≠_))
  | .capabilityClear _ => inferInstanceAs (Decidable (∀ j∈st.peers.records, _ → _=[]))
  | .capabilityAdd _ _ | .writeEdge _ _ _ | .writeCap _ _ _ | .peerAdd _ | .updateEdge _ _ _
  | .updateCapability _ _ _ _ => .isTrue trivial

/-- No record of the peer store dangles. -/
def ReferencesValid (st : Stores np ne nc ET CT PT) : Prop := NoDangling st.edges st.peers

/-- Validity is decided by the lists and records of the two stores. -/
instance decidableReferencesValid (st : Stores np ne nc ET CT PT) :
    Decidable (ReferencesValid st) := inferInstanceAs (Decidable (∀ j∈st.peers.records,
    _∈st.edges.edgeResources ∧ _=_ ∧ ∀ r∈_, _∈_ ∧ _=_))

/-- Both stores are well formed. -/
structure Inv (st : Stores np ne nc ET CT PT) : Prop where
  /-- The invariant of the edge store. -/
  edges : WellFormed st.edges
  /-- The invariant of the peer store. -/
  peers : PeersWellFormed st.peers

/-- One admitted operation keeps references valid exactly when it frees
nothing that is referred to. -/
theorem referencesValid_step_iff (h : Inv st) (hP : ReferencesValid st)
    {op : Op np ne nc ET CT} (hop : Admitted st op) :
    ReferencesValid (step env penv st op) ↔ FreesUnreferenced env st op := by
  cases op with
  | edgeAdd addr => exact noDangling_edgeAdd_iff h.edges hP env addr
  | edgeRemove e => exact noDangling_edgeRemove_iff h.edges hP e
  | capabilityAdd e name =>
    exact iff_of_true (hP.capabilityAdd h.edges env hop name) trivial
  | capabilityRemove e c => exact noDangling_capabilityRemove_iff h.edges hP hop c
  | capabilityClear e => exact noDangling_capabilityClear_iff hP e
  | writeEdge e flags tm => exact iff_of_true (hP.writeEdge e flags tm) trivial
  | writeCap c flags tm => exact iff_of_true (hP.writeCap c flags tm) trivial
  | peerAdd addr => exact iff_of_true (hP.peerAdd h.peers penv addr) trivial
  | updateEdge i e tm =>
    exact iff_of_true (hP.updateEdge h.peers penv hop.1 hop.2 tm) trivial
  | updateCapability i e c tm =>
    exact iff_of_true (hP.updateCapability h.peers penv hop.1 hop.2.1 hop.2.2 tm) trivial

/-- Every admitted operation keeps both stores well formed. -/
theorem Inv.step (h : Inv st) (env : EdgeEnv ne nc ET CT) (penv : PeerEnv np ne nc PT)
    {op : Op np ne nc ET CT} (hop : Admitted st op) : Inv (step env penv st op) := by
  cases op with
  | edgeAdd addr => exact ⟨h.edges.edgeAdd env addr,h.peers⟩
  | edgeRemove e => exact ⟨h.edges.edgeRemove e,h.peers⟩
  | capabilityAdd e name => exact ⟨h.edges.capabilityAdd env hop name,h.peers⟩
  | capabilityRemove e c => exact ⟨h.edges.capabilityRemove hop c,h.peers⟩
  | capabilityClear e => exact ⟨h.edges.capabilityClear hop,h.peers⟩
  | writeEdge e flags tm => exact ⟨h.edges.setEdge e rfl,h.peers⟩
  | writeCap c flags tm => exact ⟨h.edges.setCap c _,h.peers⟩
  | peerAdd addr => exact ⟨h.edges,h.peers.peerAdd penv addr⟩
  | updateEdge i e tm => exact ⟨h.edges,h.peers.updateEdge penv hop.1 e tm _⟩
  | updateCapability i e c tm =>
    exact ⟨h.edges,h.peers.updateCapability penv hop.1 e c tm _ _⟩

/-- The stores after their initialisation. -/
def start (np ne nc : ℕ) (edge : Fin ne) (cap : Fin (ne*nc)) (et : ET) (ct : CT) (pt : PT) :
    Stores np ne nc ET CT PT :=
  ⟨edgeInfoInit ne nc et ct,peerInfoInit np ne nc edge cap et ct pt⟩

/-- **References over a whole run.** However edges and capabilities are added,
removed and evicted and however peers report about them, no reference of the
peer store dangles in any reachable state exactly when no step frees an edge
or a capability that a record of a peer refers to at that moment. -/
theorem referencesValid_always_iff (env : EdgeEnv ne nc ET CT) (penv : PeerEnv np ne nc PT)
    (edge : Fin ne) (cap : Fin (ne*nc)) (et : ET) (ct : CT) (pt : PT)
    (ops : List (Op np ne nc ET CT))
    (hops : Along (step env penv) Admitted (start np ne nc edge cap et ct pt) ops) :
    Always (step env penv) ReferencesValid (start np ne nc edge cap et ct pt) ops ↔
      Along (step env penv) (FreesUnreferenced env) (start np ne nc edge cap et ct pt) ops :=
  always_iff_along (fun _ _ hI hA => hI.step env penv hA)
    (fun _ _ hI hP hA => referencesValid_step_iff hI hP hA)
    ⟨wellFormed_init ne nc et ct,peersWellFormed_init edge cap et ct pt⟩
    (fun _ hj => absurd hj List.not_mem_nil) hops

/-- First-fit pools for eight peers, without trust values. -/
def samplePeerEnv : PeerEnv 8 4 3 Unit := ⟨firstFit 8,firstFit 32,firstFit 96,id⟩

/-- An edge with a capability is reported about, and another edge removed. -/
theorem referencesValid_always_iff_sample :
    Always (step sampleEdgeEnv samplePeerEnv) ReferencesValid (start 8 4 3 0 0 () () ())
      [.edgeAdd (sampleAddr 1),.edgeAdd (sampleAddr 2),.capabilityAdd 0 [0x72],
        .peerAdd (sampleAddr 9),.updateEdge 0 0 (),.updateCapability 0 0 0 (),.edgeRemove 1] :=
  (referencesValid_always_iff sampleEdgeEnv samplePeerEnv 0 0 () () ()
    [.edgeAdd (sampleAddr 1),.edgeAdd (sampleAddr 2),.capabilityAdd 0 [0x72],
      .peerAdd (sampleAddr 9),.updateEdge 0 0 (),.updateCapability 0 0 0 (),.edgeRemove 1]
    (by decide)).mpr (by decide)

/-- An edge that a peer reported about is removed and its block given to an
edge with another address, which the old record then refers to. -/
theorem not_referencesValid_of_edge_removed :
    Along (step sampleEdgeEnv samplePeerEnv) Admitted (start 8 4 3 0 0 () () ())
        [.edgeAdd (sampleAddr 1),.peerAdd (sampleAddr 9),.updateEdge 0 0 (),.edgeRemove 0,
          .edgeAdd (sampleAddr 2)] ∧
      ¬Always (step sampleEdgeEnv samplePeerEnv) ReferencesValid (start 8 4 3 0 0 () () ())
        [.edgeAdd (sampleAddr 1),.peerAdd (sampleAddr 9),.updateEdge 0 0 (),.edgeRemove 0,
          .edgeAdd (sampleAddr 2)] := by
  decide

end TrustAlloc.PeerReferences
