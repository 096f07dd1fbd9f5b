import TrustAlloc.EdgeInfo

/-!
# The invariant of the edge store

The used edge blocks are those on the list of edges, the used capability
blocks are those on the lists that hang off these edges, and no edge has more
capabilities than its share. Every operation keeps this. It also follows that
a free capability block is left whenever an edge has not used up its share,
so that no capability is ever evicted.
-/

namespace TrustAlloc.EdgeInfo

open Pools

variable {ne nc : ℕ} {ET CT : Type} {env : EdgeEnv ne nc ET CT} {s : EdgeStore ne nc ET CT}

/-- All capabilities of all listed edges. -/
def EdgeStore.linked (s : EdgeStore ne nc ET CT) : List (Fin (ne*nc)) :=
  s.edgeResources.flatMap fun e => (s.edge e).capabilities

/-- The representation invariant of the edge store. -/
structure WellFormed (s : EdgeStore ne nc ET CT) : Prop where
  /-- Used edge blocks are listed once. -/
  ownsEdges : Owns s.edgeResourcesMemb.used s.edgeResources
  /-- Used capability blocks belong to one listed edge, once. -/
  ownsCaps : Owns s.edgeCapabilitiesMemb.used s.linked
  /-- No edge exceeds its share of capabilities. -/
  bounded : ∀ e∈s.edgeResources, (s.edge e).capabilities.length≤nc

namespace EdgeStore

@[simp] theorem setEdge_edge_same (e : Fin ne) (v : EdgeResource (ne*nc) ET) :
    (s.setEdge e v).edge e=v := s.edgeResourcesMemb.set_mem_same e v

theorem setEdge_edge_other {e e' : Fin ne} (v : EdgeResource (ne*nc) ET) (h : e'≠e) :
    (s.setEdge e v).edge e'=s.edge e' := s.edgeResourcesMemb.set_mem_other v h

@[simp] theorem setEdge_cap (e : Fin ne) (v : EdgeResource (ne*nc) ET) (c : Fin (ne*nc)) :
    (s.setEdge e v).cap c=s.cap c := rfl

@[simp] theorem setCap_edge (c : Fin (ne*nc)) (v : EdgeCapability CT) (e : Fin ne) :
    (s.setCap c v).edge e=s.edge e := rfl

@[simp] theorem setCap_cap_same (c : Fin (ne*nc)) (v : EdgeCapability CT) :
    (s.setCap c v).cap c=v := s.edgeCapabilitiesMemb.set_mem_same c v

theorem setCap_cap_other {c c' : Fin (ne*nc)} (v : EdgeCapability CT) (h : c'≠c) :
    (s.setCap c v).cap c'=s.cap c' := s.edgeCapabilitiesMemb.set_mem_other v h

/-- A capability of a listed edge is linked. -/
theorem mem_linked {e : Fin ne} (he : e∈s.edgeResources) {c : Fin (ne*nc)}
    (hc : c∈(s.edge e).capabilities) : c∈s.linked := List.mem_flatMap.mpr ⟨e,he,hc⟩

end EdgeStore

/-- Rewriting an edge in place with the same capabilities keeps the invariant. -/
theorem WellFormed.setEdge (h : WellFormed s) (e : Fin ne) {v : EdgeResource (ne*nc) ET}
    (hv : v.capabilities=(s.edge e).capabilities) : WellFormed (s.setEdge e v) := by
  have hcaps : ∀ e', ((s.setEdge e v).edge e').capabilities=(s.edge e').capabilities := by
    intro e'
    by_cases he : e'=e
    · subst he
      rw [EdgeStore.setEdge_edge_same,hv]
    · rw [EdgeStore.setEdge_edge_other v he]
  refine ⟨h.ownsEdges,?_,fun e' he' => ?_⟩
  · have hlinked : (s.setEdge e v).linked=s.linked := List.flatMap_congr fun e' _ => hcaps e'
    rw [hlinked]
    exact h.ownsCaps
  · rw [hcaps]
    exact h.bounded e' he'

/-- Rewriting a capability in place keeps the invariant. -/
theorem WellFormed.setCap (h : WellFormed s) (c : Fin (ne*nc)) (v : EdgeCapability CT) :
    WellFormed (s.setCap c v) := ⟨h.ownsEdges,h.ownsCaps,h.bounded⟩

section Removal

/-- Removing a capability of a listed edge keeps the invariant. -/
theorem WellFormed.capabilityRemove (h : WellFormed s) {e : Fin ne} (he : e∈s.edgeResources)
    (c : Fin (ne*nc)) : WellFormed (edgeInfoCapabilityRemove s e c).1 := by
  unfold edgeInfoCapabilityRemove
  split
  · next hc =>
    have hsame := s.setEdge_edge_same e
      {s.edge e with capabilities := (s.edge e).capabilities.erase c}
    have hother : ∀ e', e'≠e → ((s.setEdge e {s.edge e with
        capabilities := (s.edge e).capabilities.erase c}).edge e').capabilities=
          (s.edge e').capabilities := fun e' hne => by rw [EdgeStore.setEdge_edge_other _ hne]
    refine ⟨h.ownsEdges,?_,fun e' he' => ?_⟩
    · have hown := (h.ownsCaps.perm (perm_flatMap_of_mem _ he)).perm
        ((List.perm_cons_erase hc).append_right _)
      have hnew := perm_flatMap_update h.ownsEdges.nodup he hother
      rw [hsame] at hnew
      exact hown.free_head.perm hnew.symm
    · by_cases hne : e'=e
      · subst hne
        change ((s.setEdge e' _).edge e').capabilities.length≤nc
        rw [hsame]
        exact List.length_erase_le.trans (h.bounded e' he')
      · change ((s.setEdge e _).edge e').capabilities.length≤nc
        rw [hother e' hne]
        exact h.bounded e' he'
  · exact h

/-- What is left of the other edges after one edge has been freed. -/
theorem edgeInfoRemove_edge_other {e e' : Fin ne} (hne : e'≠e) :
    (edgeInfoRemove s e).1.edge e'=s.edge e' := by
  unfold edgeInfoRemove
  split
  · exact s.edgeResourcesMemb.set_mem_other _ hne
  · rfl

/-- Removing an edge changes no capability, it only frees blocks. -/
theorem edgeInfoRemove_cap (e : Fin ne) (c : Fin (ne*nc)) :
    (edgeInfoRemove s e).1.cap c=s.cap c := by
  unfold edgeInfoRemove
  split
  · exact congrFun (s.edgeCapabilitiesMemb.freeAll_mem _) c
  · rfl

/-- Removing an edge takes it off the list, where it is at most once. -/
theorem edgeInfoRemove_edgeResources (e : Fin ne) :
    (edgeInfoRemove s e).1.edgeResources=s.edgeResources.erase e := by
  unfold edgeInfoRemove
  split
  · rfl
  · next he => exact (List.erase_of_not_mem he).symm

/-- Removing an edge keeps the invariant. -/
theorem WellFormed.edgeRemove (h : WellFormed s) (e : Fin ne) :
    WellFormed (edgeInfoRemove s e).1 := by
  by_cases he : e∈s.edgeResources
  · have hother : ∀ e', e'≠e →
        ((edgeInfoRemove s e).1.edge e').capabilities=(s.edge e').capabilities :=
      fun e' hne => by rw [edgeInfoRemove_edge_other hne]
    have hlist := edgeInfoRemove_edgeResources (s:=s) e
    refine ⟨?_,?_,fun e' he' => ?_⟩
    · rw [hlist,edgeInfoRemove,if_pos he]
      exact h.ownsEdges.free he
    · have hown := (h.ownsCaps.perm (perm_flatMap_of_mem _ he)).freeAll
      rw [EdgeStore.linked,hlist,flatMap_erase_congr h.ownsEdges.nodup hother,edgeInfoRemove,
        if_pos he]
      exact hown
    · rw [hlist] at he'
      have hne : e'≠e := fun hc => h.ownsEdges.nodup.not_mem_erase (hc ▸ he')
      rw [hother e' hne]
      exact h.bounded e' (List.mem_of_mem_erase he')
  · rw [edgeInfoRemove,if_neg he]
    exact h

/-- Removing a capability leaves the list of edges alone. -/
theorem edgeInfoCapabilityRemove_edgeResources (e : Fin ne) (c : Fin (ne*nc)) :
    (edgeInfoCapabilityRemove s e c).1.edgeResources=s.edgeResources := by
  unfold edgeInfoCapabilityRemove
  split <;> rfl

/-- The capabilities of a listed edge are distinct. -/
theorem nodup_capabilities (h : WellFormed s) {e : Fin ne} (he : e∈s.edgeResources) :
    (s.edge e).capabilities.Nodup := (List.nodup_flatMap.mp h.ownsCaps.nodup).1 e he

/-- Removing a capability takes it off its edge and changes nothing else
but the pool. -/
theorem edgeInfoCapabilityRemove_spec (s : EdgeStore ne nc ET CT) (e : Fin ne)
    (c : Fin (ne*nc)) :
    ((edgeInfoCapabilityRemove s e c).1.edge e).capabilities=(s.edge e).capabilities.erase c ∧
      (∀ e', ((edgeInfoCapabilityRemove s e c).1.edge e').ep=(s.edge e').ep) ∧
      (∀ e', e'≠e → (edgeInfoCapabilityRemove s e c).1.edge e'=s.edge e') ∧
      ∀ c', (edgeInfoCapabilityRemove s e c).1.cap c'=s.cap c' := by
  unfold edgeInfoCapabilityRemove
  split
  · have hsame := s.setEdge_edge_same e
      {s.edge e with capabilities := (s.edge e).capabilities.erase c}
    refine ⟨congrArg EdgeResource.capabilities hsame,fun e' => ?_,
      fun e' hne => s.setEdge_edge_other _ hne,fun c' => rfl⟩
    by_cases hne : e'=e
    · subst hne
      have hep := congrArg EdgeResource.ep hsame
      exact hep
    · exact congrArg EdgeResource.ep (s.setEdge_edge_other _ hne)
  · next hc =>
    exact ⟨(List.erase_of_not_mem hc).symm,fun _ => rfl,fun _ _ => rfl,fun _ => rfl⟩

/-- Clearing removes the capabilities one by one. -/
theorem WellFormed.capabilityClear (h : WellFormed s) {e : Fin ne} (he : e∈s.edgeResources) :
    WellFormed (edgeInfoCapabilityClear s e) := by
  unfold edgeInfoCapabilityClear
  generalize (s.edge e).capabilities=l
  induction l generalizing s with
  | nil => exact h
  | cons c l ih =>
    refine ih (h.capabilityRemove he c) ?_
    rwa [edgeInfoCapabilityRemove_edgeResources]

/-- Clearing leaves an edge without capabilities. -/
theorem edgeInfoCapabilityClear_capabilities (s : EdgeStore ne nc ET CT) (e : Fin ne) :
    ((edgeInfoCapabilityClear s e).edge e).capabilities=[] := by
  have hloop : ∀ (l : List (Fin (ne*nc))) (s : EdgeStore ne nc ET CT),
      (s.edge e).capabilities=l →
      ((l.foldl (fun s c => (edgeInfoCapabilityRemove s e c).1) s).edge e).capabilities=[] := by
    intro l
    induction l with
    | nil => exact fun s h => h
    | cons c l ih =>
      intro s h
      refine ih _ ?_
      rw [(edgeInfoCapabilityRemove_spec s e c).1,h,List.erase_cons_head]
  exact hloop _ s rfl

/-- Clearing changes nothing else but the pool. -/
theorem edgeInfoCapabilityClear_spec (s : EdgeStore ne nc ET CT) (e : Fin ne) :
    (edgeInfoCapabilityClear s e).edgeResources=s.edgeResources ∧
      (∀ e', ((edgeInfoCapabilityClear s e).edge e').ep=(s.edge e').ep) ∧
      (∀ e', e'≠e → (edgeInfoCapabilityClear s e).edge e'=s.edge e') ∧
      ∀ c', (edgeInfoCapabilityClear s e).cap c'=s.cap c' := by
  unfold edgeInfoCapabilityClear
  generalize (s.edge e).capabilities=l
  induction l generalizing s with
  | nil => exact ⟨rfl,fun _ => rfl,fun _ _ => rfl,fun _ => rfl⟩
  | cons c l ih =>
    obtain ⟨hlist,hep,hother,hcap⟩ := ih (edgeInfoCapabilityRemove s e c).1
    obtain ⟨_,hep',hother',hcap'⟩ := edgeInfoCapabilityRemove_spec s e c
    exact ⟨hlist.trans (edgeInfoCapabilityRemove_edgeResources e c),
      fun e' => (hep e').trans (hep' e'),
      fun e' hne => (hother e' hne).trans (hother' e' hne),
      fun c' => (hcap c').trans (hcap' c')⟩

end Removal

section Addition

/-- Fill a free edge block and put it at the front of the list. -/
def EdgeStore.placeEdge (env : EdgeEnv ne nc ET CT) (s : EdgeStore ne nc ET CT) (e : Fin ne)
    (addr : IpAddr) : EdgeStore ne nc ET CT := (s.takeEdge env e).linkEdge e addr

/-- The edge that `edge_info_add` evicts to make room for an address. -/
def evictedEdge (env : EdgeEnv ne nc ET CT) (s : EdgeStore ne nc ET CT) (addr : IpAddr) :
    Option (Fin ne) :=
  if edgeInfoFindAddr s addr=none ∧ env.edgeAllocator.pick s.edgeResourcesMemb.used=none then
    firstInactive s
  else none

/-- Lookup by address finds nothing exactly for unknown addresses. -/
theorem edgeInfoFindAddr_none_iff (addr : IpAddr) :
    edgeInfoFindAddr s addr=none ↔ ∀ e∈s.edgeResources, (s.edge e).ep≠addr := by
  simp [edgeInfoFindAddr]

/-- Lookup by address finds a listed edge with that address. -/
theorem edgeInfoFindAddr_some {addr : IpAddr} {e : Fin ne} (h : edgeInfoFindAddr s addr=some e) :
    e∈s.edgeResources ∧ (s.edge e).ep=addr :=
  ⟨List.mem_of_find?_eq_some h,by simpa using List.find?_some h⟩

/-- An evicted edge is listed and inactive. -/
theorem firstInactive_some {e : Fin ne} (h : firstInactive s=some e) :
    e∈s.edgeResources ∧ edgeInfoIsActive s e=false :=
  ⟨List.mem_of_find?_eq_some h,by simpa using List.find?_some h⟩

/-- The outcomes of `edge_info_add`: known; unknown and no room; placed in a
block that was free; placed after the eviction of an inactive edge. -/
theorem edgeInfoAdd_cases (env : EdgeEnv ne nc ET CT) (s : EdgeStore ne nc ET CT)
    (addr : IpAddr) :
    (evictedEdge env s addr=none ∧
      ∃ e∈s.edgeResources, (s.edge e).ep=addr ∧ edgeInfoAdd env s addr=(s,some e)) ∨
    ((∀ e∈s.edgeResources, (s.edge e).ep≠addr) ∧ evictedEdge env s addr=none ∧
      edgeInfoAdd env s addr=(s,none)) ∨
    ((∀ e∈s.edgeResources, (s.edge e).ep≠addr) ∧ evictedEdge env s addr=none ∧
      ∃ e, s.edgeResourcesMemb.used e=false ∧
        edgeInfoAdd env s addr=(s.placeEdge env e addr,some e)) ∨
    ((∀ e∈s.edgeResources, (s.edge e).ep≠addr) ∧
      ∃ old∈s.edgeResources, edgeInfoIsActive s old=false ∧ evictedEdge env s addr=some old ∧
        ∃ e, (edgeInfoRemove s old).1.edgeResourcesMemb.used e=false ∧
          edgeInfoAdd env s addr=((edgeInfoRemove s old).1.placeEdge env e addr,some e)) := by
  unfold evictedEdge edgeInfoAdd edgeResourceNew freeUpEdgeResource
  cases hf : edgeInfoFindAddr s addr with
  | some e =>
    obtain ⟨he,hep⟩ := edgeInfoFindAddr_some hf
    exact Or.inl ⟨rfl,e,he,hep,rfl⟩
  | none =>
    have hnone := edgeInfoFindAddr_none_iff addr |>.mp hf
    cases hp : env.edgeAllocator.pick s.edgeResourcesMemb.used with
    | some e =>
      exact Or.inr (Or.inr (Or.inl ⟨hnone,rfl,e,env.edgeAllocator.pick_free hp,rfl⟩))
    | none =>
      cases hi : firstInactive s with
      | none => exact Or.inr (Or.inl ⟨hnone,rfl,by simp only [hp]⟩)
      | some old =>
        obtain ⟨hold,hinactive⟩ := firstInactive_some hi
        have hfree : (edgeInfoRemove s old).1.edgeResourcesMemb.used old=false := by
          rw [edgeInfoRemove,if_pos hold]
          exact Memb.free_used_same ..
        obtain ⟨e,he⟩ := Option.isSome_iff_exists.mp
          ((env.edgeAllocator.pick_isSome _).mpr ⟨old,hfree⟩)
        refine Or.inr (Or.inr (Or.inr ⟨hnone,old,hold,hinactive,rfl,e,
          env.edgeAllocator.pick_free he,?_⟩))
        simp only [he]
        rfl

/-- A block that is being filled holds an edge without capabilities. -/
theorem placeEdge_edge_same (e : Fin ne) (addr : IpAddr) :
    (s.placeEdge env e addr).edge e=
      ⟨addr,0,env.edgeResourceTmInit (s.edge e).tm,[]⟩ := by
  have htake : (s.takeEdge env e).edge e=
      {s.edge e with tm := env.edgeResourceTmInit (s.edge e).tm,capabilities := []} :=
    (s.edgeResourcesMemb.take e).set_mem_same e _
  have hlink : (s.placeEdge env e addr).edge e=
      {(s.takeEdge env e).edge e with ep := addr,flags := 0} :=
    EdgeStore.setEdge_edge_same e _
  rw [hlink,htake]

/-- Placing an edge changes no other edge. -/
theorem placeEdge_edge_other (env : EdgeEnv ne nc ET CT) {e e' : Fin ne} (hne : e'≠e)
    (addr : IpAddr) : (s.placeEdge env e addr).edge e'=s.edge e' := by
  have hlink : (s.placeEdge env e addr).edge e'=(s.takeEdge env e).edge e' :=
    EdgeStore.setEdge_edge_other _ hne
  exact hlink.trans ((s.edgeResourcesMemb.take e).set_mem_other _ hne)

/-- Placing an edge changes no capability. -/
theorem placeEdge_cap (e : Fin ne) (addr : IpAddr) (c : Fin (ne*nc)) :
    (s.placeEdge env e addr).cap c=s.cap c := rfl

/-- A placed edge goes to the front of the list. -/
theorem placeEdge_edgeResources (env : EdgeEnv ne nc ET CT) (h : WellFormed s) {e : Fin ne}
    (he : s.edgeResourcesMemb.used e=false) (addr : IpAddr) :
    (s.placeEdge env e addr).edgeResources=e::s.edgeResources :=
  listPush_of_not_mem (h.ownsEdges.not_mem he)

/-- Placing an edge in a free block keeps the invariant. -/
theorem WellFormed.placeEdge (h : WellFormed s) (env : EdgeEnv ne nc ET CT) {e : Fin ne}
    (he : s.edgeResourcesMemb.used e=false) (addr : IpAddr) :
    WellFormed (s.placeEdge env e addr) := by
  have hnot := h.ownsEdges.not_mem he
  have hlist := placeEdge_edgeResources env h he addr
  have hother : ∀ e'∈s.edgeResources,
      ((s.placeEdge env e addr).edge e').capabilities=(s.edge e').capabilities :=
    fun e' he' => by
      have hne : e'≠e := fun hc => hnot (hc ▸ he')
      rw [placeEdge_edge_other env hne]
  refine ⟨?_,?_,fun e' he' => ?_⟩
  · rw [hlist]
    exact h.ownsEdges.take he
  · have hlinked : (s.placeEdge env e addr).linked=s.linked := by
      rw [EdgeStore.linked,hlist,List.flatMap_cons,placeEdge_edge_same,List.nil_append]
      exact List.flatMap_congr hother
    rw [hlinked]
    exact h.ownsCaps
  · rw [hlist] at he'
    rcases List.mem_cons.mp he' with rfl | hold
    · rw [placeEdge_edge_same]
      exact Nat.zero_le nc
    · rw [hother e' hold]
      exact h.bounded e' hold

/-- `edge_info_add` keeps the invariant. -/
theorem WellFormed.edgeAdd (h : WellFormed s) (env : EdgeEnv ne nc ET CT) (addr : IpAddr) :
    WellFormed (edgeInfoAdd env s addr).1 := by
  rcases edgeInfoAdd_cases env s addr with ⟨_,e,_,_,ha⟩ | ⟨_,_,ha⟩ | ⟨_,_,e,he,ha⟩ |
    ⟨_,old,_,_,_,e,he,ha⟩
  · rw [ha]
    exact h
  · rw [ha]
    exact h
  · rw [ha]
    exact h.placeEdge env he addr
  · rw [ha]
    exact (h.edgeRemove old).placeEdge env he addr

/-- An edge that has not used up its share leaves a capability block free. -/
theorem WellFormed.exists_free_cap (h : WellFormed s) {e : Fin ne} (he : e∈s.edgeResources)
    (hlt : (s.edge e).capabilities.length<nc) : ∃ c, s.edgeCapabilitiesMemb.used c=false :=
  h.ownsCaps.exists_free h.ownsEdges.nodup h.bounded he hlt

/-- Fill a free capability block and put it at the front of an edge's list. -/
def EdgeStore.placeCap (env : EdgeEnv ne nc ET CT) (s : EdgeStore ne nc ET CT) (e : Fin ne)
    (c : Fin (ne*nc)) (name : List UInt8) : EdgeStore ne nc ET CT :=
  (s.takeCap env c).linkCap e c name

/-- Lookup of a capability finds one of the edge with that name. -/
theorem edgeInfoCapabilityFind_some {e : Fin ne} {name : List UInt8} {c : Fin (ne*nc)}
    (h : edgeInfoCapabilityFind s e name=some c) :
    c∈(s.edge e).capabilities ∧ (s.cap c).name=name :=
  ⟨List.mem_of_find?_eq_some h,by simpa using List.find?_some h⟩

/-- The outcomes of `edge_info_capability_add` on a listed edge: known; the
share is used up; placed in a block that was free. Nothing is evicted. -/
theorem edgeInfoCapabilityAdd_cases (h : WellFormed s) (env : EdgeEnv ne nc ET CT) {e : Fin ne}
    (he : e∈s.edgeResources) (name : List UInt8) :
    (∃ c∈(s.edge e).capabilities, (s.cap c).name=name ∧
      edgeInfoCapabilityAdd env s e name=(s,some c)) ∨
    (edgeInfoCapabilityFind s e name=none ∧ (s.edge e).capabilities.length=nc ∧
      edgeInfoCapabilityAdd env s e name=(s,none)) ∨
    (edgeInfoCapabilityFind s e name=none ∧ (s.edge e).capabilities.length<nc ∧
      ∃ c, s.edgeCapabilitiesMemb.used c=false ∧
        edgeInfoCapabilityAdd env s e name=(s.placeCap env e c name,some c)) := by
  unfold edgeInfoCapabilityAdd edgeCapabilityNew
  cases hf : edgeInfoCapabilityFind s e name with
  | some c =>
    obtain ⟨hc,hname⟩ := edgeInfoCapabilityFind_some hf
    exact Or.inl ⟨c,hc,hname,rfl⟩
  | none =>
    by_cases hfull : nc≤(s.edge e).capabilities.length
    · exact Or.inr (Or.inl ⟨rfl,le_antisymm (h.bounded e he) hfull,by simp only [if_pos hfull]⟩)
    · obtain ⟨c,hc⟩ := Option.isSome_iff_exists.mp ((env.capabilityAllocator.pick_isSome _).mpr
        (h.exists_free_cap he (not_le.mp hfull)))
      refine Or.inr (Or.inr ⟨rfl,not_le.mp hfull,c,env.capabilityAllocator.pick_free hc,?_⟩)
      simp only [if_neg hfull,hc]
      rfl

/-- A placed capability is the first of its edge, whose other data stay. -/
theorem placeCap_edge_same (env : EdgeEnv ne nc ET CT) (h : WellFormed s) {e : Fin ne}
    (he : e∈s.edgeResources) {c : Fin (ne*nc)} (hc : s.edgeCapabilitiesMemb.used c=false)
    (name : List UInt8) :
    (s.placeCap env e c name).edge e=
      {s.edge e with capabilities := c::(s.edge e).capabilities} := by
  have hnot : c∉(s.edge e).capabilities := fun hm => h.ownsCaps.not_mem hc (s.mem_linked he hm)
  rw [←listPush_of_not_mem hnot]
  exact EdgeStore.setEdge_edge_same e _

/-- Placing a capability changes no other edge. -/
theorem placeCap_edge_other {e e' : Fin ne} (hne : e'≠e) (c : Fin (ne*nc)) (name : List UInt8) :
    (s.placeCap env e c name).edge e'=s.edge e' := EdgeStore.setEdge_edge_other _ hne

/-- Placing a capability changes no other capability. -/
theorem placeCap_cap_other (e : Fin ne) {c c' : Fin (ne*nc)} (hne : c'≠c) (name : List UInt8) :
    (s.placeCap env e c name).cap c'=s.cap c' := by
  have hlink : (s.placeCap env e c name).cap c'=(s.takeCap env c).cap c' :=
    EdgeStore.setCap_cap_other _ hne
  exact hlink.trans ((s.edgeCapabilitiesMemb.take c).set_mem_other _ hne)

/-- Placing a capability in a free block of an edge with room keeps the invariant. -/
theorem WellFormed.placeCap (h : WellFormed s) (env : EdgeEnv ne nc ET CT) {e : Fin ne}
    (he : e∈s.edgeResources) (hlt : (s.edge e).capabilities.length<nc) {c : Fin (ne*nc)}
    (hc : s.edgeCapabilitiesMemb.used c=false) (name : List UInt8) :
    WellFormed (s.placeCap env e c name) := by
  have hsame := placeCap_edge_same env h he hc name
  have hother : ∀ e', e'≠e →
      ((s.placeCap env e c name).edge e').capabilities=(s.edge e').capabilities :=
    fun e' hne => by rw [placeCap_edge_other hne]
  refine ⟨h.ownsEdges,?_,fun e' he' => ?_⟩
  · have hnew := perm_flatMap_update h.ownsEdges.nodup he hother
    rw [hsame] at hnew
    exact ((h.ownsCaps.perm (perm_flatMap_of_mem _ he)).take hc).perm hnew.symm
  · by_cases hne : e'=e
    · subst hne
      rw [hsame]
      exact hlt
    · rw [hother e' hne]
      exact h.bounded e' he'

/-- `edge_info_capability_add` on a listed edge keeps the invariant. -/
theorem WellFormed.capabilityAdd (h : WellFormed s) (env : EdgeEnv ne nc ET CT) {e : Fin ne}
    (he : e∈s.edgeResources) (name : List UInt8) :
    WellFormed (edgeInfoCapabilityAdd env s e name).1 := by
  rcases edgeInfoCapabilityAdd_cases h env he name with ⟨c,_,_,ha⟩ | ⟨_,_,ha⟩ | ⟨_,hlt,c,hc,ha⟩
  · rw [ha]
    exact h
  · rw [ha]
    exact h
  · rw [ha]
    exact h.placeCap env he hlt hc name

end Addition

/-- The empty store is well formed. -/
theorem wellFormed_init (ne nc : ℕ) (et : ET) (ct : CT) :
    WellFormed (edgeInfoInit ne nc et ct) :=
  ⟨⟨List.nodup_nil,fun e => by simp [edgeInfoInit]⟩,
    ⟨List.nodup_nil,fun c => by simp [edgeInfoInit,EdgeStore.linked]⟩,
    fun e he => absurd he List.not_mem_nil⟩

end TrustAlloc.EdgeInfo
