import TrustAlloc.EdgeInvariants
import TrustAlloc.Runs

/-!
# The edge store over whole runs

Addresses tell the listed edges apart, and names tell the capabilities of one
edge apart. Together with the ownership of the two pools this makes the two
adding operations exact: a capability is refused only when the edge has used
up its share, and an edge is refused only when the store is full of active
edges. Nothing but the first inactive edge ever makes room.
-/

namespace TrustAlloc.EdgeStoreRuns

open EdgeInfo Pools Runs

variable {ne nc : ℕ} {ET CT : Type} {env : EdgeEnv ne nc ET CT} {s s' : EdgeStore ne nc ET CT}

/-- Addresses tell edges apart, and names the capabilities of one edge. -/
structure Distinct (s : EdgeStore ne nc ET CT) : Prop where
  /-- Listed edges with the same address are the same. -/
  addresses : ∀ e∈s.edgeResources, ∀ e'∈s.edgeResources, (s.edge e).ep=(s.edge e').ep → e=e'
  /-- Capabilities of one edge with the same name are the same. -/
  names : ∀ e∈s.edgeResources, ∀ c∈(s.edge e).capabilities, ∀ c'∈(s.edge e).capabilities,
    (s.cap c).name=(s.cap c').name → c=c'

/-- Distinctness carries over to a store that has no more edges and no more
capabilities, under the same addresses and names. -/
theorem Distinct.transfer (h : Distinct s) (hlist : ∀ e∈s'.edgeResources, e∈s.edgeResources)
    (hep : ∀ e∈s'.edgeResources, (s'.edge e).ep=(s.edge e).ep)
    (hcaps : ∀ e∈s'.edgeResources, ∀ c∈(s'.edge e).capabilities, c∈(s.edge e).capabilities)
    (hname : ∀ c, (s'.cap c).name=(s.cap c).name) : Distinct s' := by
  constructor
  · intro e he e' he' heq
    rw [hep e he,hep e' he'] at heq
    exact h.addresses e (hlist e he) e' (hlist e' he') heq
  · intro e he c hc c' hc' heq
    rw [hname,hname] at heq
    exact h.names e (hlist e he) c (hcaps e he c hc) c' (hcaps e he c' hc') heq

/-- The representation of the edge store: the ownership of both pools,
distinct addresses and names, and unlisted edges without capabilities. -/
structure Represented (s : EdgeStore ne nc ET CT) : Prop where
  /-- Ownership of the pools and bounded shares. -/
  wellFormed : WellFormed s
  /-- Distinct addresses and names. -/
  distinct : Distinct s
  /-- An edge that is not listed has no capabilities. -/
  idle : ∀ e∉s.edgeResources, (s.edge e).capabilities=[]

section InPlace

/-- Rewriting an edge in place keeps the representation. -/
theorem Represented.setEdge (h : Represented s) (e : Fin ne) {v : EdgeResource (ne*nc) ET}
    (hep : v.ep=(s.edge e).ep) (hcaps : v.capabilities=(s.edge e).capabilities) :
    Represented (s.setEdge e v) := by
  have hsame : ∀ e', ((s.setEdge e v).edge e').ep=(s.edge e').ep ∧
      ((s.setEdge e v).edge e').capabilities=(s.edge e').capabilities := by
    intro e'
    by_cases he : e'=e
    · subst he
      rw [EdgeStore.setEdge_edge_same]
      exact ⟨hep,hcaps⟩
    · rw [EdgeStore.setEdge_edge_other v he]
      exact ⟨rfl,rfl⟩
  refine ⟨h.wellFormed.setEdge e hcaps,h.distinct.transfer (fun _ he => he)
    (fun e' _ => (hsame e').1) (fun e' _ c hc => (hsame e').2 ▸ hc) fun _ => rfl,fun e' he' => ?_⟩
  rw [(hsame e').2]
  exact h.idle e' he'

/-- Rewriting a capability in place keeps the representation. -/
theorem Represented.setCap (h : Represented s) (c : Fin (ne*nc)) {v : EdgeCapability CT}
    (hname : v.name=(s.cap c).name) : Represented (s.setCap c v) := by
  refine ⟨h.wellFormed.setCap c v,h.distinct.transfer (fun _ he => he) (fun _ _ => rfl)
    (fun _ _ _ hc => hc) fun c' => ?_,h.idle⟩
  by_cases hc : c'=c
  · subst hc
    rw [EdgeStore.setCap_cap_same,hname]
  · rw [EdgeStore.setCap_cap_other v hc]

end InPlace

section Removal

/-- What removing a capability leaves of an edge. -/
theorem edgeInfoCapabilityRemove_edge (e e' : Fin ne) (c : Fin (ne*nc)) :
    ((edgeInfoCapabilityRemove s e c).1.edge e').ep=(s.edge e').ep ∧
      ∀ c'∈((edgeInfoCapabilityRemove s e c).1.edge e').capabilities,
        c'∈(s.edge e').capabilities := by
  obtain ⟨hcaps,hep,hother,-⟩ := edgeInfoCapabilityRemove_spec s e c
  refine ⟨hep e',fun c' hc' => ?_⟩
  by_cases he : e'=e
  · subst he
    rw [hcaps] at hc'
    exact List.mem_of_mem_erase hc'
  · rwa [hother e' he] at hc'

/-- Removing a capability leaves the contents of all capability blocks. -/
theorem edgeInfoCapabilityRemove_cap (e : Fin ne) (c c' : Fin (ne*nc)) :
    (edgeInfoCapabilityRemove s e c).1.cap c'=s.cap c' := by
  unfold edgeInfoCapabilityRemove
  split <;> rfl

/-- `edge_info_capability_remove` keeps the representation, whatever edge it is given. -/
theorem Represented.capabilityRemove (h : Represented s) (e : Fin ne) (c : Fin (ne*nc)) :
    Represented (edgeInfoCapabilityRemove s e c).1 := by
  by_cases he : e∈s.edgeResources
  · have hlist := edgeInfoCapabilityRemove_edgeResources (s:=s) e c
    refine ⟨h.wellFormed.capabilityRemove he c,h.distinct.transfer (fun e' he' => hlist ▸ he')
      (fun e' _ => (edgeInfoCapabilityRemove_edge e e' c).1)
      (fun e' _ => (edgeInfoCapabilityRemove_edge e e' c).2)
      fun c' => by rw [edgeInfoCapabilityRemove_cap],fun e' he' => ?_⟩
    rw [hlist] at he'
    refine List.eq_nil_iff_forall_not_mem.mpr fun c' hc' => ?_
    have hold := (edgeInfoCapabilityRemove_edge e e' c).2 c' hc'
    rw [h.idle e' he'] at hold
    cases hold
  · have hnot : c∉(s.edge e).capabilities := by
      rw [h.idle e he]
      exact List.not_mem_nil
    rw [edgeInfoCapabilityRemove,if_neg hnot]
    exact h

/-- `edge_info_capability_remove_by_name` keeps the representation. -/
theorem Represented.capabilityRemoveByName (h : Represented s) (e : Fin ne) (name : List UInt8) :
    Represented (edgeInfoCapabilityRemoveByName s e name).1 := by
  unfold edgeInfoCapabilityRemoveByName
  split
  · exact h.capabilityRemove e _
  · exact h

/-- `edge_info_capability_clear` keeps the representation. -/
theorem Represented.capabilityClear (h : Represented s) (e : Fin ne) :
    Represented (edgeInfoCapabilityClear s e) := by
  unfold edgeInfoCapabilityClear
  generalize (s.edge e).capabilities=l
  induction l generalizing s with
  | nil => exact h
  | cons c l ih => exact ih (h.capabilityRemove e c)

/-- The block of a removed edge has no capabilities any more. -/
theorem edgeInfoRemove_edge_same {e : Fin ne} (he : e∈s.edgeResources) :
    ((edgeInfoRemove s e).1.edge e).capabilities=[] := by
  rw [edgeInfoRemove,if_pos he]
  exact congrArg EdgeResource.capabilities (s.edgeResourcesMemb.set_mem_same e _)

/-- `edge_info_remove` keeps the representation, whatever edge it is given. -/
theorem Represented.edgeRemove (h : Represented s) (e : Fin ne) :
    Represented (edgeInfoRemove s e).1 := by
  have hlist := edgeInfoRemove_edgeResources (s:=s) e
  have hnot : e∉(edgeInfoRemove s e).1.edgeResources := by
    rw [hlist]
    exact h.wellFormed.ownsEdges.nodup.not_mem_erase
  have hother : ∀ e'∈(edgeInfoRemove s e).1.edgeResources,
      (edgeInfoRemove s e).1.edge e'=s.edge e' := fun e' he' =>
    edgeInfoRemove_edge_other fun heq => hnot (heq ▸ he')
  refine ⟨h.wellFormed.edgeRemove e,h.distinct.transfer
    (fun e' he' => List.mem_of_mem_erase (hlist ▸ he')) (fun e' he' => by rw [hother e' he'])
    (fun e' he' c hc => by rwa [hother e' he'] at hc) fun c => by rw [edgeInfoRemove_cap],
    fun e' he' => ?_⟩
  by_cases heq : e'=e
  · subst heq
    by_cases he : e'∈s.edgeResources
    · exact edgeInfoRemove_edge_same he
    · rw [edgeInfoRemove,if_neg he]
      exact h.idle e' he
  · rw [edgeInfoRemove_edge_other heq]
    rw [hlist,List.mem_erase_of_ne heq] at he'
    exact h.idle e' he'

end Removal

section Addition

/-- Placing an edge with a new address keeps addresses and names distinct. -/
theorem Represented.placeEdge (h : Represented s) (env : EdgeEnv ne nc ET CT) {e : Fin ne}
    (he : s.edgeResourcesMemb.used e=false) {addr : IpAddr}
    (hnew : ∀ e'∈s.edgeResources, (s.edge e').ep≠addr) :
    Represented (s.placeEdge env e addr) := by
  have hlist := placeEdge_edgeResources env h.wellFormed he addr
  have hsame : (s.placeEdge env e addr).edge e=_ := placeEdge_edge_same e addr
  have hother : ∀ e'∈s.edgeResources, (s.placeEdge env e addr).edge e'=s.edge e' :=
    fun e' he' => by
      have hne := h.wellFormed.ownsEdges.ne_of_mem he' he
      exact placeEdge_edge_other env hne addr
  refine ⟨h.wellFormed.placeEdge env he addr,⟨?_,?_⟩,fun e' he' => ?_⟩
  · have hep : ∀ e'∈s.edgeResources, ((s.placeEdge env e addr).edge e').ep≠addr :=
      fun e' he' => by
        rw [hother e' he']
        exact hnew e' he'
    rw [hlist]
    intro a ha b hb heq
    rcases List.mem_cons.mp ha with rfl | ha' <;> rcases List.mem_cons.mp hb with rfl | hb'
    · rfl
    · rw [hsame] at heq
      exact absurd heq.symm (hep b hb')
    · rw [hsame] at heq
      exact absurd heq (hep a ha')
    · rw [hother a ha',hother b hb'] at heq
      exact h.distinct.addresses a ha' b hb' heq
  · rw [hlist]
    intro a ha c hc c' hc' heq
    rcases List.mem_cons.mp ha with rfl | ha'
    · rw [hsame] at hc
      cases hc
    · rw [hother a ha'] at hc hc'
      exact h.distinct.names a ha' c hc c' hc' heq
  · rw [hlist,List.mem_cons,not_or] at he'
    rw [placeEdge_edge_other env he'.1]
    exact h.idle e' he'.2

/-- `edge_info_add` keeps the representation. -/
theorem Represented.edgeAdd (h : Represented s) (env : EdgeEnv ne nc ET CT) (addr : IpAddr) :
    Represented (edgeInfoAdd env s addr).1 := by
  rcases edgeInfoAdd_cases env s addr with ⟨_,e,_,_,ha⟩ | ⟨_,_,ha⟩ | ⟨hnew,_,e,he,ha⟩ |
    ⟨hnew,old,_,_,_,e,he,ha⟩
  · rw [ha]
    exact h
  · rw [ha]
    exact h
  · rw [ha]
    exact h.placeEdge env he hnew
  · rw [ha]
    refine (h.edgeRemove old).placeEdge env he fun e' he' => ?_
    rw [edgeInfoRemove_edgeResources] at he'
    have hne : e'≠old := fun heq =>
      h.wellFormed.ownsEdges.nodup.not_mem_erase (heq ▸ he')
    rw [edgeInfoRemove_edge_other hne]
    exact hnew e' (List.mem_of_mem_erase he')

/-- A placed capability has the given name, cut to the length of its field. -/
theorem placeCap_name (e : Fin ne) (c : Fin (ne*nc)) (name : List UInt8) :
    ((s.placeCap env e c name).cap c).name=name.take edgeCapabilityNameLen := by
  have hlink : (s.placeCap env e c name).cap c=
      {(s.takeCap env c).cap c with name := name.take edgeCapabilityNameLen,flags := 0} :=
    EdgeStore.setCap_cap_same c _
  rw [hlink]

/-- Lookup of a capability finds nothing exactly for unknown names. -/
theorem edgeInfoCapabilityFind_none_iff (e : Fin ne) (name : List UInt8) :
    edgeInfoCapabilityFind s e name=none ↔ ∀ c∈(s.edge e).capabilities, (s.cap c).name≠name := by
  simp [edgeInfoCapabilityFind]

/-- Placing a capability with a new name keeps addresses and names distinct. -/
theorem Represented.placeCap (h : Represented s) (env : EdgeEnv ne nc ET CT) {e : Fin ne}
    (he : e∈s.edgeResources) (hlt : (s.edge e).capabilities.length<nc) {c : Fin (ne*nc)}
    (hc : s.edgeCapabilitiesMemb.used c=false) {name : List UInt8}
    (hlen : name.length≤edgeCapabilityNameLen)
    (hnew : ∀ c'∈(s.edge e).capabilities, (s.cap c').name≠name) :
    Represented (s.placeCap env e c name) := by
  have hsame := placeCap_edge_same env h.wellFormed he hc name
  have hother : ∀ e', e'≠e → (s.placeCap env e c name).edge e'=s.edge e' :=
    fun e' hne => placeCap_edge_other hne c name
  have hname : ((s.placeCap env e c name).cap c).name=name := by
    rw [placeCap_name,List.take_of_length_le hlen]
  have hlinked : ∀ e'∈s.edgeResources, ∀ c'∈(s.edge e').capabilities,
      (s.placeCap env e c name).cap c'=s.cap c' := fun e' he' c' hc' => by
    have hne := h.wellFormed.ownsCaps.ne_of_mem (s.mem_linked he' hc') hc
    exact placeCap_cap_other e hne name
  have hep : ∀ e', ((s.placeCap env e c name).edge e').ep=(s.edge e').ep := by
    intro e'
    by_cases heq : e'=e
    · subst heq
      rw [hsame]
    · rw [hother e' heq]
  refine ⟨h.wellFormed.placeCap env he hlt hc name,⟨?_,?_⟩,fun e' he' => ?_⟩
  · intro a ha b hb heq
    rw [hep,hep] at heq
    exact h.distinct.addresses a ha b hb heq
  · intro a ha x hx y hy heq
    by_cases hae : a=e
    · subst hae
      rw [hsame] at hx hy
      rcases List.mem_cons.mp hx with rfl | hx' <;> rcases List.mem_cons.mp hy with rfl | hy'
      · rfl
      · rw [hname,hlinked a he y hy'] at heq
        exact absurd heq.symm (hnew y hy')
      · rw [hname,hlinked a he x hx'] at heq
        exact absurd heq (hnew x hx')
      · rw [hlinked a he x hx',hlinked a he y hy'] at heq
        exact h.distinct.names a he x hx' y hy' heq
    · rw [hother a hae] at hx hy
      rw [hlinked a ha x hx,hlinked a ha y hy] at heq
      exact h.distinct.names a ha x hx y hy heq
  · have hne : e'≠e := fun heq => he' (heq ▸ he)
    rw [hother e' hne]
    exact h.idle e' he'

/-- `edge_info_capability_add` on a listed edge keeps the representation. -/
theorem Represented.capabilityAdd (h : Represented s) (env : EdgeEnv ne nc ET CT) {e : Fin ne}
    (he : e∈s.edgeResources) {name : List UInt8} (hlen : name.length≤edgeCapabilityNameLen) :
    Represented (edgeInfoCapabilityAdd env s e name).1 := by
  rcases edgeInfoCapabilityAdd_cases h.wellFormed env he name with
    ⟨c,_,_,ha⟩ | ⟨_,_,ha⟩ | ⟨hnone,hlt,c,hc,ha⟩
  · rw [ha]
    exact h
  · rw [ha]
    exact h
  · rw [ha]
    exact h.placeCap env he hlt hc hlen ((edgeInfoCapabilityFind_none_iff e name).mp hnone)

end Addition

section Exactness

/-- Every block of the pool of edges is in use. -/
def Full (s : EdgeStore ne nc ET CT) : Prop := ∀ e, s.edgeResourcesMemb.used e=true

/-- Being full is decided by the use flags. -/
instance decidableFull (s : EdgeStore ne nc ET CT) : Decidable (Full s) :=
  inferInstanceAs (Decidable (∀ _,_))

/-- `edge_info_capability_add` on a listed edge succeeds exactly when the edge
has the name or room for it. What it returns is then a capability of the edge
under that name, if the name fits its field. It adds nothing else, takes nothing
away from any edge, and writes only when the name is new and there is room. -/
def CapabilityAddExact (env : EdgeEnv ne nc ET CT) (s : EdgeStore ne nc ET CT) : Prop :=
  ∀ e∈s.edgeResources, ∀ name,
    ((edgeInfoCapabilityAdd env s e name).2≠none ↔
      (∃ c∈(s.edge e).capabilities, (s.cap c).name=name) ∨ (s.edge e).capabilities.length<nc) ∧
    ((∃ c∈(s.edge e).capabilities, (s.cap c).name=name) ∨
      (edgeInfoCapabilityAdd env s e name).2=none → (edgeInfoCapabilityAdd env s e name).1=s) ∧
    (∀ c, (edgeInfoCapabilityAdd env s e name).2=some c → name.length≤edgeCapabilityNameLen →
      c∈((edgeInfoCapabilityAdd env s e name).1.edge e).capabilities ∧
      ((edgeInfoCapabilityAdd env s e name).1.cap c).name=name) ∧
    (edgeInfoCapabilityAdd env s e name).1.edgeResources=s.edgeResources ∧
    (∀ e'∈s.edgeResources, ((edgeInfoCapabilityAdd env s e name).1.edge e').ep=(s.edge e').ep ∧
      ∀ c∈((edgeInfoCapabilityAdd env s e name).1.edge e').capabilities,
        c∈(s.edge e').capabilities ∨ e'=e ∧ (edgeInfoCapabilityAdd env s e name).2=some c) ∧
    ∀ e'∈s.edgeResources, ∀ c∈(s.edge e').capabilities,
      c∈((edgeInfoCapabilityAdd env s e name).1.edge e').capabilities ∧
      (edgeInfoCapabilityAdd env s e name).1.cap c=s.cap c

/-- The store has the new edge in front of the given ones, with the address and
without capabilities; the given ones are as before with all their capabilities. -/
structure AddedTo (s s' : EdgeStore ne nc ET CT) (addr : IpAddr) (e : Fin ne)
    (kept : List (Fin ne)) : Prop where
  /-- The edge was not among the given ones. -/
  fresh : e∉kept
  /-- It is listed in front of them. -/
  listed : s'.edgeResources=e::kept
  /-- It has the address. -/
  ep : (s'.edge e).ep=addr
  /-- It has no capabilities. -/
  bare : (s'.edge e).capabilities=[]
  /-- The others keep everything. -/
  others : ∀ e'∈kept, s'.edge e'=s.edge e' ∧ ∀ c∈(s.edge e').capabilities, s'.cap c=s.cap c

/-- `edge_info_add` gives back the edge of an address that is there. Of a new
address it fails exactly on a store that is full of active edges, and then it
changes nothing; else it adds the edge, and only on a full store it removes
another one, the first that is inactive. -/
def EdgeAddExact (env : EdgeEnv ne nc ET CT) (s : EdgeStore ne nc ET CT) : Prop :=
  (∀ e∈s.edgeResources, edgeInfoAdd env s (s.edge e).ep=(s,some e)) ∧
  ∀ addr, (∀ e∈s.edgeResources, (s.edge e).ep≠addr) →
    ((edgeInfoAdd env s addr).2=none ↔
      Full s ∧ ∀ e∈s.edgeResources, edgeInfoIsActive s e=true) ∧
    ((edgeInfoAdd env s addr).2=none → (edgeInfoAdd env s addr).1=s) ∧
    ∀ e, (edgeInfoAdd env s addr).2=some e →
      (¬Full s ∧ AddedTo s (edgeInfoAdd env s addr).1 addr e s.edgeResources) ∨
      (Full s ∧ ∃ old, firstInactive s=some old ∧
        AddedTo s (edgeInfoAdd env s addr).1 addr e (s.edgeResources.erase old))

/-- The removing operations take away the given edge or capability, the
capability with the given name, or all of an edge's capabilities, if they are
there, and leave the other edges as they are. -/
structure RemoveExact (s : EdgeStore ne nc ET CT) : Prop where
  /-- `edge_info_remove`. -/
  edge : ∀ e, ((edgeInfoRemove s e).2=true ↔ e∈s.edgeResources) ∧
    (edgeInfoRemove s e).1.edgeResources=s.edgeResources.erase e ∧
      ∀ e'≠e, (edgeInfoRemove s e).1.edge e'=s.edge e'
  /-- `edge_info_capability_remove`. -/
  capability : ∀ e c, ((edgeInfoCapabilityRemove s e c).2=true ↔ c∈(s.edge e).capabilities) ∧
    ((edgeInfoCapabilityRemove s e c).1.edge e).capabilities=(s.edge e).capabilities.erase c ∧
      ∀ e'≠e, (edgeInfoCapabilityRemove s e c).1.edge e'=s.edge e'
  /-- `edge_info_capability_remove_by_name`. -/
  named : ∀ e name, ((edgeInfoCapabilityRemoveByName s e name).2=true ↔
      ∃ c∈(s.edge e).capabilities, (s.cap c).name=name) ∧
    (∀ c, c∈((edgeInfoCapabilityRemoveByName s e name).1.edge e).capabilities ↔
      c∈(s.edge e).capabilities ∧ (s.cap c).name≠name) ∧
        ∀ e'≠e, (edgeInfoCapabilityRemoveByName s e name).1.edge e'=s.edge e'
  /-- `edge_info_capability_clear`. -/
  clear : ∀ e, ((edgeInfoCapabilityClear s e).edge e).capabilities=[] ∧
    ∀ e'≠e, (edgeInfoCapabilityClear s e).edge e'=s.edge e'

/-- The allocator gives up exactly on a full store. -/
theorem pick_none_iff_full (env : EdgeEnv ne nc ET CT) (s : EdgeStore ne nc ET CT) :
    env.edgeAllocator.pick s.edgeResourcesMemb.used=none ↔ Full s := by
  constructor
  · exact env.edgeAllocator.pick_none
  · intro hfull
    cases hp : env.edgeAllocator.pick s.edgeResourcesMemb.used with
    | none => rfl
    | some e =>
      have hfree := env.edgeAllocator.pick_free hp
      rw [hfull e] at hfree
      cases hfree

/-- There is no first inactive edge exactly when all edges are active. -/
theorem firstInactive_none_iff :
    firstInactive s=none ↔ ∀ e∈s.edgeResources, edgeInfoIsActive s e=true := by
  simp [firstInactive]

/-- For a new address an eviction is due exactly on a full store. -/
theorem evictedEdge_of_new (env : EdgeEnv ne nc ET CT) {addr : IpAddr}
    (hnew : ∀ e∈s.edgeResources, (s.edge e).ep≠addr) :
    evictedEdge env s addr=if Full s then firstInactive s else none := by
  have hfind := (edgeInfoFindAddr_none_iff addr).mpr hnew
  unfold evictedEdge
  by_cases hfull : Full s
  · rw [if_pos ⟨hfind,(pick_none_iff_full env s).mpr hfull⟩,if_pos hfull]
  · rw [if_neg fun h => hfull ((pick_none_iff_full env s).mp h.2),if_neg hfull]

/-- In a well-formed store a capability is added exactly when there is room. -/
theorem capabilityAddExact (h : WellFormed s) (env : EdgeEnv ne nc ET CT) :
    CapabilityAddExact env s := by
  intro e he name
  rcases edgeInfoCapabilityAdd_cases h env he name with
    ⟨c,hc,hname,ha⟩ | ⟨hnone,hfull,ha⟩ | ⟨hnone,hlt,c,hc,ha⟩ <;> rw [ha]
  · refine ⟨iff_of_true (Option.some_ne_none c) (Or.inl ⟨c,hc,hname⟩),fun _ => rfl,
      fun c' hc' _ => ?_,rfl,fun _ _ => ⟨rfl,fun _ hc' => Or.inl hc'⟩,fun _ _ _ hc' => ⟨hc',rfl⟩⟩
    cases hc'
    exact ⟨hc,hname⟩
  · refine ⟨iff_of_false (fun hne => hne rfl) ?_,fun _ => rfl,fun c' hc' => (nomatch hc'),rfl,
      fun _ _ => ⟨rfl,fun _ hc' => Or.inl hc'⟩,fun _ _ _ hc' => ⟨hc',rfl⟩⟩
    rintro (⟨c,hc,hname⟩ | hlt)
    · exact (edgeInfoCapabilityFind_none_iff e name).mp hnone c hc hname
    · exact absurd hfull hlt.ne
  · have hnew := (edgeInfoCapabilityFind_none_iff e name).mp hnone
    have hsame := placeCap_edge_same env h he hc name
    refine ⟨iff_of_true (Option.some_ne_none c) (Or.inr hlt),?_,fun c' hc' hlen => ?_,rfl,
      fun e' _ => ?_,fun e' he' c' hc' => ⟨?_,?_⟩⟩
    · rintro (⟨c',hc',hname⟩ | hno)
      · exact absurd hname (hnew c' hc')
      · cases hno
    · cases hc'
      rw [hsame,placeCap_name,List.take_of_length_le hlen]
      exact ⟨List.mem_cons_self,rfl⟩
    · by_cases heq : e'=e
      · subst heq
        rw [hsame]
        refine ⟨rfl,fun c' hc' => ?_⟩
        rcases List.mem_cons.mp hc' with rfl | hold
        · exact Or.inr ⟨rfl,rfl⟩
        · exact Or.inl hold
      · rw [placeCap_edge_other heq]
        exact ⟨rfl,fun _ hc' => Or.inl hc'⟩
    · by_cases heq : e'=e
      · subst heq
        rw [hsame]
        exact List.mem_cons_of_mem c hc'
      · rwa [placeCap_edge_other heq]
    · have hne := h.ownsCaps.ne_of_mem (s.mem_linked he' hc') hc
      exact placeCap_cap_other e hne name

/-- A placed edge is added to the listed ones. -/
theorem addedTo_placeEdge (h : WellFormed s) (env : EdgeEnv ne nc ET CT) {e : Fin ne}
    (he : s.edgeResourcesMemb.used e=false) (addr : IpAddr) :
    AddedTo s (s.placeEdge env e addr) addr e s.edgeResources where
  fresh := h.ownsEdges.not_mem he
  listed := placeEdge_edgeResources env h he addr
  ep := by rw [placeEdge_edge_same]
  bare := by rw [placeEdge_edge_same]
  others e' he' := ⟨placeEdge_edge_other env (h.ownsEdges.ne_of_mem he' he) addr,fun _ _ => rfl⟩

/-- A store that refuses a new address is full. -/
theorem full_of_add_none {addr : IpAddr} (hnew : ∀ e∈s.edgeResources, (s.edge e).ep≠addr)
    (ha : (edgeInfoAdd env s addr).2=none) : Full s := by
  by_contra hfull
  obtain ⟨e,he⟩ : ∃ e, s.edgeResourcesMemb.used e=false := by simpa [Full] using hfull
  have hfind := (edgeInfoFindAddr_none_iff addr).mpr hnew
  obtain ⟨i,hi⟩ := Option.isSome_iff_exists.mp ((env.edgeAllocator.pick_isSome _).mpr ⟨e,he⟩)
  simp [edgeInfoAdd,hfind,edgeResourceNew,hi] at ha

/-- The edge of an address that is there is given back. -/
theorem edgeInfoAdd_of_mem (h : Distinct s) (env : EdgeEnv ne nc ET CT) {e : Fin ne}
    (he : e∈s.edgeResources) : edgeInfoAdd env s (s.edge e).ep=(s,some e) := by
  rcases edgeInfoAdd_cases env s (s.edge e).ep with ⟨_,e',he',hep,ha⟩ | ⟨hnew,_⟩ | ⟨hnew,_⟩ |
    ⟨hnew,_⟩
  · rw [ha,h.addresses e' he' e he hep]
  · exact absurd rfl (hnew e he)
  · exact absurd rfl (hnew e he)
  · exact absurd rfl (hnew e he)

/-- In a represented store an edge is added exactly when there is room or an
inactive edge to evict. -/
theorem edgeAddExact (hs : Represented s) (env : EdgeEnv ne nc ET CT) : EdgeAddExact env s := by
  have h := hs.wellFormed
  refine ⟨fun e he => edgeInfoAdd_of_mem hs.distinct env he,fun addr hnew => ?_⟩
  have hevict := evictedEdge_of_new env hnew
  rcases edgeInfoAdd_cases env s addr with ⟨_,e,he,hep,_⟩ | ⟨_,hno,ha⟩ | ⟨_,_,e,he,ha⟩ |
    ⟨_,old,hold,hinactive,hev,e,he,ha⟩
  · exact absurd hep (hnew e he)
  · rw [ha]
    have hfull := full_of_add_none hnew (congrArg Prod.snd ha)
    rw [hno,if_pos hfull] at hevict
    exact ⟨iff_of_true rfl ⟨hfull,firstInactive_none_iff.mp hevict.symm⟩,fun _ => rfl,
      fun _ hc => (nomatch hc)⟩
  · rw [ha]
    have hfull : ¬Full s := fun hf => by
      rw [hf e] at he
      cases he
    refine ⟨iff_of_false (Option.some_ne_none e) fun hf => hfull hf.1,
      fun hc => absurd hc (Option.some_ne_none e),fun e' he' => ?_⟩
    cases he'
    exact Or.inl ⟨hfull,addedTo_placeEdge h env he addr⟩
  · rw [ha]
    have hfull : Full s := by
      by_contra hf
      rw [hev,if_neg hf] at hevict
      cases hevict
    rw [hev,if_pos hfull] at hevict
    refine ⟨iff_of_false (Option.some_ne_none e) fun hf => ?_,
      fun hc => absurd hc (Option.some_ne_none e),fun e' he' => ?_⟩
    · rw [hf.2 old hold] at hinactive
      cases hinactive
    · cases he'
      have hadded := addedTo_placeEdge (h.edgeRemove old) env he addr
      rw [edgeInfoRemove_edgeResources] at hadded
      refine Or.inr ⟨hfull,old,hevict.symm,{hadded with others := fun e' he' => ?_}⟩
      have hne : e'≠old := fun heq => h.ownsEdges.nodup.not_mem_erase (heq ▸ he')
      obtain ⟨hedge,hcap⟩ := hadded.others e' he'
      rw [edgeInfoRemove_edge_other hne] at hedge hcap
      exact ⟨hedge,fun c hc => (hcap c hc).trans (edgeInfoRemove_cap old c)⟩

/-- A capability is removed exactly if the edge has it. -/
theorem edgeInfoCapabilityRemove_ok (s : EdgeStore ne nc ET CT) (e : Fin ne) (c : Fin (ne*nc)) :
    (edgeInfoCapabilityRemove s e c).2=true ↔ c∈(s.edge e).capabilities := by
  unfold edgeInfoCapabilityRemove
  split_ifs with hc
  · exact iff_of_true rfl hc
  · exact iff_of_false nofun hc

/-- A capability is found by its name if the edge has one. -/
theorem capabilityRemoveByName_exact (hs : Represented s) (e : Fin ne) (name : List UInt8) :
    ((edgeInfoCapabilityRemoveByName s e name).2=true ↔
        ∃ c∈(s.edge e).capabilities, (s.cap c).name=name) ∧
      (∀ c, c∈((edgeInfoCapabilityRemoveByName s e name).1.edge e).capabilities ↔
        c∈(s.edge e).capabilities ∧ (s.cap c).name≠name) ∧
          ∀ e'≠e, (edgeInfoCapabilityRemoveByName s e name).1.edge e'=s.edge e' := by
  unfold edgeInfoCapabilityRemoveByName
  cases hfind : edgeInfoCapabilityFind s e name with
  | none =>
    have hnew := (edgeInfoCapabilityFind_none_iff e name).mp hfind
    refine ⟨iff_of_false nofun fun ⟨c,hc,hname⟩ => hnew c hc hname,
      fun c => ⟨fun hc => ⟨hc,hnew c hc⟩,And.left⟩,fun _ _ => rfl⟩
  | some c =>
    obtain ⟨hc,hname⟩ := edgeInfoCapabilityFind_some hfind
    have he : e∈s.edgeResources := by
      by_contra he
      rw [hs.idle e he] at hc
      cases hc
    obtain ⟨hcaps,-,hothers,-⟩ := edgeInfoCapabilityRemove_spec s e c
    have hok := (edgeInfoCapabilityRemove_ok s e c).mpr hc
    refine ⟨iff_of_true hok ⟨c,hc,hname⟩,fun c' => ?_,hothers⟩
    dsimp only
    rw [hcaps,(nodup_capabilities hs.wellFormed he).mem_erase_iff]
    constructor
    · exact fun ⟨hne,hc'⟩ => ⟨hc',fun hname' =>
        hne (hs.distinct.names e he c' hc' c hc (hname'.trans hname.symm))⟩
    · exact fun ⟨hc',hne⟩ => ⟨fun heq => hne (heq ▸ hname),hc'⟩

/-- The removals of a represented store. -/
theorem removeExact (hs : Represented s) : RemoveExact s where
  edge e := by
    refine ⟨?_,edgeInfoRemove_edgeResources e,fun e' hne => edgeInfoRemove_edge_other hne⟩
    unfold edgeInfoRemove
    split_ifs with he
    · exact iff_of_true rfl he
    · exact iff_of_false nofun he
  capability e c := by
    obtain ⟨hcaps,-,hothers,-⟩ := edgeInfoCapabilityRemove_spec s e c
    exact ⟨edgeInfoCapabilityRemove_ok s e c,hcaps,hothers⟩
  named := capabilityRemoveByName_exact hs
  clear e := ⟨edgeInfoCapabilityClear_capabilities s e,(edgeInfoCapabilityClear_spec s e).2.2.1⟩

end Exactness

/-- What happens to the store, in any order. -/
inductive Op (ne nc : ℕ) (ET CT : Type) where
  /-- `edge_info_add`. -/
  | edgeAdd (addr : IpAddr)
  /-- `edge_info_remove`. -/
  | edgeRemove (e : Fin ne)
  /-- `edge_info_capability_add`. -/
  | capabilityAdd (e : Fin ne) (name : List UInt8)
  /-- `edge_info_capability_remove`. -/
  | capabilityRemove (e : Fin ne) (c : Fin (ne*nc))
  /-- `edge_info_capability_remove_by_name`. -/
  | capabilityRemoveByName (e : Fin ne) (name : List UInt8)
  /-- `edge_info_capability_clear`. -/
  | capabilityClear (e : Fin ne)
  /-- Flags and trust values of an edge are written in place. -/
  | writeEdge (e : Fin ne) (flags : UInt32) (tm : ET)
  /-- Flags and trust values of a capability are written in place. -/
  | writeCap (c : Fin (ne*nc)) (flags : UInt32) (tm : CT)

/-- One operation on the store. -/
def step (env : EdgeEnv ne nc ET CT) (s : EdgeStore ne nc ET CT) :
    Op ne nc ET CT → EdgeStore ne nc ET CT
  | .edgeAdd addr => (edgeInfoAdd env s addr).1
  | .edgeRemove e => (edgeInfoRemove s e).1
  | .capabilityAdd e name => (edgeInfoCapabilityAdd env s e name).1
  | .capabilityRemove e c => (edgeInfoCapabilityRemove s e c).1
  | .capabilityRemoveByName e name => (edgeInfoCapabilityRemoveByName s e name).1
  | .capabilityClear e => edgeInfoCapabilityClear s e
  | .writeEdge e flags tm => s.setEdge e {s.edge e with flags := flags,tm := tm}
  | .writeCap c flags tm => s.setCap c {s.cap c with flags := flags,tm := tm}

/-- A capability is added to a listed edge, under a name that fits its field. -/
def Admitted (s : EdgeStore ne nc ET CT) : Op ne nc ET CT → Prop
  | .capabilityAdd e name => e∈s.edgeResources ∧ name.length≤edgeCapabilityNameLen
  | _ => True

/-- Admission is decided by the list of edges. -/
instance decidableAdmitted (s : EdgeStore ne nc ET CT) : ∀ op, Decidable (Admitted s op)
  | .capabilityAdd _ _ => inferInstanceAs (Decidable (_ ∧ _))
  | .edgeAdd _ | .edgeRemove _ | .capabilityRemove _ _ | .capabilityRemoveByName _ _
  | .capabilityClear _ | .writeEdge _ _ _ | .writeCap _ _ _ => .isTrue trivial

/-- Every admitted operation keeps the representation. -/
theorem Represented.step (h : Represented s) (env : EdgeEnv ne nc ET CT) {op : Op ne nc ET CT}
    (hop : Admitted s op) : Represented (step env s op) := by
  cases op with
  | edgeAdd addr => exact h.edgeAdd env addr
  | edgeRemove e => exact h.edgeRemove e
  | capabilityAdd e name => exact h.capabilityAdd env hop.1 hop.2
  | capabilityRemove e c => exact h.capabilityRemove e c
  | capabilityRemoveByName e name => exact h.capabilityRemoveByName e name
  | capabilityClear e => exact h.capabilityClear e
  | writeEdge e flags tm => exact h.setEdge e rfl rfl
  | writeCap c flags tm => exact h.setCap c rfl

/-- The empty store is represented. -/
theorem represented_init (ne nc : ℕ) (et : ET) (ct : CT) :
    Represented (edgeInfoInit ne nc et ct) :=
  ⟨wellFormed_init ne nc et ct,⟨fun _ he => (nomatch he),fun _ he => (nomatch he)⟩,
    fun _ _ => rfl⟩

/-- What the edge store guarantees: its representation, and what the operations
do. -/
structure StoreExact (env : EdgeEnv ne nc ET CT) (s : EdgeStore ne nc ET CT) : Prop where
  /-- The representation invariant. -/
  represented : Represented s
  /-- Adding a capability. -/
  capabilityAdd : CapabilityAddExact env s
  /-- Adding an edge. -/
  edgeAdd : EdgeAddExact env s
  /-- Removing an edge or capabilities. -/
  removals : RemoveExact s

/-- **The edge store over a whole run.** In every reachable state the store is
represented properly, its adding operations fail only when they have to, and
each operation changes what it names and nothing else. -/
theorem storeExact_always (env : EdgeEnv ne nc ET CT) (et : ET) (ct : CT)
    (ops : List (Op ne nc ET CT))
    (hops : Along (step env) Admitted (edgeInfoInit ne nc et ct) ops) :
    Always (step env) (StoreExact env) (edgeInfoInit ne nc et ct) ops :=
  (always_of_step (fun _ _ hI hA => hI.step env hA) (represented_init ne nc et ct) hops).mono
    fun _ h => ⟨h,capabilityAddExact h.wellFormed env,edgeAddExact h env,removeExact h⟩

/-- Five edges are added to a store for four, with a capability in between. -/
theorem storeExact_always_sample :
    Always (step sampleEdgeEnv) (StoreExact sampleEdgeEnv) (edgeInfoInit 4 3 () ())
      [.edgeAdd (sampleAddr 1),.writeEdge 0 edgeResourceActive (),.edgeAdd (sampleAddr 2),
        .capabilityAdd 1 [0x63,0x72],.edgeAdd (sampleAddr 3),.edgeAdd (sampleAddr 4),
        .edgeAdd (sampleAddr 5),.capabilityRemoveByName 0 [0x63],.edgeRemove 0] :=
  storeExact_always sampleEdgeEnv () ()
    [.edgeAdd (sampleAddr 1),.writeEdge 0 edgeResourceActive (),.edgeAdd (sampleAddr 2),
      .capabilityAdd 1 [0x63,0x72],.edgeAdd (sampleAddr 3),.edgeAdd (sampleAddr 4),
      .edgeAdd (sampleAddr 5),.capabilityRemoveByName 0 [0x63],.edgeRemove 0] (by decide)

end TrustAlloc.EdgeStoreRuns
