import TrustAlloc.EdgeStoreRuns
import TrustAlloc.TrustModels

/-!
# What an operation of the edge store leaves

Most operations make nothing new: every capability that an edge has afterwards
was there before, with the same address, name and trust values. Only the
addition of a capability makes one new, and only storing trust values changes
them, in one edge and one capability.
-/

namespace TrustAlloc.EdgeChanges

open EdgeInfo EdgeStoreRuns TrustModels

variable {ne nc : ℕ} {ET CT : Type} {s s' s'' : EdgeStore ne nc ET CT}

section Kept

/-- A capability of an edge was there before, with the same data. -/
structure Kept (s s' : EdgeStore ne nc ET CT) (e : Fin ne) (c : Fin (ne*nc)) : Prop where
  /-- The edge was listed. -/
  edge : e∈s.edgeResources
  /-- It had the capability. -/
  cap : c∈(s.edge e).capabilities
  /-- Its address. -/
  ep : (s'.edge e).ep=(s.edge e).ep
  /-- Its counts. -/
  edgeTm : (s'.edge e).tm=(s.edge e).tm
  /-- The name of the capability. -/
  name : (s'.cap c).name=(s.cap c).name
  /-- The counts of the capability. -/
  capTm : (s'.cap c).tm=(s.cap c).tm

/-- There is no new capability of any edge. -/
def NothingNew (s s' : EdgeStore ne nc ET CT) : Prop :=
  ∀ e∈s'.edgeResources, ∀ c∈(s'.edge e).capabilities, Kept s s' e c

/-- Nothing has changed. -/
theorem NothingNew.refl (s : EdgeStore ne nc ET CT) : NothingNew s s :=
  fun _ he _ hc => ⟨he,hc,rfl,rfl,rfl,rfl⟩

/-- One after the other. -/
theorem NothingNew.trans (h : NothingNew s s') (h' : NothingNew s' s'') : NothingNew s s'' := by
  intro e he c hc
  have hlast := h' e he c hc
  have hfirst := h e hlast.edge c hlast.cap
  exact ⟨hfirst.edge,hfirst.cap,hlast.ep.trans hfirst.ep,hlast.edgeTm.trans hfirst.edgeTm,
    hlast.name.trans hfirst.name,hlast.capTm.trans hfirst.capTm⟩

/-- Edges that stay as they are, with capabilities that stay as they are. -/
theorem NothingNew.of_same (hlist : ∀ e∈s'.edgeResources, ∀ c∈(s'.edge e).capabilities,
      e∈s.edgeResources ∧ s'.edge e=s.edge e) (hcap : ∀ c, s'.cap c=s.cap c) :
    NothingNew s s' := by
  intro e he c hc
  obtain ⟨hold,hedge⟩ := hlist e he c hc
  rw [hedge] at hc
  exact ⟨hold,hc,by rw [hedge],by rw [hedge],by rw [hcap],by rw [hcap]⟩

/-- A new edge has no capabilities. -/
theorem nothingNew_placeEdge (h : WellFormed s) (env : EdgeEnv ne nc ET CT) {e : Fin ne}
    (he : s.edgeResourcesMemb.used e=false) (addr : IpAddr) :
    NothingNew s (s.placeEdge env e addr) := by
  refine .of_same (fun e' he' c hc => ?_) fun c => placeEdge_cap e addr c
  have hne : e'≠e := by
    rintro rfl
    rw [placeEdge_edge_same] at hc
    cases hc
  rw [placeEdge_edgeResources env h he addr] at he'
  exact ⟨(List.mem_cons.mp he').resolve_left hne,placeEdge_edge_other env hne addr⟩

/-- Removing an edge makes nothing new. -/
theorem nothingNew_edgeRemove (h : WellFormed s) (e : Fin ne) :
    NothingNew s (edgeInfoRemove s e).1 := by
  refine .of_same (fun e' he' c hc => ?_) fun c => edgeInfoRemove_cap e c
  rw [edgeInfoRemove_edgeResources] at he'
  have hne : e'≠e := fun heq => h.ownsEdges.nodup.not_mem_erase (heq ▸ he')
  exact ⟨List.mem_of_mem_erase he',edgeInfoRemove_edge_other hne⟩

/-- Nor does adding one, with or without an eviction. -/
theorem nothingNew_edgeAdd (h : WellFormed s) (env : EdgeEnv ne nc ET CT) (addr : IpAddr) :
    NothingNew s (edgeInfoAdd env s addr).1 := by
  rcases edgeInfoAdd_cases env s addr with
    ⟨_,_,_,_,ha⟩ | ⟨_,_,ha⟩ | ⟨_,_,e,he,ha⟩ | ⟨_,old,_,_,_,e,he,ha⟩
  · rw [ha]
    exact .refl s
  · rw [ha]
    exact .refl s
  · rw [ha]
    exact nothingNew_placeEdge h env he addr
  · rw [ha]
    exact (nothingNew_edgeRemove h old).trans (nothingNew_placeEdge (h.edgeRemove old) env he addr)

/-- Writing to an edge without changing its address, counts or capabilities. -/
theorem nothingNew_setEdge (s : EdgeStore ne nc ET CT) (e : Fin ne)
    {v : EdgeResource (ne*nc) ET} (hep : v.ep=(s.edge e).ep)
    (htm : v.tm=(s.edge e).tm) (hcaps : ∀ c∈v.capabilities, c∈(s.edge e).capabilities) :
    NothingNew s (s.setEdge e v) := by
  intro e' he' c hc
  by_cases hne : e'=e
  · subst hne
    rw [EdgeStore.setEdge_edge_same] at hc
    refine ⟨he',hcaps c hc,?_,?_,rfl,rfl⟩
    · rw [EdgeStore.setEdge_edge_same,hep]
    · rw [EdgeStore.setEdge_edge_same,htm]
  · have hsame := s.setEdge_edge_other v hne
    rw [hsame] at hc
    exact ⟨he',hc,by rw [hsame],by rw [hsame],rfl,rfl⟩

/-- Removing a capability makes nothing new. -/
theorem nothingNew_capabilityRemove (s : EdgeStore ne nc ET CT) (e : Fin ne) (c : Fin (ne*nc)) :
    NothingNew s (edgeInfoCapabilityRemove s e c).1 := by
  unfold edgeInfoCapabilityRemove
  split
  · have hsub : ∀ c'∈(s.edge e).capabilities.erase c, c'∈(s.edge e).capabilities :=
      fun _ hc => List.mem_of_mem_erase hc
    let v := {s.edge e with capabilities := (s.edge e).capabilities.erase c}
    have htaken : NothingNew s (s.setEdge e v) := nothingNew_setEdge s e rfl rfl hsub
    exact htaken.trans (.of_same (fun _ he _ _ => ⟨he,rfl⟩) fun _ => rfl)
  · exact .refl s

/-- Nor does removing all of an edge. -/
theorem nothingNew_capabilityClear (s : EdgeStore ne nc ET CT) (e : Fin ne) :
    NothingNew s (edgeInfoCapabilityClear s e) := by
  unfold edgeInfoCapabilityClear
  generalize (s.edge e).capabilities=l
  induction l generalizing s with
  | nil => exact .refl s
  | cons c l ih => exact (nothingNew_capabilityRemove s e c).trans (ih _)

/-- No trust values are written. -/
def KeepsTrust (s : EdgeStore ne nc ET CT) : Op ne nc ET CT → Prop
  | .writeEdge e _ tm => tm=(s.edge e).tm
  | .writeCap c _ tm => tm=(s.cap c).tm
  | _ => True

/-- Trust values are decided to be kept. -/
instance decidableKeepsTrust [DecidableEq ET] [DecidableEq CT] (s : EdgeStore ne nc ET CT) :
    ∀ op, Decidable (KeepsTrust s op)
  | .writeEdge _ _ _ | .writeCap _ _ _ => inferInstanceAs (Decidable (_=_))
  | .edgeAdd _ | .edgeRemove _ | .capabilityAdd _ _ | .capabilityRemove _ _
  | .capabilityRemoveByName _ _ | .capabilityClear _ => .isTrue trivial

/-- No operation but the addition of a capability makes anything new. -/
theorem nothingNew_step (h : WellFormed s) (env : EdgeEnv ne nc ET CT)
    {op : Op ne nc ET CT} (hop : KeepsTrust s op)
    (hadd : ∀ e name, op≠.capabilityAdd e name) :
    NothingNew s (step env s op) := by
  cases op with
  | edgeAdd addr => exact nothingNew_edgeAdd h env addr
  | edgeRemove e => exact nothingNew_edgeRemove h e
  | capabilityAdd e name => exact absurd rfl (hadd e name)
  | capabilityRemove e c => exact nothingNew_capabilityRemove s e c
  | capabilityRemoveByName e name =>
    rw [step,edgeInfoCapabilityRemoveByName]
    split
    · exact nothingNew_capabilityRemove s e _
    · exact .refl s
  | capabilityClear e => exact nothingNew_capabilityClear s e
  | writeEdge e flags tm => exact nothingNew_setEdge s e rfl hop fun _ hc => hc
  | writeCap c flags tm =>
    intro e he c' hc'
    by_cases hne : c'=c
    · subst hne
      refine ⟨he,hc',rfl,rfl,?_,?_⟩
      · rw [step,EdgeStore.setCap_cap_same]
      · rw [step,EdgeStore.setCap_cap_same]
        exact hop
    · have hsame := s.setCap_cap_other {s.cap c with flags := flags,tm := tm} hne
      exact ⟨he,hc',rfl,rfl,congrArg EdgeCapability.name hsame,congrArg EdgeCapability.tm hsame⟩

/-- A capability that is placed in a free block is the only new one. -/
theorem kept_placeCap (h : WellFormed s) (env : EdgeEnv ne nc ET CT)
    {e : Fin ne} (he : e∈s.edgeResources) {c : Fin (ne*nc)}
    (hfree : s.edgeCapabilitiesMemb.used c=false) (name : List UInt8) :
    ∀ e'∈s.edgeResources, ∀ c'∈((s.placeCap env e c name).edge e').capabilities,
      (e'=e ∧ c'=c) ∨ Kept s (s.placeCap env e c name) e' c' := by
  intro e' he' c' hc'
  have hedge := placeCap_edge_same env h he hfree name
  by_cases hcc : c'=c
  · subst hcc
    by_cases hee : e'=e
    · exact Or.inl ⟨hee,rfl⟩
    · rw [placeCap_edge_other hee] at hc'
      exact absurd (s.mem_linked he' hc') (h.ownsCaps.not_mem hfree)
  · have hcap : (s.placeCap env e c name).cap c'=s.cap c' := placeCap_cap_other e hcc name
    right
    by_cases hee : e'=e
    · subst hee
      rw [hedge] at hc'
      exact ⟨he',(List.mem_cons.mp hc').resolve_left hcc,by rw [hedge],by rw [hedge],
        by rw [hcap],by rw [hcap]⟩
    · have hsame : (s.placeCap env e c name).edge e'=s.edge e' := placeCap_edge_other hee c name
      rw [hsame] at hc'
      exact ⟨he',hc',by rw [hsame],by rw [hsame],by rw [hcap],by rw [hcap]⟩

/-- It has its name and fresh counts. -/
theorem placeCap_cap_same (env : EdgeEnv ne nc ET CT) (e : Fin ne)
    (c : Fin (ne*nc)) {name : List UInt8} (hname : name.length≤edgeCapabilityNameLen) :
    (s.placeCap env e c name).cap c=⟨name,0,env.edgeCapabilityTmInit (s.cap c).tm⟩ := by
  have htake : (s.takeCap env c).cap c={s.cap c with tm := env.edgeCapabilityTmInit (s.cap c).tm} :=
    (s.edgeCapabilitiesMemb.take c).set_mem_same c _
  have hlink : (s.placeCap env e c name).cap c=
      {(s.takeCap env c).cap c with name := name.take edgeCapabilityNameLen,flags := 0} :=
    EdgeStore.setCap_cap_same c _
  rw [hlink,htake,List.take_of_length_le hname]

end Kept

section Observed

/-- Everything but counts is as before. -/
structure SameShape (s s' : EdgeStore ne nc ET CT) : Prop where
  /-- The list of edges. -/
  list : s'.edgeResources=s.edgeResources
  /-- Their addresses. -/
  ep : ∀ e, (s'.edge e).ep=(s.edge e).ep
  /-- Their capabilities. -/
  caps : ∀ e, (s'.edge e).capabilities=(s.edge e).capabilities
  /-- The names of these. -/
  name : ∀ c, (s'.cap c).name=(s.cap c).name

/-- An observation writes the counts of one edge and of one capability. -/
structure Observed (s s' : EdgeStore ne nc ET CT) (e : Fin ne) (c : Fin (ne*nc))
    (tm : ET×CT) : Prop where
  /-- Everything else. -/
  shape : SameShape s s'
  /-- The counts of the edge. -/
  edge : (s'.edge e).tm=tm.1
  /-- Those of other edges. -/
  edges : ∀ e', e'≠e → (s'.edge e').tm=(s.edge e').tm
  /-- The counts of the capability. -/
  cap : (s'.cap c).tm=tm.2
  /-- Those of other capabilities. -/
  caps : ∀ c', c'≠c → (s'.cap c').tm=(s.cap c').tm

/-- This is what storing new trust values does. -/
theorem observed_updateTrust (e : Fin ne) (c : Fin (ne*nc)) (update : ET × CT → ET × CT) :
    Observed s (updateTrust s e c update) e c (update (trustOf s e c)) := by
  have hedge : (updateTrust s e c update).edge e=
      {s.edge e with tm := (update (trustOf s e c)).1} := EdgeStore.setEdge_edge_same e _
  have hedges : ∀ e', e'≠e → (updateTrust s e c update).edge e'=s.edge e' :=
    fun e' hne => EdgeStore.setEdge_edge_other _ hne
  have hcap : (updateTrust s e c update).cap c=
      {s.cap c with tm := (update (trustOf s e c)).2} := EdgeStore.setCap_cap_same c _
  have hcaps : ∀ c', c'≠c → (updateTrust s e c update).cap c'=s.cap c' :=
    fun c' hne => EdgeStore.setCap_cap_other _ hne
  refine ⟨⟨rfl,fun e' => ?_,fun e' => ?_,fun c' => ?_⟩,by rw [hedge],
    fun e' hne => by rw [hedges e' hne],by rw [hcap],fun c' hne => by rw [hcaps c' hne]⟩
  · by_cases hne : e'=e
    · rw [hne,hedge]
    · rw [hedges e' hne]
  · by_cases hne : e'=e
    · rw [hne,hedge]
    · rw [hedges e' hne]
  · by_cases hne : c'=c
    · rw [hne,hcap]
    · rw [hcaps c' hne]

end Observed

end TrustAlloc.EdgeChanges
