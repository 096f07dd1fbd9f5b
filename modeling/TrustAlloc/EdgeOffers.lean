import TrustAlloc.EdgeStoreRuns
import TrustAlloc.MqttPublish
import Mathlib.Data.List.Pairwise

/-!
# What the known edges offer

A listed edge offers the names of its active capabilities. Every operation of
the edge store, and every write of the publish handlers, is described by what
it does to this relation and to the flags of the edges. Most operations leave
it alone; only an eviction withdraws offers without a word.
-/

namespace TrustAlloc.EdgeOffers

open EdgeInfo EdgeStoreRuns MqttPublish

variable {ne nc : ℕ} {ET CT : Type} {env : EdgeEnv ne nc ET CT} {s s' : EdgeStore ne nc ET CT}

/-- A listed edge has an active capability of the name. -/
def Offers (s : EdgeStore ne nc ET CT) (e : Fin ne) (name : List UInt8) : Prop :=
  e∈s.edgeResources ∧
    ∃ c∈(s.edge e).capabilities, (s.cap c).name=name ∧ edgeCapabilityIsActive s c=true

/-- Offers are decided by the lists and the flags. -/
instance decidableOffers (s : EdgeStore ne nc ET CT) (e : Fin ne) (name : List UInt8) :
    Decidable (Offers s e name) :=
  inferInstanceAs (Decidable (_ ∧ ∃ c∈_,_))

section Flags

/-- Setting the lowest bit sets it. -/
theorem or_one_and_one (flags : UInt32) : (flags|||1)&&&1≠0 := by
  have hbit : (flags|||1)&&&1=1 := by
    rw [UInt32.and_comm,←UInt32.toBitVec_inj]
    ext i hi
    simp only [UInt32.toBitVec_and,UInt32.toBitVec_or,BitVec.getElem_and,BitVec.getElem_or]
    cases h : (UInt32.toBitVec 1)[i] <;> simp
  rw [hbit]
  decide

/-- Clearing the lowest bit clears it. -/
theorem and_not_one_and_one (flags : UInt32) : (flags&&&~~~1)&&&1=0 := by
  rw [UInt32.and_assoc]
  have hbits : (~~~1 : UInt32)&&&1=0 := by decide
  rw [hbits,UInt32.and_zero]

/-- An activated edge is active, and no other edge changes. -/
theorem isActive_activateEdge (e e' : Fin ne) :
    edgeInfoIsActive (activateEdge s e) e'=true ↔ e'=e ∨ edgeInfoIsActive s e'=true := by
  by_cases he : e'=e
  · subst he
    simp [edgeInfoIsActive,activateEdge,edgeResourceActive,or_one_and_one]
  · simp [edgeInfoIsActive,activateEdge,EdgeStore.setEdge_edge_other _ he,he]

/-- A deactivated edge is inactive, and no other edge changes. -/
theorem isActive_deactivateEdge (e e' : Fin ne) :
    edgeInfoIsActive (deactivateEdge s e) e'=true ↔ e'≠e ∧ edgeInfoIsActive s e'=true := by
  by_cases he : e'=e
  · subst he
    simp [edgeInfoIsActive,deactivateEdge,edgeResourceActive,and_not_one_and_one]
  · simp [edgeInfoIsActive,deactivateEdge,EdgeStore.setEdge_edge_other _ he,he]

/-- An activated capability is active, and no other capability changes. -/
theorem isActive_activateCap (c c' : Fin (ne*nc)) :
    edgeCapabilityIsActive (activateCap s c) c'=true ↔
      c'=c ∨ edgeCapabilityIsActive s c'=true := by
  by_cases hc : c'=c
  · subst hc
    simp [edgeCapabilityIsActive,activateCap,edgeCapabilityActive,or_one_and_one]
  · simp [edgeCapabilityIsActive,activateCap,EdgeStore.setCap_cap_other _ hc,hc]

/-- A deactivated capability is inactive, and no other capability changes. -/
theorem isActive_deactivateCap (c c' : Fin (ne*nc)) :
    edgeCapabilityIsActive (deactivateCap s c) c'=true ↔
      c'≠c ∧ edgeCapabilityIsActive s c'=true := by
  by_cases hc : c'=c
  · subst hc
    simp [edgeCapabilityIsActive,deactivateCap,edgeCapabilityActive,and_not_one_and_one]
  · simp [edgeCapabilityIsActive,deactivateCap,EdgeStore.setCap_cap_other _ hc,hc]

/-- A deactivated capability is inactive. -/
theorem deactivateCap_inactive (c : Fin (ne*nc)) :
    edgeCapabilityIsActive (deactivateCap s c) c=false :=
  Bool.eq_false_iff.mpr fun hactive => ((isActive_deactivateCap c c).mp hactive).1 rfl

/-- Deactivating an edge changes no list of capabilities. -/
theorem deactivateEdge_capabilities (e e' : Fin ne) :
    ((deactivateEdge s e).edge e').capabilities=(s.edge e').capabilities := by
  by_cases he : e'=e
  · subst he
    rw [deactivateEdge,EdgeStore.setEdge_edge_same]
  · rw [deactivateEdge,EdgeStore.setEdge_edge_other _ he]

/-- Activating a capability changes no name. -/
theorem activateCap_name (c c' : Fin (ne*nc)) :
    ((activateCap s c).cap c').name=(s.cap c').name := by
  by_cases hc : c'=c
  · subst hc
    simp [activateCap]
  · rw [activateCap,EdgeStore.setCap_cap_other _ hc]

/-- Deactivating a capability changes no name. -/
theorem deactivateCap_name (c c' : Fin (ne*nc)) :
    ((deactivateCap s c).cap c').name=(s.cap c').name := by
  by_cases hc : c'=c
  · subst hc
    simp [deactivateCap]
  · rw [deactivateCap,EdgeStore.setCap_cap_other _ hc]

end Flags

section Writes

/-- Rewriting an edge with the same capabilities changes no offer. -/
theorem offers_setEdge (e e' : Fin ne) {v : EdgeResource (ne*nc) ET}
    (hv : v.capabilities=(s.edge e).capabilities) (name : List UInt8) :
    Offers (s.setEdge e v) e' name ↔ Offers s e' name := by
  have hcaps : ((s.setEdge e v).edge e').capabilities=(s.edge e').capabilities := by
    by_cases he : e'=e
    · subst he
      rw [EdgeStore.setEdge_edge_same,hv]
    · rw [EdgeStore.setEdge_edge_other v he]
  unfold Offers
  rw [hcaps]
  exact Iff.rfl

/-- Activating an edge changes no offer. -/
theorem offers_activateEdge (e e' : Fin ne) (name : List UInt8) :
    Offers (activateEdge s e) e' name ↔ Offers s e' name :=
  offers_setEdge e e' (by rfl) name

/-- Deactivating an edge changes no offer. -/
theorem offers_deactivateEdge (e e' : Fin ne) (name : List UInt8) :
    Offers (deactivateEdge s e) e' name ↔ Offers s e' name :=
  offers_setEdge e e' (by rfl) name

/-- A capability belongs to one listed edge. -/
theorem owner_unique (h : Represented s) {e e' : Fin ne} (he : e∈s.edgeResources)
    (he' : e'∈s.edgeResources) {c : Fin (ne*nc)} (hc : c∈(s.edge e).capabilities)
    (hc' : c∈(s.edge e').capabilities) : e'=e := by
  by_contra hne
  have hpair := (List.nodup_flatMap.mp h.wellFormed.ownsCaps.nodup).2
  have : Std.Symm (Function.onFun List.Disjoint fun e => (s.edge e).capabilities) :=
    ⟨fun _ _ hd => List.Disjoint.symm hd⟩
  exact hpair.forall he he' (Ne.symm hne) hc hc'

/-- Activating a capability of an edge adds its name to what the edge offers. -/
theorem offers_activateCap (h : Represented s) {e : Fin ne} (he : e∈s.edgeResources)
    {c : Fin (ne*nc)} (hc : c∈(s.edge e).capabilities) (e' : Fin ne) (name : List UInt8) :
    Offers (activateCap s c) e' name ↔ Offers s e' name ∨ (e'=e ∧ (s.cap c).name=name) := by
  constructor
  · rintro ⟨he',c',hc',hname,hactive⟩
    rw [activateCap_name] at hname
    rcases (isActive_activateCap c c').mp hactive with rfl | hactive
    · exact Or.inr ⟨owner_unique h he he' hc hc',hname⟩
    · exact Or.inl ⟨he',c',hc',hname,hactive⟩
  · rintro (⟨he',c',hc',hname,hactive⟩ | ⟨rfl,hname⟩)
    · exact ⟨he',c',hc',by rwa [activateCap_name],
        (isActive_activateCap c c').mpr (Or.inr hactive)⟩
    · exact ⟨he,c,hc,by rwa [activateCap_name],(isActive_activateCap c c).mpr (Or.inl rfl)⟩

/-- Deactivating a capability of an edge takes its name from what the edge offers. -/
theorem offers_deactivateCap (h : Represented s) {e : Fin ne} (he : e∈s.edgeResources)
    {c : Fin (ne*nc)} (hc : c∈(s.edge e).capabilities) (e' : Fin ne) (name : List UInt8) :
    Offers (deactivateCap s c) e' name ↔ Offers s e' name ∧ ¬(e'=e ∧ (s.cap c).name=name) := by
  constructor
  · rintro ⟨he',c',hc',hname,hactive⟩
    rw [deactivateCap_name] at hname
    obtain ⟨hne,hactive⟩ := (isActive_deactivateCap c c').mp hactive
    refine ⟨⟨he',c',hc',hname,hactive⟩,fun hsame => hne ?_⟩
    obtain ⟨rfl,hcname⟩ := hsame
    exact h.distinct.names e' he c' hc' c hc (hname.trans hcname.symm)
  · rintro ⟨⟨he',c',hc',hname,hactive⟩,hnot⟩
    have hne : c'≠c := by
      rintro rfl
      exact hnot ⟨owner_unique h he he' hc hc',hname⟩
    exact ⟨he',c',hc',by rwa [deactivateCap_name],
      (isActive_deactivateCap c c').mpr ⟨hne,hactive⟩⟩

end Writes

section Removal

/-- Removing an inactive capability changes no offer. -/
theorem offers_capabilityRemove (e e' : Fin ne) {c : Fin (ne*nc)}
    (hc : edgeCapabilityIsActive s c=false) (name : List UInt8) :
    Offers (edgeInfoCapabilityRemove s e c).1 e' name ↔ Offers s e' name := by
  have hkept : ∀ c'∈(s.edge e').capabilities, edgeCapabilityIsActive s c'=true →
      c'∈((edgeInfoCapabilityRemove s e c).1.edge e').capabilities := by
    intro c' hc' hactive
    have hne : c'≠c := by
      rintro rfl
      rw [hc] at hactive
      cases hactive
    unfold edgeInfoCapabilityRemove
    split
    · change c'∈((s.setEdge e _).edge e').capabilities
      by_cases he : e'=e
      · subst he
        rw [EdgeStore.setEdge_edge_same]
        exact (List.mem_erase_of_ne hne).mpr hc'
      · rwa [EdgeStore.setEdge_edge_other _ he]
    · exact hc'
  have hcap := edgeInfoCapabilityRemove_cap (s:=s) e c
  have hactive : ∀ c', edgeCapabilityIsActive (edgeInfoCapabilityRemove s e c).1 c'=
      edgeCapabilityIsActive s c' := fun c' => by
    unfold edgeCapabilityIsActive
    rw [hcap]
  unfold Offers
  rw [edgeInfoCapabilityRemove_edgeResources]
  constructor
  · rintro ⟨he',c',hc',hname,ha⟩
    exact ⟨he',c',(edgeInfoCapabilityRemove_edge e e' c).2 c' hc',hcap c' ▸ hname,hactive c' ▸ ha⟩
  · rintro ⟨he',c',hc',hname,ha⟩
    exact ⟨he',c',hkept c' hc' ha,(hcap c').symm ▸ hname,(hactive c').symm ▸ ha⟩

/-- Removing a capability changes no flag of an edge. -/
theorem isActive_capabilityRemove (e e' : Fin ne) (c : Fin (ne*nc)) :
    edgeInfoIsActive (edgeInfoCapabilityRemove s e c).1 e'=edgeInfoIsActive s e' := by
  unfold edgeInfoCapabilityRemove
  split
  · change decide (((s.setEdge e _).edge e').flags&&&_≠0)=_
    by_cases he : e'=e
    · subst he
      rw [EdgeStore.setEdge_edge_same]
      rfl
    · rw [EdgeStore.setEdge_edge_other _ he]
      rfl
  · rfl

/-- Clearing an edge whose capabilities are inactive changes neither an offer
nor the flag of an edge. -/
theorem offers_capabilityClear (e : Fin ne)
    (hinactive : ∀ c∈(s.edge e).capabilities, edgeCapabilityIsActive s c=false) (e' : Fin ne) :
    (∀ name, Offers (edgeInfoCapabilityClear s e) e' name ↔ Offers s e' name) ∧
      edgeInfoIsActive (edgeInfoCapabilityClear s e) e'=edgeInfoIsActive s e' := by
  unfold edgeInfoCapabilityClear
  generalize (s.edge e).capabilities=l at hinactive
  induction l generalizing s with
  | nil => exact ⟨fun _ => Iff.rfl,rfl⟩
  | cons c l ih =>
    have hrest : ∀ c'∈l, edgeCapabilityIsActive (edgeInfoCapabilityRemove s e c).1 c'=false := by
      intro c' hc'
      unfold edgeCapabilityIsActive
      rw [edgeInfoCapabilityRemove_cap]
      exact hinactive c' (List.mem_cons_of_mem c hc')
    obtain ⟨hoffers,hactive⟩ := ih hrest
    have hc := hinactive c List.mem_cons_self
    exact ⟨fun name => (hoffers name).trans (offers_capabilityRemove e e' hc name),
      hactive.trans (isActive_capabilityRemove e e' c)⟩

/-- Removing an edge withdraws exactly what it offers. -/
theorem offers_edgeRemove (h : Represented s) (e e' : Fin ne) (name : List UInt8) :
    Offers (edgeInfoRemove s e).1 e' name ↔ e'≠e ∧ Offers s e' name := by
  have hactive : ∀ c, edgeCapabilityIsActive (edgeInfoRemove s e).1 c=
      edgeCapabilityIsActive s c := fun c => by
    unfold edgeCapabilityIsActive
    rw [edgeInfoRemove_cap]
  unfold Offers
  rw [edgeInfoRemove_edgeResources]
  by_cases he : e'=e
  · subst he
    exact iff_of_false (fun hoffer => h.wellFormed.ownsEdges.nodup.not_mem_erase hoffer.1)
      fun hoffer => hoffer.1 rfl
  · rw [edgeInfoRemove_edge_other he,List.mem_erase_of_ne he]
    simp only [edgeInfoRemove_cap,hactive,ne_eq,he,not_false_eq_true,true_and]

/-- Removing an edge changes no flag of another edge. -/
theorem isActive_edgeRemove {e e' : Fin ne} (hne : e'≠e) :
    edgeInfoIsActive (edgeInfoRemove s e).1 e'=edgeInfoIsActive s e' := by
  unfold edgeInfoIsActive
  rw [edgeInfoRemove_edge_other hne]

end Removal

section Addition

/-- A new edge offers nothing, and the others offer what they did. -/
theorem offers_placeEdge (h : Represented s) (env : EdgeEnv ne nc ET CT) {e : Fin ne}
    (he : s.edgeResourcesMemb.used e=false) (addr : IpAddr) (e' : Fin ne) (name : List UInt8) :
    Offers (s.placeEdge env e addr) e' name ↔ Offers s e' name := by
  have hnot := h.wellFormed.ownsEdges.not_mem he
  unfold Offers
  rw [placeEdge_edgeResources env h.wellFormed he addr]
  by_cases heq : e'=e
  · subst heq
    rw [placeEdge_edge_same]
    exact iff_of_false (fun hoffer => by obtain ⟨_,c,hc,_⟩ := hoffer; cases hc)
      fun hoffer => hnot hoffer.1
  · rw [placeEdge_edge_other env heq,List.mem_cons,or_iff_right heq]
    exact Iff.rfl

/-- A new edge changes no flag of another edge. -/
theorem isActive_placeEdge (env : EdgeEnv ne nc ET CT) {e e' : Fin ne} (hne : e'≠e)
    (addr : IpAddr) : edgeInfoIsActive (s.placeEdge env e addr) e'=edgeInfoIsActive s e' := by
  unfold edgeInfoIsActive
  rw [placeEdge_edge_other env hne]

/-- `edge_info_add` withdraws exactly what the evicted edge offers. -/
theorem offers_edgeAdd (h : Represented s) (env : EdgeEnv ne nc ET CT) (addr : IpAddr)
    (e : Fin ne) (name : List UInt8) :
    Offers (edgeInfoAdd env s addr).1 e name ↔
      Offers s e name ∧ evictedEdge env s addr≠some e := by
  rcases edgeInfoAdd_cases env s addr with ⟨hno,_,_,_,ha⟩ | ⟨_,hno,ha⟩ | ⟨_,hno,_,hfree,ha⟩ |
    ⟨_,old,_,_,hev,_,hfree,ha⟩
  · rw [ha,hno]
    exact (and_iff_left (Option.some_ne_none e).symm).symm
  · rw [ha,hno]
    exact (and_iff_left (Option.some_ne_none e).symm).symm
  · rw [ha,hno,offers_placeEdge h env hfree]
    exact (and_iff_left (Option.some_ne_none e).symm).symm
  · rw [ha,hev,offers_placeEdge (h.edgeRemove old) env hfree,offers_edgeRemove h old,and_comm]
    simp only [ne_eq,Option.some.injEq,eq_comm]

/-- `edge_info_add` changes no flag of an edge that goes on offering something. -/
theorem isActive_edgeAdd (h : Represented s) (env : EdgeEnv ne nc ET CT) (addr : IpAddr)
    (e : Fin ne) (name : List UInt8) (hoffer : Offers (edgeInfoAdd env s addr).1 e name) :
    edgeInfoIsActive (edgeInfoAdd env s addr).1 e=edgeInfoIsActive s e := by
  obtain ⟨hold,hevicted⟩ := (offers_edgeAdd h env addr e name).mp hoffer
  rcases edgeInfoAdd_cases env s addr with ⟨_,_,_,_,ha⟩ | ⟨_,_,ha⟩ | ⟨_,_,_,hfree,ha⟩ |
    ⟨_,old,_,_,hev,_,hfree,ha⟩
  · rw [ha]
  · rw [ha]
  · rw [ha]
    have hne := h.wellFormed.ownsEdges.ne_of_mem hold.1 hfree
    exact isActive_placeEdge env hne addr
  · rw [ha]
    have hne : e≠old := fun heq => hevicted (heq ▸ hev)
    have hlisted := ((offers_edgeRemove h old e name).mpr ⟨hne,hold⟩).1
    have hnew := (h.edgeRemove old).wellFormed.ownsEdges.ne_of_mem hlisted hfree
    exact (isActive_placeEdge env hnew addr).trans (isActive_edgeRemove hne)

/-- `edge_info_add` returns a listed edge. -/
theorem mem_edgeAdd (h : Represented s) (env : EdgeEnv ne nc ET CT) (addr : IpAddr) {e : Fin ne}
    (he : (edgeInfoAdd env s addr).2=some e) : e∈(edgeInfoAdd env s addr).1.edgeResources := by
  rcases edgeInfoAdd_cases env s addr with ⟨_,_,hmem,_,ha⟩ | ⟨_,_,ha⟩ | ⟨_,_,_,hfree,ha⟩ |
    ⟨_,old,_,_,_,_,hfree,ha⟩ <;> rw [ha] at he ⊢ <;> cases he
  · exact hmem
  · rw [placeEdge_edgeResources env h.wellFormed hfree]
    exact List.mem_cons_self
  · rw [placeEdge_edgeResources env (h.edgeRemove old).wellFormed hfree]
    exact List.mem_cons_self

/-- An evicted edge is inactive. -/
theorem isActive_evictedEdge {addr : IpAddr} {e : Fin ne} (he : evictedEdge env s addr=some e) :
    edgeInfoIsActive s e=false := by
  unfold evictedEdge at he
  split at he
  · exact (firstInactive_some he).2
  · cases he

/-- A new capability is not offered yet. -/
theorem offers_placeCap (h : Represented s) (env : EdgeEnv ne nc ET CT) {e : Fin ne}
    (he : e∈s.edgeResources) {c : Fin (ne*nc)} (hc : s.edgeCapabilitiesMemb.used c=false)
    (capName : List UInt8) (e' : Fin ne) (name : List UInt8) :
    Offers (s.placeCap env e c capName) e' name ↔ Offers s e' name := by
  have hsame := placeCap_edge_same env h.wellFormed he hc capName
  have hinactive : edgeCapabilityIsActive (s.placeCap env e c capName) c=false := by
    have hlink : (s.placeCap env e c capName).cap c=
        {(s.takeCap env c).cap c with name := capName.take edgeCapabilityNameLen,flags := 0} :=
      EdgeStore.setCap_cap_same c _
    unfold edgeCapabilityIsActive
    rw [hlink]
    simp
  have hkept : ∀ e'∈s.edgeResources, ∀ c'∈(s.edge e').capabilities,
      (s.placeCap env e c capName).cap c'=s.cap c' := fun e' he' c' hc' =>
    placeCap_cap_other e (h.wellFormed.ownsCaps.ne_of_mem (s.mem_linked he' hc') hc) capName
  have hcaps : ∀ c'≠c, c'∈((s.placeCap env e c capName).edge e').capabilities ↔
      c'∈(s.edge e').capabilities := by
    intro c' hne
    by_cases heq : e'=e
    · subst heq
      rw [hsame]
      exact List.mem_cons.trans (or_iff_right hne)
    · rw [placeCap_edge_other heq]
  constructor
  · rintro ⟨he',c',hc',hname,hactive⟩
    have hne : c'≠c := by
      rintro rfl
      rw [hinactive] at hactive
      cases hactive
    have hold := (hcaps c' hne).mp hc'
    have hcap := hkept e' he' c' hold
    unfold edgeCapabilityIsActive at hactive
    rw [hcap] at hname hactive
    exact ⟨he',c',hold,hname,hactive⟩
  · rintro ⟨he',c',hc',hname,hactive⟩
    have hne := h.wellFormed.ownsCaps.ne_of_mem (s.mem_linked he' hc') hc
    have hcap := hkept e' he' c' hc'
    refine ⟨he',c',(hcaps c' hne).mpr hc',by rwa [hcap],?_⟩
    unfold edgeCapabilityIsActive at hactive ⊢
    rwa [hcap]

/-- A new capability changes no flag of an edge. -/
theorem isActive_placeCap (h : Represented s) (env : EdgeEnv ne nc ET CT) {e : Fin ne}
    (he : e∈s.edgeResources) {c : Fin (ne*nc)} (hc : s.edgeCapabilitiesMemb.used c=false)
    (name : List UInt8) (e' : Fin ne) :
    edgeInfoIsActive (s.placeCap env e c name) e'=edgeInfoIsActive s e' := by
  unfold edgeInfoIsActive
  by_cases heq : e'=e
  · subst heq
    rw [placeCap_edge_same env h.wellFormed he hc]
  · rw [placeCap_edge_other heq]

end Addition

/-- `edge_info_has_active_capability` asks for an active edge that offers the name. -/
theorem hasActive_iff (h : Represented s) (name : List UInt8) :
    edgeInfoHasActiveCapability s name=true ↔ ∃ e, edgeInfoIsActive s e=true ∧ Offers s e name := by
  unfold edgeInfoHasActiveCapability
  rw [List.any_eq_true]
  constructor
  · rintro ⟨e,he,hany⟩
    obtain ⟨hactive,hsome⟩ := Bool.and_eq_true_iff.mp hany
    obtain ⟨c,hfind,hc⟩ := (Option.any_eq_true _ _).mp hsome
    obtain ⟨hmem,hname⟩ := edgeInfoCapabilityFind_some hfind
    exact ⟨e,hactive,he,c,hmem,hname,hc⟩
  · rintro ⟨e,hactive,he,c,hmem,hname,hc⟩
    cases hfind : edgeInfoCapabilityFind s e name with
    | none => exact absurd hname ((edgeInfoCapabilityFind_none_iff e name).mp hfind c hmem)
    | some c' =>
      obtain ⟨hmem',hname'⟩ := edgeInfoCapabilityFind_some hfind
      have hsame := h.distinct.names e he c' hmem' c hmem (hname'.trans hname.symm)
      refine ⟨e,he,?_⟩
      rw [hactive,hfind,hsame]
      exact hc

end TrustAlloc.EdgeOffers
