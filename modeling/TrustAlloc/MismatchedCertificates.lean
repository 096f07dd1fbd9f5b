import TrustAlloc.MqttPublishRuns

/-!
# Certificates about somebody else

A publish may carry a certificate whose subject is not the identity of its
topic. `process_certificate` refuses it, and so does an announce. The two
publishes about capabilities do not look at the result and go on as if there
had been no certificate. They change nothing exactly when they would change
nothing anyway.
-/

namespace TrustAlloc.MismatchedCertificates

open Addresses Certificates CertificateDecoding EdgeInfo EdgeOffers EdgeStoreRuns MqttPublish
open MqttPublishRuns Pools

variable {ne nc n : ℕ} {ET CT D A : Type}

section Flags

/-- A lowest bit that is set stays as it is when it is set. -/
theorem or_one_of_and_one {flags : UInt32} (h : flags&&&1≠0) : flags|||1=flags := by
  have hbits : ∀ x : BitVec 32, x&&&1≠0 → x|||1=x := by grind
  rw [Ne,←UInt32.toBitVec_inj] at h
  rw [←UInt32.toBitVec_inj]
  exact hbits flags.toBitVec h

/-- A lowest bit that is clear stays as it is when it is cleared. -/
theorem and_not_one_of_and_one {flags : UInt32} (h : flags&&&1=0) : flags&&&~~~1=flags := by
  have hbits : ∀ x : BitVec 32, x&&&1=0 → x&&&~~~1=x := by
    intro x hx
    have hsplit : x&&&(~~~1|||1)=x&&&~~~1|||x&&&1 := BitVec.and_or_distrib_left
    have hzero : x&&&~~~1|||0=x&&&~~~1 := BitVec.or_zero
    rw [hx,hzero] at hsplit
    exact hsplit.symm.trans BitVec.and_allOnes
  rw [←UInt32.toBitVec_inj] at h ⊢
  exact hbits flags.toBitVec h

variable {s : EdgeStore ne nc ET CT}

/-- Activating an edge changes nothing exactly when it is active. -/
theorem activateEdge_eq_iff (e : Fin ne) : activateEdge s e=s ↔ edgeInfoIsActive s e=true := by
  refine ⟨fun h => ?_,fun h => ?_⟩
  · rw [←h]
    exact (isActive_activateEdge e e).mpr (Or.inl rfl)
  · have hflags : (s.edge e).flags|||edgeResourceActive=(s.edge e).flags :=
      or_one_of_and_one (of_decide_eq_true h)
    rw [activateEdge,hflags]
    exact s.setEdge_self e

/-- Deactivating a capability changes nothing exactly when it is inactive. -/
theorem deactivateCap_eq_iff (c : Fin (ne*nc)) :
    deactivateCap s c=s ↔ edgeCapabilityIsActive s c=false := by
  refine ⟨fun h => ?_,fun h => ?_⟩
  · rw [←h]
    exact deactivateCap_inactive c
  · have hflags : (s.cap c).flags&&&~~~edgeCapabilityActive=(s.cap c).flags :=
      and_not_one_of_and_one (not_not.mp (of_decide_eq_false h))
    rw [deactivateCap,hflags]
    exact s.setCap_self c

end Flags

section Conditions

/-- There is no block for another edge, and no edge to evict. -/
def NoRoomForEdge (env : EdgeEnv ne nc ET CT) (s : EdgeStore ne nc ET CT) : Prop :=
  env.edgeAllocator.pick s.edgeResourcesMemb.used=none ∧
    ∀ e∈s.edgeResources, edgeInfoIsActive s e=true

/-- An edge has used up its share of capabilities, or there is no block for
another capability and none to evict. -/
def NoRoomForCapability (env : EdgeEnv ne nc ET CT) (s : EdgeStore ne nc ET CT) (e : Fin ne) :
    Prop :=
  nc ≤ (s.edge e).capabilities.length ∨
    env.capabilityAllocator.pick s.edgeCapabilitiesMemb.used=none ∧
      ∀ e'∈s.edgeResources, ∀ c∈(s.edge e').capabilities, edgeCapabilityIsActive s c=true

/-- There is nothing to add: the edge has an active capability of the name, or
it has none and there is no room. -/
def NothingToAdd (env : EdgeEnv ne nc ET CT) (s : EdgeStore ne nc ET CT) (e : Fin ne)
    (name : List UInt8) : Prop :=
  match edgeInfoCapabilityFind s e name with
  | some c => edgeCapabilityIsActive s c=true
  | none => NoRoomForCapability env s e

/-- There is nothing to remove: the edge has no capability of the name, or the
build keeps it, it is inactive and its process has nothing to do. -/
def NothingToRemove (env : PublishEnv ne nc n ET CT D A) (p : Publish)
    (s : State ne nc n ET CT A) (e : Fin ne) (name : List UInt8) : Prop :=
  ∀ c∈edgeInfoCapabilityFind s.edges e name,
    env.noActiveRemovalOnUnannounce=true ∧ edgeCapabilityIsActive s.edges c=false ∧
      env.postToCapabilityProcess (s.edges.cap c).name .remove e p.now s.edges s.apps=s.apps

/-- A publish would change nothing without a certificate. An edge is looked up
twice when a capability is added, by addresses with two old contents. -/
def NothingToDo (env : PublishEnv ne nc n ET CT D A) (p : Publish) (s : State ne nc n ET CT A)
    (eui64 : Eui64) : Handler → Prop
  | .announce => True
  | .unannounce => True
  | .capabilityAdd name =>
    match edgeInfoFindEui64 env.addresses s.edges eui64 p.findIpaddr with
    | some e => NothingToAdd env.edges s.edges e name
    | none =>
      match edgeInfoFindEui64 env.addresses s.edges eui64 p.addIpaddr with
      | some e => edgeInfoIsActive s.edges e=true ∧ NothingToAdd env.edges s.edges e name
      | none => NoRoomForEdge env.edges s.edges
  | .capabilityRemove name =>
    ∀ e∈edgeInfoFindEui64 env.addresses s.edges eui64 p.findIpaddr,
      NothingToRemove env p s e name

/-- The certificate that the payload of an announce is. -/
def announcedCertificate (cbor : PublishDecoder D) (chunk : List UInt8) : Option Certificate :=
  match certificateDecode cbor (cbor.init chunk) with
  | .ok (_,cert) => some cert
  | .error _ => none

/-- The certificate that the payload of a publish about a capability carries. -/
def embeddedCertificate (cbor : PublishDecoder D) (chunk : List UInt8) : Option Certificate :=
  match decodeEmbedded cbor chunk with
  | .ok cert => cert
  | .error _ => none

/-- The certificate that the payload of a publish carries. -/
def carriedCertificate (cbor : PublishDecoder D) (chunk : List UInt8) :
    Handler → Option Certificate
  | .announce => announcedCertificate cbor chunk
  | .unannounce => none
  | .capabilityAdd _ => embeddedCertificate cbor chunk
  | .capabilityRemove _ => embeddedCertificate cbor chunk

end Conditions

section Stores

variable {s s' s'' : EdgeStore ne nc ET CT}

/-- The same edges, with the same flags. Only their capabilities differ. -/
structure SameEdges (s s' : EdgeStore ne nc ET CT) : Prop where
  /-- The list of edges. -/
  list : s'.edgeResources=s.edgeResources
  /-- Their addresses. -/
  ep : ∀ e, (s'.edge e).ep=(s.edge e).ep
  /-- Their flags. -/
  flags : ∀ e, (s'.edge e).flags=(s.edge e).flags

/-- A store has the edges it has. -/
theorem SameEdges.refl (s : EdgeStore ne nc ET CT) : SameEdges s s :=
  ⟨rfl,fun _ => rfl,fun _ => rfl⟩

/-- One change after another. -/
theorem SameEdges.trans (h : SameEdges s s') (h' : SameEdges s' s'') : SameEdges s s'' :=
  ⟨h'.list.trans h.list,fun e => (h'.ep e).trans (h.ep e),
    fun e => (h'.flags e).trans (h.flags e)⟩

/-- Rewriting the capabilities of an edge. -/
theorem SameEdges.setEdge (h : SameEdges s s') (e : Fin ne) (caps : List (Fin (ne*nc))) :
    SameEdges s (s'.setEdge e {s'.edge e with capabilities := caps}) := by
  refine ⟨h.list,fun e' => ?_,fun e' => ?_⟩
  · by_cases he : e'=e
    · rw [he,EdgeStore.setEdge_edge_same]
      exact h.ep e
    · rw [EdgeStore.setEdge_edge_other _ he]
      exact h.ep e'
  · by_cases he : e'=e
    · rw [he,EdgeStore.setEdge_edge_same]
      exact h.flags e
    · rw [EdgeStore.setEdge_edge_other _ he]
      exact h.flags e'

/-- Removing a capability. -/
theorem sameEdges_capabilityRemove (s : EdgeStore ne nc ET CT) (e : Fin ne) (c : Fin (ne*nc)) :
    SameEdges s (edgeInfoCapabilityRemove s e c).1 := by
  unfold edgeInfoCapabilityRemove
  split
  · have hset := (SameEdges.refl s).setEdge e ((s.edge e).capabilities.erase c)
    exact ⟨hset.list,hset.ep,hset.flags⟩
  · exact .refl s

/-- Placing a capability. -/
theorem sameEdges_placeCap (env : EdgeEnv ne nc ET CT) (s : EdgeStore ne nc ET CT) (e : Fin ne)
    (c : Fin (ne*nc)) (name : List UInt8) : SameEdges s (s.placeCap env e c name) := by
  let cap := {(s.takeCap env c).cap c with name := name.take edgeCapabilityNameLen,flags := 0}
  have hfilled : SameEdges s ((s.takeCap env c).setCap c cap) := ⟨rfl,fun _ => rfl,fun _ => rfl⟩
  exact hfilled.setEdge e (listPush (s.edge e).capabilities c)

/-- What `free_up_edge_capabilities` does: nothing when all capabilities are
active, and else it removes an inactive one. -/
theorem freeUpEdgeCapabilities_cases (s : EdgeStore ne nc ET CT) :
    (∀ e∈s.edgeResources, ∀ c∈(s.edge e).capabilities, edgeCapabilityIsActive s c=true) ∧
        freeUpEdgeCapabilities s=(s,false) ∨
      ∃ e∈s.edgeResources, ∃ c∈(s.edge e).capabilities, edgeCapabilityIsActive s c=false ∧
        freeUpEdgeCapabilities s=edgeInfoCapabilityRemove s e c := by
  unfold freeUpEdgeCapabilities
  cases hfind : s.edgeResources.findSome? fun e =>
      ((s.edge e).capabilities.find? fun c => !edgeCapabilityIsActive s c).map (e,·) with
  | none =>
    refine Or.inl ⟨fun e he c hc => ?_,rfl⟩
    have hnone := Option.map_eq_none_iff.mp (List.findSome?_eq_none_iff.mp hfind e he)
    simpa using List.find?_eq_none.mp hnone c hc
  | some r =>
    obtain ⟨e,he,hr⟩ := List.exists_of_findSome?_eq_some hfind
    obtain ⟨c,hc,rfl⟩ := Option.map_eq_some_iff.mp hr
    refine Or.inr ⟨e,he,c,List.mem_of_find?_eq_some hc,?_,rfl⟩
    simpa using List.find?_some hc

/-- The outcomes of `edge_info_capability_add` for an unknown name, in any
store: no room; placed, perhaps after an eviction. -/
theorem capabilityAdd_unknown (env : EdgeEnv ne nc ET CT) {e : Fin ne} {name : List UInt8}
    (hnew : edgeInfoCapabilityFind s e name=none) :
    NoRoomForCapability env s e ∧ edgeInfoCapabilityAdd env s e name=(s,none) ∨
      ¬NoRoomForCapability env s e ∧ ∃ s' c, SameEdges s s' ∧
        edgeInfoCapabilityAdd env s e name=(s'.placeCap env e c name,some c) := by
  unfold edgeInfoCapabilityAdd edgeCapabilityNew NoRoomForCapability
  rw [hnew]
  by_cases hfull : nc ≤ (s.edge e).capabilities.length
  · exact Or.inl ⟨Or.inl hfull,by simp only [if_pos hfull]⟩
  · simp only [if_neg hfull]
    cases hpick : env.capabilityAllocator.pick s.edgeCapabilitiesMemb.used with
    | some c =>
      refine Or.inr ⟨?_,s,c,.refl s,rfl⟩
      rintro (h | ⟨h,_⟩)
      · exact hfull h
      · cases h
    | none =>
      rcases freeUpEdgeCapabilities_cases s with ⟨hall,hfree⟩ | ⟨e',he',c,hc,hinactive,hfree⟩
      · refine Or.inl ⟨Or.inr ⟨rfl,hall⟩,?_⟩
        simp only [hfree,hpick]
      · have hused : (edgeInfoCapabilityRemove s e' c).1.edgeCapabilitiesMemb.used c=false := by
          rw [edgeInfoCapabilityRemove,if_pos hc]
          exact Memb.free_used_same ..
        obtain ⟨c',hc'⟩ := Option.isSome_iff_exists.mp
          ((env.capabilityAllocator.pick_isSome _).mpr ⟨c,hused⟩)
        refine Or.inr ⟨?_,_,c',sameEdges_capabilityRemove s e' c,?_⟩
        · rintro (h | ⟨_,h⟩)
          · exact hfull h
          · rw [h e' he' c hc] at hinactive
            cases hinactive
        · simp only [hfree,hc']
          rfl

/-- The outcomes of `edge_info_add` for an unknown address, in any store: no
room; placed, perhaps after an eviction. -/
theorem edgeAdd_unknown (env : EdgeEnv ne nc ET CT) {addr : IpAddr}
    (hnew : edgeInfoFindAddr s addr=none) :
    NoRoomForEdge env s ∧ edgeInfoAdd env s addr=(s,none) ∨
      ¬NoRoomForEdge env s ∧ ∃ (s' : EdgeStore ne nc ET CT) (e : Fin ne),
        edgeInfoAdd env s addr=(s'.placeEdge env e addr,some e) := by
  have hno := (edgeInfoFindAddr_none_iff addr).mp hnew
  rcases edgeInfoAdd_cases env s addr with ⟨_,e,he,hep,_⟩ | ⟨_,hevicted,ha⟩ | ⟨_,_,e,hfree,ha⟩ |
    ⟨_,old,hold,hinactive,_,e,_,ha⟩
  · exact absurd hep (hno e he)
  · have hpick : env.edgeAllocator.pick s.edgeResourcesMemb.used=none := by
      by_contra hsome
      obtain ⟨e,he⟩ := Option.ne_none_iff_exists'.mp hsome
      rw [edgeInfoAdd,hnew,edgeResourceNew,he] at ha
      exact absurd (Prod.mk.inj ha).2 (Option.some_ne_none e)
    rw [evictedEdge,if_pos ⟨hnew,hpick⟩] at hevicted
    refine Or.inl ⟨⟨hpick,fun e he => ?_⟩,ha⟩
    simpa using List.find?_eq_none.mp hevicted e he
  · refine Or.inr ⟨fun h => ?_,s,e,ha⟩
    obtain ⟨e',he'⟩ := Option.isSome_iff_exists.mp
      ((env.edgeAllocator.pick_isSome _).mpr ⟨e,hfree⟩)
    rw [h.1] at he'
    cases he'
  · refine Or.inr ⟨fun h => ?_,_,e,ha⟩
    rw [h.2 old hold] at hinactive
    cases hinactive

/-- A placed edge is found. -/
theorem findAddr_placeEdge (env : EdgeEnv ne nc ET CT) (s : EdgeStore ne nc ET CT) (e : Fin ne)
    (addr : IpAddr) : edgeInfoFindAddr (s.placeEdge env e addr) addr≠none := by
  intro h
  refine (edgeInfoFindAddr_none_iff addr).mp h e List.mem_cons_self ?_
  rw [placeEdge_edge_same]

/-- Also once it is active. -/
theorem findAddr_activateEdge (s : EdgeStore ne nc ET CT) (e : Fin ne) (addr : IpAddr) :
    edgeInfoFindAddr (activateEdge s e) addr=edgeInfoFindAddr s addr := by
  have hep : ∀ e', ((activateEdge s e).edge e').ep=(s.edge e').ep := by
    intro e'
    by_cases he : e'=e
    · rw [he,activateEdge,EdgeStore.setEdge_edge_same]
    · rw [activateEdge,EdgeStore.setEdge_edge_other _ he]
  unfold edgeInfoFindAddr
  simp only [hep]
  rfl

/-- A placed capability is found. -/
theorem capabilityFind_placeCap (env : EdgeEnv ne nc ET CT) (s : EdgeStore ne nc ET CT)
    (e : Fin ne) (c : Fin (ne*nc)) {name : List UInt8}
    (hname : name.length≤edgeCapabilityNameLen) :
    edgeInfoCapabilityFind (s.placeCap env e c name) e name≠none := by
  intro h
  have hedge : (s.placeCap env e c name).edge e=
      {s.edge e with capabilities := listPush (s.edge e).capabilities c} :=
    EdgeStore.setEdge_edge_same e _
  refine (edgeInfoCapabilityFind_none_iff e name).mp h c ?_ ?_
  · rw [hedge]
    exact List.mem_cons_self
  · have hcap : ((s.placeCap env e c name).cap c).name=name.take edgeCapabilityNameLen :=
      congrArg EdgeCapability.name (EdgeStore.setCap_cap_same c _)
    rw [hcap,List.take_of_length_le hname]

/-- Edges that stay what they are are found as before. -/
theorem SameEdges.findAddr (h : SameEdges s s') (addr : IpAddr) :
    edgeInfoFindAddr s' addr=edgeInfoFindAddr s addr := by
  unfold edgeInfoFindAddr
  rw [h.list]
  simp only [h.ep]

/-- They are as active as before. -/
theorem SameEdges.isActive (h : SameEdges s s') (e : Fin ne) :
    edgeInfoIsActive s' e=edgeInfoIsActive s e := by
  unfold edgeInfoIsActive
  rw [h.flags]

end Stores

section Handlers

variable (env : PublishEnv ne nc n ET CT D A) (p : Publish)

/-- Adding a capability leaves the edges what they are. -/
theorem sameEdges_addCapability (s : State ne nc n ET CT A) (e : Fin ne) (name : List UInt8) :
    SameEdges s.edges (addCapability env p s e name).1.edges := by
  unfold addCapability
  cases hfind : edgeInfoCapabilityFind s.edges e name with
  | some c =>
    dsimp only
    split
    · exact .refl s.edges
    · exact ⟨rfl,fun _ => rfl,fun _ => rfl⟩
  | none =>
    rcases capabilityAdd_unknown env.edges hfind with ⟨_,ha⟩ | ⟨_,s',c,hsame,ha⟩
    · rw [ha]
      exact .refl s.edges
    · rw [ha]
      have hplaced := hsame.trans (sameEdges_placeCap env.edges s' e c name)
      exact ⟨hplaced.list,hplaced.ep,hplaced.flags⟩

/-- Adding a capability changes nothing exactly when there is nothing to add. -/
theorem addCapability_eq_iff (s : State ne nc n ET CT A) (e : Fin ne) {name : List UInt8}
    (hname : name.length≤edgeCapabilityNameLen) :
    (addCapability env p s e name).1=s ↔ NothingToAdd env.edges s.edges e name := by
  unfold addCapability NothingToAdd
  cases hfind : edgeInfoCapabilityFind s.edges e name with
  | some c =>
    dsimp only
    by_cases hactive : edgeCapabilityIsActive s.edges c=true
    · rw [if_pos hactive]
      exact iff_of_true rfl hactive
    · rw [if_neg hactive]
      refine iff_of_false (fun h => hactive ?_) hactive
      rw [←congrArg State.edges h]
      exact (isActive_activateCap c c).mpr (Or.inl rfl)
  | none =>
    rcases capabilityAdd_unknown env.edges hfind with ⟨hno,ha⟩ | ⟨hroom,s',c,_,ha⟩
    · rw [ha]
      exact iff_of_true rfl hno
    · rw [ha]
      refine iff_of_false (fun h => ?_) hroom
      have hsame : activateCap (s'.placeCap env.edges e c name) c=s.edges := congrArg State.edges h
      refine capabilityFind_placeCap env.edges s' e c hname ?_
      rw [edgeInfoCapabilityFind_none_iff] at hfind ⊢
      intro c' hc'
      rw [←activateCap_name c]
      rw [hsame]
      exact hfind c' (hsame ▸ hc')

/-- A capability add without a word about a certificate changes nothing exactly
when there is nothing to do. -/
theorem capabilityAdd_eq_iff (s : State ne nc n ET CT A) (eui64 : Eui64) {name : List UInt8}
    (hname : name.length≤edgeCapabilityNameLen) :
    (match edgeForCapability env p s eui64 with
      | (s,none) => (s,-1)
      | (s,some e) => addCapability env p s e name : State ne nc n ET CT A×ℤ).1=s ↔
        NothingToDo env p s eui64 (.capabilityAdd name) := by
  unfold edgeForCapability NothingToDo
  cases hfind : edgeInfoFindEui64 env.addresses s.edges eui64 p.findIpaddr with
  | some e => exact addCapability_eq_iff env p s e hname
  | none =>
    dsimp only
    cases hadd : edgeInfoFindEui64 env.addresses s.edges eui64 p.addIpaddr with
    | some e =>
      have ha : edgeInfoAdd env.edges s.edges (eui64ToIpaddr env.addresses eui64 p.addIpaddr)=
          (s.edges,some e) := by
        unfold edgeInfoAdd
        rw [show edgeInfoFindAddr s.edges _=some e from hadd]
      rw [ha]
      dsimp only
      by_cases hactive : edgeInfoIsActive s.edges e=true
      · rw [(activateEdge_eq_iff e).mpr hactive]
        exact (addCapability_eq_iff env p s e hname).trans (and_iff_right hactive).symm
      · refine iff_of_false (fun h => hactive ?_) fun h => hactive h.1
        have hsame := sameEdges_addCapability env p {s with edges := activateEdge s.edges e} e name
        rw [h] at hsame
        rw [hsame.isActive]
        exact (isActive_activateEdge e e).mpr (Or.inl rfl)
    | none =>
      rcases edgeAdd_unknown env.edges hadd with ⟨hno,ha⟩ | ⟨hroom,s',e,ha⟩
      · rw [ha]
        exact iff_of_true rfl hno
      · have hplaced := findAddr_placeEdge env.edges s' e
          (eui64ToIpaddr env.addresses eui64 p.addIpaddr)
        rw [ha]
        refine iff_of_false (fun h => ?_) hroom
        let edges := s'.placeEdge env.edges e (eui64ToIpaddr env.addresses eui64 p.addIpaddr)
        have hsame := sameEdges_addCapability env p {s with edges := activateEdge edges e} e name
        have hfound := hsame.findAddr (eui64ToIpaddr env.addresses eui64 p.addIpaddr)
        rw [findAddr_activateEdge] at hfound
        have hs : (addCapability env p {s with edges := activateEdge edges e} e name).1=s := h
        rw [←hfound,hs] at hplaced
        exact hplaced hadd

/-- What the other builds remove takes a capability from its edge. -/
theorem length_removeOnCapabilityRemove (hkeep : env.noActiveRemovalOnUnannounce≠true)
    {edges : EdgeStore ne nc ET CT} {e : Fin ne} {c : Fin (ne*nc)}
    (hc : c∈(edges.edge e).capabilities) :
    ((removeOnCapabilityRemove env e c edges).edge e).capabilities.length<
      (edges.edge e).capabilities.length := by
  have hremoved : ((edgeInfoCapabilityRemove edges e c).1.edge e).capabilities=
      (edges.edge e).capabilities.erase c := by
    rw [edgeInfoCapabilityRemove,if_pos hc]
    exact congrArg EdgeResource.capabilities (EdgeStore.setEdge_edge_same e _)
  have hpos := List.length_pos_of_mem hc
  have hlength := List.length_erase_of_mem hc
  have hless : ((edgeInfoCapabilityRemove edges e c).1.edge e).capabilities.length<
      (edges.edge e).capabilities.length := by
    rw [hremoved]
    omega
  unfold removeOnCapabilityRemove
  rw [if_neg hkeep]
  dsimp only
  split
  · unfold edgeInfoRemove
    split
    · have hfreed : ((edgeResourceFree {(edgeInfoCapabilityRemove edges e c).1 with
          edgeResources := (edgeInfoCapabilityRemove edges e c).1.edgeResources.erase e} e).edge
            e).capabilities=[] := congrArg EdgeResource.capabilities (Memb.set_mem_same ..)
      rw [hfreed]
      exact hpos
    · exact hless
  · exact hless

/-- What a capability remove does with a capability that it has found changes
nothing exactly when the build keeps it, it is inactive and its process has
nothing to do. -/
theorem removeCapability_eq_iff (s : State ne nc n ET CT A) {e : Fin ne} {c : Fin (ne*nc)}
    (hc : c∈(s.edges.edge e).capabilities) :
    ({withdrawCapability env p s e c with
      edges := removeOnCapabilityRemove env e c (withdrawCapability env p s e c).edges} :
        State ne nc n ET CT A)=s ↔
      env.noActiveRemovalOnUnannounce=true ∧ edgeCapabilityIsActive s.edges c=false ∧
        env.postToCapabilityProcess (s.edges.cap c).name .remove e p.now s.edges s.apps=s.apps := by
  by_cases hkeep : env.noActiveRemovalOnUnannounce=true
  · rw [removeOnCapabilityRemove,if_pos hkeep]
    constructor
    · intro h
      have hedges : deactivateCap s.edges c=s.edges := congrArg State.edges h
      have happs : env.postToCapabilityProcess ((deactivateCap s.edges c).cap c).name .remove e
          p.now (deactivateCap s.edges c) s.apps=s.apps := congrArg State.apps h
      rw [hedges] at happs
      exact ⟨hkeep,(deactivateCap_eq_iff c).mp hedges,happs⟩
    · rintro ⟨_,hinactive,happs⟩
      unfold withdrawCapability State.post
      rw [(deactivateCap_eq_iff c).mpr hinactive]
      dsimp only
      rw [happs]
  · refine iff_of_false (fun h => ?_) fun h => hkeep h.1
    have hmem : c∈((deactivateCap s.edges c).edge e).capabilities := hc
    have hlength := length_removeOnCapabilityRemove env hkeep hmem
    have hedges : removeOnCapabilityRemove env e c (deactivateCap s.edges c)=s.edges :=
      congrArg State.edges h
    rw [hedges] at hlength
    exact absurd hlength (lt_irrefl _)

/-- A payload that is a certificate is decoded. -/
theorem decode_of_announced {cbor : PublishDecoder D} {chunk : List UInt8} {cert : Certificate}
    (h : announcedCertificate cbor chunk=some cert) :
    ∃ dec, certificateDecode cbor (cbor.init chunk)=.ok (dec,cert) := by
  unfold announcedCertificate at h
  split at h
  · next dec _ hdecode =>
    cases h
    exact ⟨dec,hdecode⟩
  · cases h

/-- A payload that carries a certificate is decoded. -/
theorem decode_of_embedded {cbor : PublishDecoder D} {chunk : List UInt8} {cert : Certificate}
    (h : embeddedCertificate cbor chunk=some cert) :
    decodeEmbedded cbor chunk=.ok (some cert) := by
  unfold embeddedCertificate at h
  split at h
  · next hdecode => rw [hdecode,h]
  · cases h

/-- **Certificates about somebody else.** In every state, a publish whose
certificate has another subject than the identity of its topic changes nothing
exactly when it is an announce, or one about a capability that finds nothing
to do. -/
theorem mismatched_iff (env : PublishEnv ne nc n ET CT D A) (s : State ne nc n ET CT A)
    (p : Publish) (eui64 : Eui64) (handler : Handler) (cert : Certificate)
    (htopic : parseTopic env.currentEui64 p=some (eui64,handler))
    (hcert : carriedCertificate env.cbor p.chunk handler=some cert)
    (hsubject : cert.subject≠eui64) :
    mqttPublishHandler env s p=s ↔ NothingToDo env p s eui64 handler := by
  have hrefused : processCertificate env p s eui64 cert=(s,-3) := if_pos hsubject.symm
  unfold mqttPublishHandler
  rw [htopic]
  cases handler with
  | announce =>
    refine iff_of_true ?_ trivial
    obtain ⟨dec,hdecode⟩ := decode_of_announced hcert
    unfold runHandler mqttPublishAnnounceHandler
    rw [hdecode]
    exact congrArg Prod.fst hrefused
  | unannounce => cases hcert
  | capabilityAdd name =>
    refine Iff.trans ?_ (capabilityAdd_eq_iff env p s eui64 (length_of_parseTopic htopic))
    unfold runHandler mqttPublishCapabilityAddHandler
    rw [decode_of_embedded hcert]
    dsimp only [processEmbedded]
    exact hrefused.symm ▸ Iff.rfl
  | capabilityRemove name =>
    unfold runHandler mqttPublishCapabilityRemoveHandler NothingToDo
    rw [decode_of_embedded hcert]
    dsimp only [processEmbedded]
    rw [hrefused]
    dsimp only
    cases hfind : edgeInfoFindEui64 env.addresses s.edges eui64 p.findIpaddr with
    | none => exact iff_of_true rfl fun _ he => (nomatch he)
    | some e =>
      simp only [Option.mem_def,Option.some.injEq,forall_eq',NothingToRemove]
      cases hcap : edgeInfoCapabilityFind s.edges e name with
      | none => exact iff_of_true rfl fun _ hc => (nomatch hc)
      | some c =>
        simp only [Option.some.injEq,forall_eq']
        exact removeCapability_eq_iff env p s (edgeInfoCapabilityFind_some hcap).1

end Handlers

section Sample

/-- A node that knows no edge. -/
def sampleStart : State 4 3 2 ℕ ℕ Unit where
  edges := edgeInfoInit 4 3 0 0
  keystore := Keystore.keystoreInit (Keystore.sampleEnv 2)
  stereotypesRequested := []
  apps := ()

/-- A publish about a capability of the first identity with the certificate of
the identity of all sevens. -/
def sampleMismatched (action : List UInt8) : Publish :=
  let eights := 0x48::List.replicate 8 0
  let subject := 0x48::List.replicate 8 7
  let keys := 0x58::0x40::List.replicate 64 7
  sampleMessage 1 (mqttEdgeActionCapability++slash::0x63::slash::action)
    (0x82::0xF5::0x82::0x86::0x01::eights++[0x82,0x00,0x01]++subject++[0x81,0x01]++keys++keys)

/-- The first identity. -/
def sampleIdentity : Eui64 := #v[0,0,0,0,0,0,0,1]

/-- A capability of an unknown edge is not removed. -/
theorem mismatched_iff_sample :
    mqttPublishHandler samplePublishEnv sampleStart
      (sampleMismatched mqttEdgeActionCapabilityRemove)=sampleStart := by
  have hunknown : edgeInfoFindEui64 samplePublishEnv.addresses sampleStart.edges sampleIdentity
      (sampleMismatched mqttEdgeActionCapabilityRemove).findIpaddr=none := by decide +kernel
  refine (mismatched_iff samplePublishEnv sampleStart
    (sampleMismatched mqttEdgeActionCapabilityRemove) sampleIdentity (.capabilityRemove [0x63])
    (Keystore.sampleCertificate 7) (by decide +kernel) (by decide +kernel) (by decide)).mpr
    fun e he => ?_
  rw [hunknown] at he
  cases he

/-- A capability of an unknown edge is added, and so is the edge, although the
certificate is about somebody else. -/
theorem not_unchanged_of_mismatched :
    parseTopic samplePublishEnv.currentEui64 (sampleMismatched mqttEdgeActionCapabilityAdd)=
        some (sampleIdentity,.capabilityAdd [0x63]) ∧
      carriedCertificate samplePublishEnv.cbor
        (sampleMismatched mqttEdgeActionCapabilityAdd).chunk (.capabilityAdd [0x63])=
          some (Keystore.sampleCertificate 7) ∧
      (Keystore.sampleCertificate 7).subject≠sampleIdentity ∧
      mqttPublishHandler samplePublishEnv sampleStart
        (sampleMismatched mqttEdgeActionCapabilityAdd)≠sampleStart := by
  refine ⟨by decide +kernel,by decide +kernel,by decide,fun h => ?_⟩
  exact absurd (congrArg (fun s => s.edges.edgeResources) h) (by decide +kernel)

end Sample

end TrustAlloc.MismatchedCertificates
