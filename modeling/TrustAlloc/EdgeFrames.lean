import TrustAlloc.MqttPublishRuns

/-!
# What a publish leaves alone

A publish names one edge. All other edges that are active stay on their list,
in their blocks, with the same data and the same capabilities, because only
inactive edges are evicted, no capability is ever evicted, and a capability
belongs to one edge. This is proved operation by operation, for the handlers,
and then over whole runs.
-/

namespace TrustAlloc.EdgeFrames

open Addresses Certificates CertificateDecoding EdgeInfo EdgeStoreRuns EdgeOffers Keystore
open MqttPublish MqttPublishRuns Runs

variable {ne nc n : ℕ} {ET CT D A : Type}

/-- An edge is still listed in its block, with the same data and the same
capabilities. -/
structure Untouched (s s' : EdgeStore ne nc ET CT) (e : Fin ne) : Prop where
  /-- The edge is listed. -/
  listed : e∈s'.edgeResources
  /-- Address, flags, trust values and the list of capabilities. -/
  edge : s'.edge e=s.edge e
  /-- Names, flags and trust values of the capabilities. -/
  caps : ∀ c∈(s.edge e).capabilities, s'.cap c=s.cap c

section Operations

variable {s s' s'' : EdgeStore ne nc ET CT} {e e' : Fin ne}

/-- Nothing happens to a listed edge. -/
theorem Untouched.refl (he : e∈s.edgeResources) : Untouched s s e := ⟨he,rfl,fun _ _ => rfl⟩

/-- An edge that is left alone twice is left alone. -/
theorem Untouched.trans (h : Untouched s s' e) (h' : Untouched s' s'' e) : Untouched s s'' e := by
  refine ⟨h'.listed,h'.edge.trans h.edge,fun c hc => ?_⟩
  have hc' : c∈(s'.edge e).capabilities := h.edge ▸ hc
  exact (h'.caps c hc').trans (h.caps c hc)

/-- An edge that is left alone is as active as before. -/
theorem Untouched.isActive (h : Untouched s s' e) :
    edgeInfoIsActive s' e=edgeInfoIsActive s e := by
  unfold edgeInfoIsActive
  rw [h.edge]

/-- Writing another edge in place. -/
theorem untouched_setEdge (he : e∈s.edgeResources) (hne : e≠e')
    (v : EdgeResource (ne*nc) ET) : Untouched s (s.setEdge e' v) e :=
  ⟨he,EdgeStore.setEdge_edge_other v hne,fun _ _ => rfl⟩

/-- Writing a capability of another edge in place. -/
theorem untouched_setCap (h : Represented s) (he : e∈s.edgeResources) (he' : e'∈s.edgeResources)
    (hne : e≠e') {c : Fin (ne*nc)} (hc : c∈(s.edge e').capabilities) (v : EdgeCapability CT) :
    Untouched s (s.setCap c v) e := by
  refine ⟨he,rfl,fun c' hc' => EdgeStore.setCap_cap_other v fun heq => ?_⟩
  subst heq
  exact hne (owner_unique h he' he hc hc')

/-- Removing a capability of another edge. -/
theorem untouched_capabilityRemove (he : e∈s.edgeResources) (hne : e≠e') (c : Fin (ne*nc)) :
    Untouched s (edgeInfoCapabilityRemove s e' c).1 e := by
  refine ⟨?_,?_,fun c' _ => edgeInfoCapabilityRemove_cap e' c c'⟩
  · rwa [edgeInfoCapabilityRemove_edgeResources]
  · unfold edgeInfoCapabilityRemove
    split
    · exact EdgeStore.setEdge_edge_other _ hne
    · rfl

/-- Removing capabilities of another edge. -/
theorem untouched_capabilityClear (he : e∈s.edgeResources) (hne : e≠e') :
    Untouched s (edgeInfoCapabilityClear s e') e := by
  unfold edgeInfoCapabilityClear
  generalize (s.edge e').capabilities=caps
  induction caps generalizing s with
  | nil => exact Untouched.refl he
  | cons c caps ih =>
    have hfirst := untouched_capabilityRemove he hne c
    exact hfirst.trans (ih hfirst.listed)

/-- Removing another edge. -/
theorem untouched_edgeRemove (he : e∈s.edgeResources) (hne : e≠e') :
    Untouched s (edgeInfoRemove s e').1 e := by
  refine ⟨?_,edgeInfoRemove_edge_other hne,fun c _ => edgeInfoRemove_cap e' c⟩
  rw [edgeInfoRemove_edgeResources]
  exact (List.mem_erase_of_ne hne).mpr he

/-- Placing an edge in a free block. -/
theorem untouched_placeEdge (h : Represented s) (E : EdgeEnv ne nc ET CT)
    (he : e∈s.edgeResources) (hfree : s.edgeResourcesMemb.used e'=false) (addr : IpAddr) :
    Untouched s (s.placeEdge E e' addr) e := by
  have hadded := addedTo_placeEdge h.wellFormed E hfree addr
  refine ⟨?_,(hadded.others e he).1,(hadded.others e he).2⟩
  rw [hadded.listed]
  exact List.mem_cons_of_mem e' he

/-- `edge_info_add` evicts no active edge. -/
theorem untouched_edgeAdd (h : Represented s) (E : EdgeEnv ne nc ET CT) (addr : IpAddr)
    (he : e∈s.edgeResources) (hactive : edgeInfoIsActive s e=true) :
    Untouched s (edgeInfoAdd E s addr).1 e := by
  rcases edgeInfoAdd_cases E s addr with ⟨_,_,_,_,ha⟩ | ⟨_,_,ha⟩ | ⟨_,_,new,hfree,ha⟩ |
    ⟨_,old,_,hold,_,new,hfree,ha⟩
  · rw [ha]
    exact Untouched.refl he
  · rw [ha]
    exact Untouched.refl he
  · rw [ha]
    exact untouched_placeEdge h E he hfree addr
  · rw [ha]
    have hne : e≠old := fun heq => by
      rw [heq,hold] at hactive
      cases hactive
    have hremoved := untouched_edgeRemove he hne
    exact hremoved.trans (untouched_placeEdge (h.edgeRemove old) E hremoved.listed hfree addr)

/-- `edge_info_capability_add` evicts no capability. -/
theorem untouched_capabilityAdd (h : Represented s) (E : EdgeEnv ne nc ET CT)
    (he : e∈s.edgeResources) (he' : e'∈s.edgeResources) (hne : e≠e') (name : List UInt8) :
    Untouched s (edgeInfoCapabilityAdd E s e' name).1 e := by
  obtain ⟨_,_,_,hlist,_,hcaps⟩ := capabilityAddExact h.wellFormed E e' he' name
  refine ⟨hlist ▸ he,?_,fun c hc => (hcaps e he c hc).2⟩
  rcases edgeInfoCapabilityAdd_cases h.wellFormed E he' name with
    ⟨_,_,_,ha⟩ | ⟨_,_,ha⟩ | ⟨_,_,c,_,ha⟩ <;> rw [ha]
  exact placeCap_edge_other hne c name

end Operations

section Handlers

variable {env : PublishEnv ne nc n ET CT D A} {p : Publish} {s : State ne nc n ET CT A}
  {eui64 : Eui64} {addr : IpAddr} {e : Fin ne}

/-- `eui64_to_ipaddr` gives one address for an identity, whatever the three
buffers held that a publish converts it into. -/
def ConvertsTo (env : PublishEnv ne nc n ET CT D A) (p : Publish) (eui64 : Eui64)
    (addr : IpAddr) : Prop :=
  ∀ ipaddr∈[p.certIpaddr,p.findIpaddr,p.addIpaddr],
    eui64ToIpaddr env.addresses eui64 ipaddr=addr

/-- An edge that is listed and active, under another address. -/
structure Bystander (edges : EdgeStore ne nc ET CT) (addr : IpAddr) (e : Fin ne) : Prop where
  /-- The edge is listed. -/
  listed : e∈edges.edgeResources
  /-- The edge is active. -/
  active : edgeInfoIsActive edges e=true
  /-- Its address is another one. -/
  other : (edges.edge e).ep≠addr

/-- What leaves a bystander alone leaves it a bystander. -/
theorem Bystander.of_untouched {edges edges' : EdgeStore ne nc ET CT}
    (h : Bystander edges addr e) (hu : Untouched edges edges' e) : Bystander edges' addr e :=
  ⟨hu.listed,hu.isActive.trans h.active,by rw [hu.edge]; exact h.other⟩

/-- The edge that is found under an address is not a bystander. -/
theorem Bystander.ne_found {edges : EdgeStore ne nc ET CT} (h : Bystander edges addr e)
    {e' : Fin ne} (hfind : edgeInfoFindAddr edges addr=some e') : e≠e' :=
  fun heq => h.other (heq ▸ (edgeInfoFindAddr_some hfind).2)

/-- Nor is the edge that `edge_info_add` returns for the address. -/
theorem Bystander.ne_added (h : Represented s.edges) (hb : Bystander s.edges addr e)
    {edges : EdgeStore ne nc ET CT} {e' : Fin ne}
    (hadd : edgeInfoAdd env.edges s.edges addr=(edges,some e')) : e≠e' := by
  rcases edgeInfoAdd_cases env.edges s.edges addr with ⟨_,e₁,_,hep,ha⟩ | ⟨_,_,ha⟩ |
    ⟨_,_,e₁,hfree,ha⟩ | ⟨_,old,_,hold,_,e₁,hfree,ha⟩ <;> rw [ha] at hadd <;> cases hadd
  · exact fun heq => hb.other (heq ▸ hep)
  · exact h.wellFormed.ownsEdges.ne_of_mem hb.listed hfree
  · have hne : e≠old := fun heq => by
      have hactive := hb.active
      rw [heq,hold] at hactive
      cases hactive
    exact (h.edgeRemove old).wellFormed.ownsEdges.ne_of_mem
      (untouched_edgeRemove hb.listed hne).listed hfree

/-- An edge is admitted under the address. -/
theorem untouched_admission (h : Represented s.edges) (hb : Bystander s.edges addr e)
    {edges : EdgeStore ne nc ET CT} {e' : Fin ne}
    (hadd : edgeInfoAdd env.edges s.edges addr=(edges,some e')) :
    Untouched s.edges (activateEdge edges e') e := by
  have hadded := untouched_edgeAdd h env.edges addr hb.listed hb.active
  rw [hadd] at hadded
  exact hadded.trans (untouched_setEdge hadded.listed (hb.ne_added h hadd) _)

/-- `process_certificate` leaves the others alone. -/
theorem untouched_processCertificate (h : Represented s.edges) (hb : Bystander s.edges addr e)
    (haddr : ConvertsTo env p eui64 addr) (cert : Certificate) :
    Untouched s.edges (processCertificate env p s eui64 cert).1.edges e := by
  have hrefl := Untouched.refl hb.listed
  unfold processCertificate
  split_ifs with hsubject hown
  · exact hrefl
  · exact hrefl
  · have hconv : eui64ToIpaddr env.addresses cert.subject p.certIpaddr=addr := by
      rw [←not_not.mp hsubject]
      exact haddr _ List.mem_cons_self
    rw [hconv]
    split
    · next hadd =>
      rw [edgeInfoAdd_none hadd]
      exact hrefl
    · next hadd => exact untouched_admission h hb hadd

/-- So does handling an embedded certificate. -/
theorem untouched_processEmbedded (h : Represented s.edges) (hb : Bystander s.edges addr e)
    (haddr : ConvertsTo env p eui64 addr) (cert : Option Certificate) :
    Untouched s.edges (processEmbedded env p s eui64 cert).edges e := by
  cases cert with
  | none => exact Untouched.refl hb.listed
  | some cert => exact untouched_processCertificate h hb haddr cert

/-- Handling an embedded certificate keeps the representation. -/
theorem represented_processEmbedded (h : Represented s.edges) (cert : Option Certificate) :
    Represented (processEmbedded env p s eui64 cert).edges :=
  processEmbedded_rule (Q:=fun edges _ => Represented edges) (C:=fun _ _ => True) p eui64 cert
    (fun _ _ _ _ _ hQ _ hadd => represented_admission hQ hadd) h fun _ _ => trivial

/-- `mqtt_publish_announce_handler`. -/
theorem untouched_announce (h : Represented s.edges) (hb : Bystander s.edges addr e)
    (haddr : ConvertsTo env p eui64 addr) :
    Untouched s.edges (mqttPublishAnnounceHandler env p s eui64).1.edges e := by
  unfold mqttPublishAnnounceHandler
  split
  · exact Untouched.refl hb.listed
  · exact untouched_processCertificate h hb haddr _

/-- Deactivating capabilities of another edge. -/
theorem untouched_deactivateCaps {edges : EdgeStore ne nc ET CT} (h : Represented edges)
    (he : e∈edges.edgeResources) {e' : Fin ne} (he' : e'∈edges.edgeResources) (hne : e≠e')
    {caps : List (Fin (ne*nc))} (hcaps : ∀ c∈caps, c∈(edges.edge e').capabilities) :
    Untouched edges (caps.foldl deactivateCap edges) e := by
  induction caps generalizing edges with
  | nil => exact Untouched.refl he
  | cons c caps ih =>
    have hfirst : Untouched edges (deactivateCap edges c) e :=
      untouched_setCap h he he' hne (hcaps c List.mem_cons_self) _
    exact hfirst.trans (ih (represented_deactivateCap h c) hfirst.listed he'
      fun c' hc' => hcaps c' (List.mem_cons_of_mem c hc'))

/-- Withdrawing another edge. -/
theorem untouched_withdrawEdge (h : Represented s.edges) (he : e∈s.edges.edgeResources)
    {e' : Fin ne} (he' : e'∈s.edges.edgeResources) (hne : e≠e') :
    Untouched s.edges (withdrawEdge env p s e').edges e := by
  have hfirst : Untouched s.edges (deactivateEdge s.edges e') e := untouched_setEdge he hne _
  unfold withdrawEdge
  rw [withdrawCapabilities_edges]
  refine hfirst.trans (untouched_deactivateCaps (represented_deactivateEdge h e') hfirst.listed he'
    hne fun c hc => ?_)
  rwa [deactivateEdge_capabilities]

/-- What a build removes with another edge. -/
theorem untouched_removeOnUnannounce {edges : EdgeStore ne nc ET CT} (he : e∈edges.edgeResources)
    {e' : Fin ne} (hne : e≠e') : Untouched edges (removeOnUnannounce env e' edges) e := by
  have hclear := untouched_capabilityClear he hne
  unfold removeOnUnannounce
  split_ifs
  · exact Untouched.refl he
  · exact hclear.trans (untouched_edgeRemove hclear.listed hne)
  · exact hclear

/-- `mqtt_publish_unannounce_handler`. -/
theorem untouched_unannounce (h : Represented s.edges) (hb : Bystander s.edges addr e)
    (haddr : ConvertsTo env p eui64 addr) :
    Untouched s.edges (mqttPublishUnannounceHandler env p s eui64).1.edges e := by
  have hrefl := Untouched.refl hb.listed
  have hconv : eui64ToIpaddr env.addresses eui64 p.findIpaddr=addr := haddr _ (by simp)
  unfold mqttPublishUnannounceHandler edgeInfoFindEui64
  rw [hconv]
  split
  · exact hrefl
  · split
    · exact hrefl
    · split
      · exact hrefl
      · next e' hfind =>
        have hne := hb.ne_found hfind
        have hwithdraw : Untouched s.edges (withdrawEdge env p s e').edges e :=
          untouched_withdrawEdge h hb.listed (edgeInfoFindAddr_some hfind).1 hne
        exact hwithdraw.trans (untouched_removeOnUnannounce hwithdraw.listed hne)

/-- The search for the edge of a capability returns another edge than a
bystander, and leaves the bystanders alone. -/
theorem untouched_edgeForCapability (h : Represented s.edges) (hb : Bystander s.edges addr e)
    (haddr : ConvertsTo env p eui64 addr) :
    Untouched s.edges (edgeForCapability env p s eui64).1.edges e ∧
      ∀ e'∈(edgeForCapability env p s eui64).2, e≠e' := by
  have hrefl := Untouched.refl hb.listed
  have hfindAddr : eui64ToIpaddr env.addresses eui64 p.findIpaddr=addr := haddr _ (by simp)
  have haddAddr : eui64ToIpaddr env.addresses eui64 p.addIpaddr=addr := haddr _ (by simp)
  unfold edgeForCapability edgeInfoFindEui64
  rw [hfindAddr,haddAddr]
  split
  · next e' hfind =>
    refine ⟨hrefl,fun e₁ he₁ => ?_⟩
    cases he₁
    exact hb.ne_found hfind
  · split
    · next hadd =>
      rw [edgeInfoAdd_none hadd]
      exact ⟨hrefl,fun _ he₁ => (nomatch he₁)⟩
    · next edges e' hadd =>
      refine ⟨untouched_admission h hb hadd,fun e₁ he₁ => ?_⟩
      cases he₁
      exact hb.ne_added h hadd

/-- Adding a capability to another edge. -/
theorem untouched_addCapability (h : Represented s.edges) (he : e∈s.edges.edgeResources)
    {e' : Fin ne} (he' : e'∈s.edges.edgeResources) (hne : e≠e') {name : List UInt8} :
    Untouched s.edges (addCapability env p s e' name).1.edges e := by
  have hrefl := Untouched.refl he
  unfold addCapability
  split
  · next c hfind =>
    split
    · exact hrefl
    · exact untouched_setCap h he he' hne (edgeInfoCapabilityFind_some hfind).1 _
  · have hadded := untouched_capabilityAdd h env.edges he he' hne name
    rcases edgeInfoCapabilityAdd_cases h.wellFormed env.edges he' name with
      ⟨c,hc,_,ha⟩ | ⟨_,_,ha⟩ | ⟨_,hlt,c,hfree,ha⟩
    · rw [ha]
      exact untouched_setCap h he he' hne hc _
    · rw [ha]
      exact hrefl
    · rw [ha] at hadded ⊢
      refine ⟨hadded.listed,hadded.edge,fun c' hc' => ?_⟩
      have hne' := h.wellFormed.ownsCaps.ne_of_mem (s.edges.mem_linked he hc') hfree
      exact (EdgeStore.setCap_cap_other _ hne').trans (hadded.caps c' hc')

/-- `mqtt_publish_capability_add_handler`. -/
theorem untouched_capabilityAddHandler (h : Represented s.edges) (hb : Bystander s.edges addr e)
    (haddr : ConvertsTo env p eui64 addr) (name : List UInt8) :
    Untouched s.edges (mqttPublishCapabilityAddHandler env p s eui64 name).1.edges e := by
  unfold mqttPublishCapabilityAddHandler
  split
  · exact Untouched.refl hb.listed
  · next cert _ =>
    have hrep : Represented (processEmbedded env p s eui64 cert).edges :=
      represented_processEmbedded h cert
    have hcert := untouched_processEmbedded h hb haddr cert
    obtain ⟨hedge,hne⟩ := untouched_edgeForCapability hrep (hb.of_untouched hcert) haddr
    obtain ⟨hedgeRep,hmem⟩ := edgeForCapability_rule (Q:=fun edges _ => Represented edges)
      (C:=fun _ _ => True) p eui64 (fun _ _ hQ => hQ)
      (fun _ _ _ _ _ hQ _ hadd => represented_admission hQ hadd) hrep fun _ _ => trivial
    split
    · next hfor =>
      rw [hfor] at hedge
      exact hcert.trans hedge
    · next s' e' hfor =>
      rw [hfor] at hedge hne hedgeRep hmem
      exact (hcert.trans hedge).trans
        (untouched_addCapability hedgeRep hedge.listed (hmem e' rfl) (hne e' rfl))

/-- What a build removes with a capability of another edge. -/
theorem untouched_removeOnCapabilityRemove {edges : EdgeStore ne nc ET CT}
    (he : e∈edges.edgeResources) {e' : Fin ne} (hne : e≠e') (c : Fin (ne*nc)) :
    Untouched edges (removeOnCapabilityRemove env e' c edges) e := by
  have hremove := untouched_capabilityRemove he hne c
  unfold removeOnCapabilityRemove
  dsimp only
  split_ifs
  · exact Untouched.refl he
  · exact hremove.trans (untouched_edgeRemove hremove.listed hne)
  · exact hremove

/-- `mqtt_publish_capability_remove_handler`. -/
theorem untouched_capabilityRemoveHandler (h : Represented s.edges)
    (hb : Bystander s.edges addr e) (haddr : ConvertsTo env p eui64 addr) (name : List UInt8) :
    Untouched s.edges (mqttPublishCapabilityRemoveHandler env p s eui64 name).1.edges e := by
  have hconv : eui64ToIpaddr env.addresses eui64 p.findIpaddr=addr := haddr _ (by simp)
  unfold mqttPublishCapabilityRemoveHandler edgeInfoFindEui64
  rw [hconv]
  split
  · exact Untouched.refl hb.listed
  · next cert _ =>
    have hrep : Represented (processEmbedded env p s eui64 cert).edges :=
      represented_processEmbedded h cert
    have hcert := untouched_processEmbedded h hb haddr cert
    have hb' := hb.of_untouched hcert
    dsimp only
    split
    · exact hcert
    · next e' hfind =>
      have hne := hb'.ne_found hfind
      split
      · exact hcert
      · next c hcap =>
        have hwithdraw : Untouched (processEmbedded env p s eui64 cert).edges
            (deactivateCap (processEmbedded env p s eui64 cert).edges c) e :=
          untouched_setCap hrep hb'.listed (edgeInfoFindAddr_some hfind).1 hne
            (edgeInfoCapabilityFind_some hcap).1 _
        exact (hcert.trans hwithdraw).trans
          (untouched_removeOnCapabilityRemove hwithdraw.listed hne c)

/-- **A publish leaves the other active edges alone**, on a represented edge store. -/
theorem untouched_mqttPublishHandler (h : Represented s.edges) (hb : Bystander s.edges addr e)
    (haddr : ∀ eui64 handler, parseTopic env.currentEui64 p=some (eui64,handler) →
      ConvertsTo env p eui64 addr) :
    Untouched s.edges (mqttPublishHandler env s p).edges e := by
  unfold mqttPublishHandler
  cases hparse : parseTopic env.currentEui64 p with
  | none => exact Untouched.refl hb.listed
  | some parsed =>
    obtain ⟨eui64,handler⟩ := parsed
    have hconv := haddr eui64 handler hparse
    cases handler with
    | announce => exact untouched_announce h hb hconv
    | unannounce => exact untouched_unannounce h hb hconv
    | capabilityAdd name => exact untouched_capabilityAddHandler h hb hconv name
    | capabilityRemove name => exact untouched_capabilityRemoveHandler h hb hconv name

end Handlers

section Runs

/-- What happens to a node, in any order. -/
inductive Op (ne nc n : ℕ) (ET CT A : Type) where
  /-- A publish is handled. -/
  | publish (p : Publish)
  /-- The edge store is used otherwise, for example to update trust values. -/
  | edges (op : EdgeStoreRuns.Op ne nc ET CT)
  /-- The keystore, the stereotypes and the applications go on. -/
  | others (keystore : Store n) (stereotypesRequested : List StereotypeTags) (apps : A)

/-- One step of a node. -/
def step (env : PublishEnv ne nc n ET CT D A) (s : State ne nc n ET CT A) :
    Op ne nc n ET CT A → State ne nc n ET CT A
  | .publish p => mqttPublishHandler env s p
  | .edges op => {s with edges := EdgeStoreRuns.step env.edges s.edges op}
  | .others keystore stereotypesRequested apps => ⟨s.edges,keystore,stereotypesRequested,apps⟩

/-- Capabilities are added to listed edges, under names that fit. -/
def Admitted (s : State ne nc n ET CT A) : Op ne nc n ET CT A → Prop
  | .edges op => EdgeStoreRuns.Admitted s.edges op
  | .publish _ | .others _ _ _ => True

/-- Admission is that of the edge store. -/
instance decidableAdmitted (s : State ne nc n ET CT A) : ∀ op, Decidable (Admitted s op)
  | .edges op => inferInstanceAs (Decidable (EdgeStoreRuns.Admitted s.edges op))
  | .publish _ | .others _ _ _ => .isTrue trivial

/-- Every step keeps the representation of the edge store. -/
theorem represented_step {env : PublishEnv ne nc n ET CT D A} {s : State ne nc n ET CT A}
    (h : Represented s.edges) {op : Op ne nc n ET CT A} (hop : Admitted s op) :
    Represented (step env s op).edges := by
  cases op with
  | publish p => exact represented_mqttPublishHandler h
  | edges op => exact h.step env.edges hop
  | others => exact h

/-- A publish, whatever its topic and payload, leaves every active edge alone
whose address is not that of the identity in its topic. -/
def LeavesOthersAlone (env : PublishEnv ne nc n ET CT D A) (s : State ne nc n ET CT A) : Prop :=
  ∀ p addr e, Bystander s.edges addr e →
    (∀ eui64 handler, parseTopic env.currentEui64 p=some (eui64,handler) →
      ConvertsTo env p eui64 addr) →
    Untouched s.edges (mqttPublishHandler env s p).edges e

/-- **Publishes about one identity leave the other active edges alone** in
every reachable state of a node. -/
theorem leavesOthersAlone_always (env : PublishEnv ne nc n ET CT D A) (et : ET) (ct : CT)
    (keystore : Store n) (stereotypesRequested : List StereotypeTags) (apps : A)
    (ops : List (Op ne nc n ET CT A))
    (hops : Along (step env) Admitted
      ⟨edgeInfoInit ne nc et ct,keystore,stereotypesRequested,apps⟩ ops) :
    Always (step env) (LeavesOthersAlone env)
      ⟨edgeInfoInit ne nc et ct,keystore,stereotypesRequested,apps⟩ ops :=
  (always_of_step (I:=fun s => Represented s.edges) (fun _ _ hI hA => represented_step hI hA)
    (represented_init ne nc et ct) hops).mono
    fun _ h _ _ _ hb haddr => untouched_mqttPublishHandler h hb haddr

/-- Two edges offer a capability, the trust in one is updated, and then one of
them withdraws. -/
theorem leavesOthersAlone_always_sample :
    Always (step samplePublishEnv) (LeavesOthersAlone samplePublishEnv)
      ⟨edgeInfoInit 4 3 0 0,keystoreInit (sampleEnv 2),[],()⟩
      [.publish (sampleCapabilityAdd 1 [0x63,0x72]),.publish (sampleCapabilityAdd 2 [0x63,0x72]),
        .edges (.writeEdge sampleFirst edgeResourceActive 7),.publish (sampleUnannounce 2)] :=
  leavesOthersAlone_always samplePublishEnv 0 0 (keystoreInit (sampleEnv 2)) [] ()
    [.publish (sampleCapabilityAdd 1 [0x63,0x72]),.publish (sampleCapabilityAdd 2 [0x63,0x72]),
      .edges (.writeEdge sampleFirst edgeResourceActive 7),.publish (sampleUnannounce 2)]
    (by decide)

end Runs

end TrustAlloc.EdgeFrames
