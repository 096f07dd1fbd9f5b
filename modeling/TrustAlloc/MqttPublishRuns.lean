import TrustAlloc.EdgeOffers

/-!
# Invariants of the publish handlers

A property of the edge store and the applications is an invariant of
`mqtt_publish_handler` once it survives four things: an edge is admitted, an
edge is withdrawn with all its capabilities, a capability is added, and one is
removed. The rules walk through the handlers once for all such properties, and
may use a condition on the calls of `edge_info_add` that a publish makes.
-/

namespace TrustAlloc.MqttPublishRuns

open Addresses Certificates CertificateDecoding EdgeInfo EdgeStoreRuns EdgeOffers MqttPublish

variable {ne nc n : ℕ} {ET CT D A : Type}

section Calls

variable (env : PublishEnv ne nc n ET CT D A) (p : Publish)

/-- The call of `edge_info_add` that `process_certificate` makes, if it does. -/
def certificateAdds (edges : EdgeStore ne nc ET CT) (eui64 : Eui64) (cert : Certificate) :
    List (EdgeStore ne nc ET CT×IpAddr) :=
  if eui64≠cert.subject ∨ cert.subject=env.currentEui64 then []
  else [(edges,eui64ToIpaddr env.addresses cert.subject p.certIpaddr)]

/-- The call that an embedded certificate leads to. -/
def embeddedAdds (edges : EdgeStore ne nc ET CT) (eui64 : Eui64) :
    Option Certificate → List (EdgeStore ne nc ET CT×IpAddr)
  | some cert => certificateAdds env p edges eui64 cert
  | none => []

/-- The call for an edge that is not known when a capability is added. -/
def unknownAdds (edges : EdgeStore ne nc ET CT) (eui64 : Eui64) :
    List (EdgeStore ne nc ET CT×IpAddr) :=
  if edgeInfoFindEui64 env.addresses edges eui64 p.findIpaddr=none then
    [(edges,eui64ToIpaddr env.addresses eui64 p.addIpaddr)]
  else []

/-- The calls of `edge_info_add` that a handler makes, each with the edges at
that moment and the address. -/
def handlerAdds (s : State ne nc n ET CT A) (eui64 : Eui64) :
    Handler → List (EdgeStore ne nc ET CT×IpAddr)
  | .announce => match certificateDecode env.cbor (env.cbor.init p.chunk) with
    | .error _ => []
    | .ok (_,cert) => certificateAdds env p s.edges eui64 cert
  | .unannounce => []
  | .capabilityAdd _ => match decodeEmbedded env.cbor p.chunk with
    | .error _ => []
    | .ok cert => embeddedAdds env p s.edges eui64 cert++
        unknownAdds env p (processEmbedded env p s eui64 cert).edges eui64
  | .capabilityRemove _ => match decodeEmbedded env.cbor p.chunk with
    | .error _ => []
    | .ok cert => embeddedAdds env p s.edges eui64 cert

/-- The calls of `edge_info_add` that a publish leads to. -/
def edgeAdds (s : State ne nc n ET CT A) : List (EdgeStore ne nc ET CT×IpAddr) :=
  match parseTopic env.currentEui64 p with
  | none => []
  | some (eui64,handler) => handlerAdds env p s eui64 handler

end Calls

/-- An edge is deactivated and all its capabilities are withdrawn. -/
def withdrawEdge (env : PublishEnv ne nc n ET CT D A) (p : Publish) (s : State ne nc n ET CT A)
    (e : Fin ne) : State ne nc n ET CT A :=
  withdrawCapabilities env p e (s.edges.edge e).capabilities
    {s with edges := deactivateEdge s.edges e}

/-- A capability is deactivated and its process is told. -/
def withdrawCapability (env : PublishEnv ne nc n ET CT D A) (p : Publish)
    (s : State ne nc n ET CT A) (e : Fin ne) (c : Fin (ne*nc)) : State ne nc n ET CT A :=
  {s with edges := deactivateCap s.edges c}.post env p c .remove e

section Names

/-- A capability that a publish names has a name that fits its field. -/
theorem length_of_capabilityHandler {mem name : List UInt8}
    (h : capabilityHandler mem=some (.capabilityAdd name)) : name.length≤edgeCapabilityNameLen := by
  unfold capabilityHandler at h
  split at h
  · cases h
  · dsimp only at h
    split at h
    · cases h
    · next distance _ =>
      split at h
      · cases h
      · next hbound =>
        have hle : distance≤edgeCapabilityNameLen := not_lt.mp fun hlt => hbound (Or.inr hlt)
        split at h
        · cases h
          exact (List.length_take_le _ _).trans hle
        · split at h <;> cases h

/-- So has the capability of a whole topic. -/
theorem length_of_parseTopic {currentEui64 eui64 : Eui64} {p : Publish} {name : List UInt8}
    (h : parseTopic currentEui64 p=some (eui64,.capabilityAdd name)) :
    name.length≤edgeCapabilityNameLen := by
  have haction : ∃ topic, actionHandler topic=some (.capabilityAdd name) := by
    unfold parseTopic at h
    dsimp only at h
    iterate 6 (split at h; cases h)
    obtain ⟨handler,hhandler,heq⟩ := Option.map_eq_some_iff.mp h
    cases heq
    exact ⟨_,hhandler⟩
  obtain ⟨topic,htopic⟩ := haction
  unfold actionHandler at htopic
  split_ifs at htopic
  · cases htopic
  · cases htopic
  · exact length_of_capabilityHandler htopic

end Names

section Rules

variable {env : PublishEnv ne nc n ET CT D A} {p : Publish} {s : State ne nc n ET CT A}
  {Q : EdgeStore ne nc ET CT → A → Prop} {C : EdgeStore ne nc ET CT → IpAddr → Prop}

/-- Admitting an edge, when the call of `edge_info_add` meets the condition,
keeps the property. -/
def KeptByAdmission (env : PublishEnv ne nc n ET CT D A) (C : EdgeStore ne nc ET CT → IpAddr → Prop)
    (Q : EdgeStore ne nc ET CT → A → Prop) : Prop :=
  ∀ edges edges' apps addr e, Q edges apps → C edges addr →
    edgeInfoAdd env.edges edges addr=(edges',some e) → Q (activateEdge edges' e) apps

/-- When `edge_info_add` fails it changes nothing. -/
theorem edgeInfoAdd_none {E : EdgeEnv ne nc ET CT} {edges edges' : EdgeStore ne nc ET CT}
    {addr : IpAddr} (h : edgeInfoAdd E edges addr=(edges',none)) : edges'=edges := by
  rcases edgeInfoAdd_cases E edges addr with ⟨_,e,_,_,ha⟩ | ⟨_,_,ha⟩ | ⟨_,_,e,_,ha⟩ |
    ⟨_,_,_,_,_,e,_,ha⟩ <;> rw [ha] at h <;> cases h
  rfl

/-- `process_certificate` at most admits an edge. -/
theorem processCertificate_rule (hadmission : KeptByAdmission env C Q) {eui64 : Eui64}
    {cert : Certificate} (hs : Q s.edges s.apps)
    (hC : ∀ a∈certificateAdds env p s.edges eui64 cert, C a.1 a.2) :
    Q (processCertificate env p s eui64 cert).1.edges
      (processCertificate env p s eui64 cert).1.apps := by
  unfold processCertificate
  unfold certificateAdds at hC
  by_cases hsubject : eui64≠cert.subject
  · rw [if_pos hsubject]
    exact hs
  · rw [if_neg hsubject]
    by_cases hown : cert.subject=env.currentEui64
    · rw [if_pos hown]
      exact hs
    · rw [if_neg hown]
      rw [if_neg (not_or.mpr ⟨hsubject,hown⟩)] at hC
      have hcall := hC _ (List.mem_singleton.mpr rfl)
      split
      · next edges hadd =>
        rw [edgeInfoAdd_none hadd]
        exact hs
      · next edges e hadd => exact hadmission _ _ _ _ e hs hcall hadd

/-- So does handling an embedded certificate. -/
theorem processEmbedded_rule (p : Publish) (eui64 : Eui64) (cert : Option Certificate)
    (hadmission : KeptByAdmission env C Q) (hs : Q s.edges s.apps)
    (hC : ∀ a∈embeddedAdds env p s.edges eui64 cert, C a.1 a.2) :
    Q (processEmbedded env p s eui64 cert).edges (processEmbedded env p s eui64 cert).apps := by
  cases cert with
  | none => exact hs
  | some cert => exact processCertificate_rule hadmission hs hC

/-- The search for the edge of a capability at most admits an edge, and it
returns a listed one. -/
theorem edgeForCapability_rule (p : Publish) (eui64 : Eui64)
    (hQ : ∀ edges apps, Q edges apps → Represented edges) (hadmission : KeptByAdmission env C Q)
    (hs : Q s.edges s.apps)
    (hC : ∀ a∈unknownAdds env p s.edges eui64, C a.1 a.2) :
    Q (edgeForCapability env p s eui64).1.edges (edgeForCapability env p s eui64).1.apps ∧
      ∀ e∈(edgeForCapability env p s eui64).2,
        e∈(edgeForCapability env p s eui64).1.edges.edgeResources := by
  unfold edgeForCapability
  unfold unknownAdds at hC
  cases hfind : edgeInfoFindEui64 env.addresses s.edges eui64 p.findIpaddr with
  | some e =>
    refine ⟨hs,fun e' he' => ?_⟩
    cases he'
    exact (edgeInfoFindAddr_some hfind).1
  | none =>
    rw [if_pos hfind] at hC
    have hcall := hC _ (List.mem_singleton.mpr rfl)
    dsimp only
    split
    · next edges hadd =>
      rw [edgeInfoAdd_none hadd]
      exact ⟨hs,fun _ he' => (nomatch he')⟩
    · next edges e hadd =>
      have hmem := mem_edgeAdd (hQ _ _ hs) env.edges _ (congrArg Prod.snd hadd)
      rw [hadd] at hmem
      refine ⟨hadmission _ _ _ _ e hs hcall hadd,fun e' he' => ?_⟩
      cases he'
      exact hmem

/-- Withdrawing a listed edge keeps the property. -/
def KeptByWithdrawal (env : PublishEnv ne nc n ET CT D A)
    (Q : EdgeStore ne nc ET CT → A → Prop) : Prop :=
  ∀ p s e, Q s.edges s.apps → e∈s.edges.edgeResources →
    Q (removeOnUnannounce env e (withdrawEdge env p s e).edges) (withdrawEdge env p s e).apps

/-- An unannounce at most withdraws an edge. -/
theorem unannounce_rule (hwithdraw : KeptByWithdrawal env Q) {eui64 : Eui64}
    (hs : Q s.edges s.apps) :
    Q (mqttPublishUnannounceHandler env p s eui64).1.edges
      (mqttPublishUnannounceHandler env p s eui64).1.apps := by
  unfold mqttPublishUnannounceHandler
  split
  · exact hs
  · split
    · exact hs
    · split
      · exact hs
      · next e hfind => exact hwithdraw p s e hs (edgeInfoFindAddr_some hfind).1

/-- Adding a capability to a listed edge keeps the property. -/
def KeptByAddition (env : PublishEnv ne nc n ET CT D A)
    (Q : EdgeStore ne nc ET CT → A → Prop) : Prop :=
  ∀ p s e name, Q s.edges s.apps → e∈s.edges.edgeResources →
    name.length≤edgeCapabilityNameLen →
    Q (addCapability env p s e name).1.edges (addCapability env p s e name).1.apps

/-- A capability add admits up to two edges, and then adds a capability. -/
theorem capabilityAdd_rule (hQ : ∀ edges apps, Q edges apps → Represented edges)
    (hadmission : KeptByAdmission env C Q) (hadd : KeptByAddition env Q) {eui64 : Eui64}
    {name : List UInt8} (hname : name.length≤edgeCapabilityNameLen) (hs : Q s.edges s.apps)
    (hC : ∀ a∈handlerAdds env p s eui64 (.capabilityAdd name), C a.1 a.2) :
    Q (mqttPublishCapabilityAddHandler env p s eui64 name).1.edges
      (mqttPublishCapabilityAddHandler env p s eui64 name).1.apps := by
  unfold mqttPublishCapabilityAddHandler
  unfold handlerAdds at hC
  cases hdecode : decodeEmbedded env.cbor p.chunk with
  | error err => exact hs
  | ok cert =>
    rw [hdecode] at hC
    have hcert := processEmbedded_rule p eui64 cert hadmission hs
      fun a ha => hC a (List.mem_append_left _ ha)
    obtain ⟨hedge,hmem⟩ := edgeForCapability_rule p eui64 hQ hadmission hcert
      fun a ha => hC a (List.mem_append_right _ ha)
    dsimp only
    cases hfor : edgeForCapability env p (processEmbedded env p s eui64 cert) eui64 with
    | mk s' r =>
      rw [hfor] at hedge hmem
      cases r with
      | none => exact hedge
      | some e => exact hadd p s' e name hedge (hmem e rfl) hname

/-- Removing a capability of a listed edge keeps the property. -/
def KeptByRemoval (env : PublishEnv ne nc n ET CT D A)
    (Q : EdgeStore ne nc ET CT → A → Prop) : Prop :=
  ∀ p s e c, Q s.edges s.apps → e∈s.edges.edgeResources → c∈(s.edges.edge e).capabilities →
    Q (removeOnCapabilityRemove env e c (withdrawCapability env p s e c).edges)
      (withdrawCapability env p s e c).apps

/-- A capability remove admits up to one edge, and then removes a capability. -/
theorem capabilityRemove_rule (name : List UInt8) (hadmission : KeptByAdmission env C Q)
    (hremove : KeptByRemoval env Q) {eui64 : Eui64} (hs : Q s.edges s.apps)
    (hC : ∀ a∈handlerAdds env p s eui64 (.capabilityRemove name), C a.1 a.2) :
    Q (mqttPublishCapabilityRemoveHandler env p s eui64 name).1.edges
      (mqttPublishCapabilityRemoveHandler env p s eui64 name).1.apps := by
  unfold mqttPublishCapabilityRemoveHandler
  unfold handlerAdds at hC
  cases hdecode : decodeEmbedded env.cbor p.chunk with
  | error err => exact hs
  | ok cert =>
    rw [hdecode] at hC
    have hcert := processEmbedded_rule p eui64 cert hadmission hs hC
    dsimp only
    split
    · exact hcert
    · next e hfind =>
      split
      · exact hcert
      · next c hcap =>
        exact hremove p _ e c hcert (edgeInfoFindAddr_some hfind).1
          (edgeInfoCapabilityFind_some hcap).1

/-- An announce at most admits an edge. -/
theorem announce_rule (hadmission : KeptByAdmission env C Q) {eui64 : Eui64} (hs : Q s.edges s.apps)
    (hC : ∀ a∈handlerAdds env p s eui64 .announce, C a.1 a.2) :
    Q (mqttPublishAnnounceHandler env p s eui64).1.edges
      (mqttPublishAnnounceHandler env p s eui64).1.apps := by
  unfold mqttPublishAnnounceHandler
  unfold handlerAdds at hC
  split
  · exact hs
  · next hdecode =>
    rw [hdecode] at hC
    exact processCertificate_rule hadmission hs hC

/-- Invariant rule for publishes: a property that survives the admission and
the withdrawal of edges and the addition and the removal of capabilities
survives every publish whose calls of `edge_info_add` meet the condition. -/
theorem mqttPublishHandler_rule (hQ : ∀ edges apps, Q edges apps → Represented edges)
    (hadmission : KeptByAdmission env C Q) (hwithdraw : KeptByWithdrawal env Q)
    (hadd : KeptByAddition env Q) (hremove : KeptByRemoval env Q) (hs : Q s.edges s.apps)
    (hC : ∀ a∈edgeAdds env p s, C a.1 a.2) :
    Q (mqttPublishHandler env s p).edges (mqttPublishHandler env s p).apps := by
  unfold mqttPublishHandler
  unfold edgeAdds at hC
  cases hparse : parseTopic env.currentEui64 p with
  | none => exact hs
  | some parsed =>
    obtain ⟨eui64,handler⟩ := parsed
    rw [hparse] at hC
    cases handler with
    | announce => exact announce_rule hadmission hs hC
    | unannounce => exact unannounce_rule hwithdraw hs
    | capabilityAdd name =>
      exact capabilityAdd_rule hQ hadmission hadd (length_of_parseTopic hparse) hs hC
    | capabilityRemove name => exact capabilityRemove_rule name hadmission hremove hs hC

end Rules

section Represented

variable {env : PublishEnv ne nc n ET CT D A} {p : Publish} {s : State ne nc n ET CT A}

/-- The edges after the loop of an unannounce. -/
theorem withdrawCapabilities_edges (e : Fin ne) (caps : List (Fin (ne*nc))) :
    (withdrawCapabilities env p e caps s).edges=caps.foldl deactivateCap s.edges := by
  unfold withdrawCapabilities
  induction caps generalizing s with
  | nil => rfl
  | cons c caps ih => exact ih

/-- Activating an edge keeps the representation. -/
theorem represented_activateEdge {edges : EdgeStore ne nc ET CT} (h : Represented edges)
    (e : Fin ne) : Represented (activateEdge edges e) := h.setEdge e rfl rfl

/-- Deactivating an edge keeps the representation. -/
theorem represented_deactivateEdge {edges : EdgeStore ne nc ET CT} (h : Represented edges)
    (e : Fin ne) : Represented (deactivateEdge edges e) := h.setEdge e rfl rfl

/-- Activating a capability keeps the representation. -/
theorem represented_activateCap {edges : EdgeStore ne nc ET CT} (h : Represented edges)
    (c : Fin (ne*nc)) : Represented (activateCap edges c) := h.setCap c rfl

/-- Deactivating a capability keeps the representation. -/
theorem represented_deactivateCap {edges : EdgeStore ne nc ET CT} (h : Represented edges)
    (c : Fin (ne*nc)) : Represented (deactivateCap edges c) := h.setCap c rfl

/-- Deactivating capabilities keeps the representation. -/
theorem represented_deactivateCaps {edges : EdgeStore ne nc ET CT} (h : Represented edges)
    (caps : List (Fin (ne*nc))) : Represented (caps.foldl deactivateCap edges) := by
  induction caps generalizing edges with
  | nil => exact h
  | cons c caps ih => exact ih (represented_deactivateCap h c)

/-- What a build removes keeps the representation. -/
theorem represented_removeOnUnannounce {edges : EdgeStore ne nc ET CT} (h : Represented edges)
    (e : Fin ne) : Represented (removeOnUnannounce env e edges) := by
  unfold removeOnUnannounce
  split
  · exact h
  · split
    · exact (h.capabilityClear e).edgeRemove e
    · exact h.capabilityClear e

/-- So does what it removes with a capability. -/
theorem represented_removeOnCapabilityRemove {edges : EdgeStore ne nc ET CT}
    (h : Represented edges) (e : Fin ne) (c : Fin (ne*nc)) :
    Represented (removeOnCapabilityRemove env e c edges) := by
  unfold removeOnCapabilityRemove
  split
  · exact h
  · dsimp only
    split
    · exact (h.capabilityRemove e c).edgeRemove e
    · exact h.capabilityRemove e c

/-- An admitted edge keeps the representation. -/
theorem represented_admission {E : EdgeEnv ne nc ET CT} {edges edges' : EdgeStore ne nc ET CT}
    (h : Represented edges) {addr : IpAddr} {e : Fin ne}
    (hadd : edgeInfoAdd E edges addr=(edges',some e)) : Represented (activateEdge edges' e) := by
  have hadded := h.edgeAdd E addr
  rw [hadd] at hadded
  exact represented_activateEdge hadded e

/-- An edge that is deactivated with all its capabilities keeps the representation. -/
theorem represented_withdrawEdge (h : Represented s.edges) (e : Fin ne) :
    Represented (withdrawEdge env p s e).edges := by
  unfold withdrawEdge
  rw [withdrawCapabilities_edges]
  exact represented_deactivateCaps (represented_deactivateEdge h e) _

/-- A capability add keeps the representation. -/
theorem represented_addCapability (h : Represented s.edges) {e : Fin ne}
    (he : e∈s.edges.edgeResources) {name : List UInt8} (hname : name.length≤edgeCapabilityNameLen) :
    Represented (addCapability env p s e name).1.edges := by
  unfold addCapability
  split
  · split
    · exact h
    · exact represented_activateCap h _
  · have hadded := h.capabilityAdd env.edges he hname
    split
    · next hadd =>
      rw [hadd] at hadded
      exact hadded
    · next hadd =>
      rw [hadd] at hadded
      exact represented_activateCap hadded _

/-- Every publish keeps the representation of the edge store. -/
theorem represented_mqttPublishHandler (h : Represented s.edges) :
    Represented (mqttPublishHandler env s p).edges :=
  mqttPublishHandler_rule (Q:=fun edges _ => Represented edges) (C:=fun _ _ => True)
    (fun _ _ hQ => hQ) (fun _ _ _ _ _ hQ _ hadd => represented_admission hQ hadd)
    (fun _ _ e hQ _ => represented_removeOnUnannounce (represented_withdrawEdge hQ e) e)
    (fun _ _ _ _ hQ he hname => represented_addCapability hQ he hname)
    (fun _ _ e c hQ _ _ =>
      represented_removeOnCapabilityRemove (represented_deactivateCap hQ c) e c)
    h fun _ _ => trivial

end Represented

section Outcomes

variable (env : PublishEnv ne nc n ET CT D A) (p : Publish) {s : State ne nc n ET CT A}
  {edges : EdgeStore ne nc ET CT}

/-- The outcomes of adding a capability to a listed edge: known and active;
known, and offered again; unknown and no room; placed and then offered. -/
theorem addCapability_cases (h : Represented s.edges) {e : Fin ne} (he : e∈s.edges.edgeResources)
    {name : List UInt8} (hname : name.length≤edgeCapabilityNameLen) :
    (Offers s.edges e name ∧ edgeInfoCapabilityFind s.edges e name≠none ∧
      addCapability env p s e name=(s,-1)) ∨
    (∃ c∈(s.edges.edge e).capabilities, edgeInfoCapabilityFind s.edges e name≠none ∧
      addCapability env p s e name=(offerCapability env p s e c,0)) ∨
    (edgeInfoCapabilityFind s.edges e name=none ∧ (s.edges.edge e).capabilities.length=nc ∧
      addCapability env p s e name=(s,-1)) ∨
    (edgeInfoCapabilityFind s.edges e name=none ∧ (s.edges.edge e).capabilities.length<nc ∧
      ∃ edges c, Represented edges ∧ e∈edges.edgeResources ∧ c∈(edges.edge e).capabilities ∧
        (∀ e' name', Offers edges e' name' ↔ Offers s.edges e' name') ∧
        (∀ e', edgeInfoIsActive edges e'=edgeInfoIsActive s.edges e') ∧
        addCapability env p s e name=(offerCapability env p {s with edges := edges} e c,0)) := by
  unfold addCapability
  cases hfind : edgeInfoCapabilityFind s.edges e name with
  | some c =>
    obtain ⟨hc,hcname⟩ := edgeInfoCapabilityFind_some hfind
    by_cases hca : edgeCapabilityIsActive s.edges c=true
    · exact Or.inl ⟨⟨he,c,hc,hcname,hca⟩,Option.some_ne_none c,if_pos hca⟩
    · exact Or.inr (Or.inl ⟨c,hc,Option.some_ne_none c,if_neg hca⟩)
  | none =>
    have hnew := (edgeInfoCapabilityFind_none_iff e name).mp hfind
    rcases edgeInfoCapabilityAdd_cases h.wellFormed env.edges he name with
      ⟨c,hc,hcname,_⟩ | ⟨_,hfull,ha⟩ | ⟨_,hlt,c,hfree,ha⟩
    · exact absurd hcname (hnew c hc)
    · exact Or.inr (Or.inr (Or.inl ⟨rfl,hfull,by rw [ha]⟩))
    · have hmem : c∈((s.edges.placeCap env.edges e c name).edge e).capabilities := by
        rw [placeCap_edge_same env.edges h.wellFormed he hfree]
        exact List.mem_cons_self
      exact Or.inr (Or.inr (Or.inr ⟨rfl,hlt,s.edges.placeCap env.edges e c name,c,
        h.placeCap env.edges he hlt hfree hname hnew,he,hmem,
        offers_placeCap h env.edges he hfree name,isActive_placeCap h env.edges he hfree name,
        by rw [ha]⟩))

/-- Deactivating capabilities of one edge takes their names from its offers. -/
theorem offers_deactivateCaps (h : Represented edges) {e : Fin ne} (he : e∈edges.edgeResources)
    {caps : List (Fin (ne*nc))} (hcaps : ∀ c∈caps, c∈(edges.edge e).capabilities) (e' : Fin ne)
    (name : List UInt8) :
    Offers (caps.foldl deactivateCap edges) e' name ↔
      Offers edges e' name ∧ ¬(e'=e ∧ ∃ c∈caps, (edges.cap c).name=name) := by
  induction caps generalizing edges with
  | nil => simp
  | cons c caps ih =>
    have hc := hcaps c List.mem_cons_self
    have hrest := ih (represented_deactivateCap h c) he
      fun c' hc' => hcaps c' (List.mem_cons_of_mem c hc')
    simp only [deactivateCap_name] at hrest
    rw [List.foldl_cons,hrest,offers_deactivateCap h he hc,and_assoc]
    simp only [List.mem_cons,exists_eq_or_imp,and_or_left,not_or]

/-- An edge that offers nothing has no active capability. -/
theorem inactive_of_not_offers {e : Fin ne} (he : e∈edges.edgeResources)
    (hno : ∀ name, ¬Offers edges e name) {c : Fin (ne*nc)} (hc : c∈(edges.edge e).capabilities) :
    edgeCapabilityIsActive edges c=false :=
  Bool.eq_false_iff.mpr fun hactive => hno _ ⟨he,c,hc,rfl,hactive⟩

/-- A withdrawn edge offers nothing, and the others offer what they did. -/
theorem offers_withdrawEdge (h : Represented s.edges) {e : Fin ne} (he : e∈s.edges.edgeResources)
    (e' : Fin ne) (name : List UInt8) :
    Offers (withdrawEdge env p s e).edges e' name ↔ Offers s.edges e' name ∧ e'≠e := by
  unfold withdrawEdge
  rw [withdrawCapabilities_edges,offers_deactivateCaps (represented_deactivateEdge h e) he
    (fun c hc => by rwa [deactivateEdge_capabilities]),offers_deactivateEdge]
  refine and_congr_right fun hoffer => not_congr (and_iff_left_of_imp fun heq => ?_)
  obtain ⟨_,c,hc,hname,_⟩ := heq ▸ hoffer
  exact ⟨c,hc,hname⟩

/-- In particular a withdrawn edge offers nothing. -/
theorem not_offers_withdrawEdge (h : Represented s.edges) {e : Fin ne}
    (he : e∈s.edges.edgeResources) (name : List UInt8) :
    ¬Offers (withdrawEdge env p s e).edges e name :=
  fun hoffer => ((offers_withdrawEdge env p h he e name).mp hoffer).2 rfl

/-- What a build removes of an edge that offers nothing changes no offer, and
the edges that offer something stay as active as they are. -/
theorem offers_removeOnUnannounce (h : Represented edges) {e : Fin ne}
    (he : e∈edges.edgeResources) (hno : ∀ name, ¬Offers edges e name) (e' : Fin ne)
    (name : List UInt8) :
    (Offers (removeOnUnannounce env e edges) e' name ↔ Offers edges e' name) ∧
      (Offers edges e' name →
        edgeInfoIsActive (removeOnUnannounce env e edges) e'=edgeInfoIsActive edges e') := by
  unfold removeOnUnannounce
  obtain ⟨hoffers,hactive⟩ :=
    offers_capabilityClear e (fun _ hc => inactive_of_not_offers he hno hc) e'
  split
  · exact ⟨Iff.rfl,fun _ => rfl⟩
  · split
    · have hother : Offers edges e' name → e'≠e := fun hoffer heq => hno name (heq ▸ hoffer)
      rw [offers_edgeRemove (h.capabilityClear e),hoffers]
      exact ⟨and_iff_right_of_imp hother,fun hoffer =>
        (isActive_edgeRemove (hother hoffer)).trans hactive⟩
    · exact ⟨hoffers name,fun _ => hactive⟩

/-- What a build removes with an inactive capability changes no offer, and the
edges that offer something stay as active as they are. -/
theorem offers_removeOnCapabilityRemove (h : Represented edges) (e : Fin ne) {c : Fin (ne*nc)}
    (hc : edgeCapabilityIsActive edges c=false) (e' : Fin ne) (name : List UInt8) :
    (Offers (removeOnCapabilityRemove env e c edges) e' name ↔ Offers edges e' name) ∧
      (Offers edges e' name → edgeInfoIsActive (removeOnCapabilityRemove env e c edges) e'=
        edgeInfoIsActive edges e') := by
  unfold removeOnCapabilityRemove
  have hoffers := offers_capabilityRemove e e' hc name
  have hactive := isActive_capabilityRemove (s:=edges) e e' c
  split
  · exact ⟨Iff.rfl,fun _ => rfl⟩
  · dsimp only
    split
    · next hempty =>
      have hother : Offers edges e' name → e'≠e := by
        rintro hoffer rfl
        obtain ⟨_,c',hc',_⟩ := hoffers.mpr hoffer
        rw [hempty.2] at hc'
        cases hc'
      rw [offers_edgeRemove (h.capabilityRemove e c),hoffers]
      exact ⟨and_iff_right_of_imp hother,fun hoffer =>
        (isActive_edgeRemove (hother hoffer)).trans hactive⟩
    · exact ⟨hoffers,fun _ => hactive⟩

/-- The name of a capability that is withdrawn is offered by its edge no more. -/
theorem offers_withdrawCapability (h : Represented s.edges) {e : Fin ne}
    (he : e∈s.edges.edgeResources) {c : Fin (ne*nc)} (hc : c∈(s.edges.edge e).capabilities)
    (e' : Fin ne) (name : List UInt8) :
    Offers (withdrawCapability env p s e c).edges e' name ↔
      Offers s.edges e' name ∧ ¬(e'=e ∧ (s.edges.cap c).name=name) :=
  offers_deactivateCap h he hc e' name

end Outcomes

end TrustAlloc.MqttPublishRuns
