import TrustAlloc.MqttPublishRuns

/-!
# Applications and the availability of edges

The application processes look again whether some active edge offers them
whenever `pe_edge_capability_add` or `pe_edge_capability_remove` is posted.
Handlers that change a flag without a post rely on an edge having no active
capability while it is inactive. An edge that is known and inactive when one
of its capabilities is added breaks this.
-/

namespace TrustAlloc.EdgeAvailability

open Certificates EdgeInfo EdgeStoreRuns EdgeOffers Keystore MqttPublish MqttPublishRuns Runs

variable {ne nc n : ℕ} {ET CT D A : Type}

section Applications

/-- `app_state_t` without the URI and the throughput. -/
structure AppState where
  /-- Name of the application. -/
  name : List UInt8
  /-- Some edge offers the application. -/
  running : Bool

/-- `app_state_init`. -/
def appStateInit (name : List UInt8) : AppState := ⟨name,false⟩

/-- `app_state_edge_capability_add`; returns whether the application starts. -/
def appStateEdgeCapabilityAdd (edges : EdgeStore ne nc ET CT) (state : AppState) : AppState×Bool :=
  let running := edgeInfoHasActiveCapability edges state.name
  ({state with running := running},!state.running && running)

/-- `app_state_edge_capability_remove`; returns whether the application stops. -/
def appStateEdgeCapabilityRemove (edges : EdgeStore ne nc ET CT) (state : AppState) :
    AppState×Bool :=
  let running := edgeInfoHasActiveCapability edges state.name
  ({state with running := running},state.running && !running)

/-- The application processes of a node, each under the name of its application. -/
structure Applications where
  /-- `find_process_with_name`. -/
  process : List UInt8 → Option AppState
  /-- A process bears the name of its application. -/
  named : ∀ name, ∀ a∈process name, a.name=name

/-- Change the state of the process with a name, if there is one. -/
def Applications.update (apps : Applications) (name : List UInt8) (f : AppState → AppState)
    (hf : ∀ a, (f a).name=a.name) : Applications where
  process name' := if name'=name then (apps.process name').map f else apps.process name'
  named name' a ha := by
    split at ha
    · obtain ⟨b,hb,rfl⟩ := Option.map_eq_some_iff.mp ha
      rw [hf]
      exact apps.named name' b hb
    · exact apps.named name' a ha

/-- What an application does with the two events. -/
def postToApplication (name : List UInt8) (ev : CapabilityEvent) (_e : Fin ne) (_now : ℕ)
    (edges : EdgeStore ne nc ET CT) (apps : Applications) : Applications :=
  match ev with
  | .add => apps.update name (fun a => (appStateEdgeCapabilityAdd edges a).1) fun _ => rfl
  | .remove => apps.update name (fun a => (appStateEdgeCapabilityRemove edges a).1) fun _ => rfl

/-- The processes of the given applications after they have started. -/
def Applications.init (names : List (List UInt8)) : Applications where
  process name := if name∈names then some (appStateInit name) else none
  named name a ha := by
    split at ha
    · cases ha
      rfl
    · cases ha

/-- The node with its applications. -/
abbrev withApplications (env : PublishEnv ne nc n ET CT D A) :
    PublishEnv ne nc n ET CT D Applications := env.withProcesses postToApplication

/-- The node after `edge_info_init`, with any keystore and applications. -/
def start (ne nc : ℕ) (et : ET) (ct : CT) (keystore : Store n) (names : List (List UInt8)) :
    State ne nc n ET CT Applications := ⟨edgeInfoInit ne nc et ct,keystore,[],.init names⟩

/-- After a post the process of the name has looked at the edges, and the
others are as they were. -/
theorem mem_process_post {name name' : List UInt8} {ev : CapabilityEvent} {e : Fin ne} {now : ℕ}
    {edges : EdgeStore ne nc ET CT} {apps : Applications} {a : AppState}
    (ha : a∈(postToApplication name ev e now edges apps).process name') :
    (name'=name ∧ a.running=edgeInfoHasActiveCapability edges name) ∨
      (name'≠name ∧ a∈apps.process name') := by
  by_cases heq : name'=name
  · subst heq
    refine Or.inl ⟨rfl,?_⟩
    cases ev <;> simp only [postToApplication,Applications.update,if_true] at ha <;>
      obtain ⟨b,hb,rfl⟩ := Option.map_eq_some_iff.mp ha <;>
      exact congrArg (edgeInfoHasActiveCapability edges) (apps.named _ b hb)
  · refine Or.inr ⟨heq,?_⟩
    cases ev <;> simpa only [postToApplication,Applications.update,if_neg heq] using ha

end Applications

/-- Applications track the availability of edges. -/
structure Available (edges : EdgeStore ne nc ET CT) (apps : Applications) : Prop where
  /-- Edges with an active capability are active. -/
  owners : ∀ e∈edges.edgeResources, ∀ c∈(edges.edge e).capabilities,
    edgeCapabilityIsActive edges c=true → edgeInfoIsActive edges e=true
  /-- An application runs exactly when an active edge offers it. -/
  running : ∀ name, ∀ a∈apps.process name, a.running=edgeInfoHasActiveCapability edges a.name

/-- A publish does not add a capability to a known edge that is inactive once
the embedded certificate has been handled, unless it is turned down because
the edge has used up its share of capabilities. -/
def AddsToActive (env : PublishEnv ne nc n ET CT D A) (s : State ne nc n ET CT A) (p : Publish) :
    Prop :=
  match parseTopic env.currentEui64 p with
  | some (eui64,.capabilityAdd name) =>
    match decodeEmbedded env.cbor p.chunk with
    | .error _ => True
    | .ok cert =>
      let edges := (processEmbedded env p s eui64 cert).edges
      ∀ e∈edgeInfoFindEui64 env.addresses edges eui64 p.findIpaddr,
        edgeInfoIsActive edges e=true ∨
          (edgeInfoCapabilityFind edges e name=none ∧ nc ≤ (edges.edge e).capabilities.length)
  | _ => True

/-- Availability in terms of what edges offer. -/
structure Tracks (edges : EdgeStore ne nc ET CT) (apps : Applications) : Prop where
  /-- The representation of the edge store. -/
  represented : Represented edges
  /-- Edges that offer something are active. -/
  owners : ∀ e name, Offers edges e name → edgeInfoIsActive edges e=true
  /-- An application runs exactly when an edge offers it. -/
  running : ∀ name, ∀ a∈apps.process name, (a.running=true ↔ ∃ e, Offers edges e name)

/-- In a represented store the two readings agree. -/
theorem available_iff_tracks {edges : EdgeStore ne nc ET CT} {apps : Applications}
    (h : Represented edges) : Available edges apps ↔ Tracks edges apps := by
  have hactive : (∀ e name, Offers edges e name → edgeInfoIsActive edges e=true) → ∀ name,
      (edgeInfoHasActiveCapability edges name=true ↔ ∃ e, Offers edges e name) := by
    intro howners name
    rw [hasActive_iff h]
    exact exists_congr fun e => and_iff_right_of_imp (howners e name)
  constructor
  · rintro ⟨howners,hrunning⟩
    have howners' : ∀ e name, Offers edges e name → edgeInfoIsActive edges e=true := by
      rintro e name ⟨he,c,hc,_,hca⟩
      exact howners e he c hc hca
    refine ⟨h,howners',fun name a ha => ?_⟩
    rw [hrunning name a ha,apps.named name a ha]
    exact hactive howners' name
  · rintro ⟨_,howners,hrunning⟩
    refine ⟨fun e he c hc hca => howners e _ ⟨he,c,hc,rfl,hca⟩,fun name a ha => ?_⟩
    rw [apps.named name a ha]
    exact Bool.eq_iff_iff.mpr ((hrunning name a ha).trans (hactive howners name).symm)

/-- A store whose edges offer the same, and whose offering edges are active,
is tracked by the same applications. -/
theorem Tracks.congr {edges edges' : EdgeStore ne nc ET CT} {apps : Applications}
    (h : Tracks edges apps) (hrep : Represented edges')
    (hoffers : ∀ e name, Offers edges' e name ↔ Offers edges e name)
    (hactive : ∀ e name, Offers edges e name → edgeInfoIsActive edges' e=true) :
    Tracks edges' apps := by
  refine ⟨hrep,fun e name hoffer => hactive e name ((hoffers e name).mp hoffer),fun name a ha => ?_⟩
  rw [h.running name a ha]
  exact exists_congr fun e => (hoffers e name).symm

/-- Admitting an edge keeps track: an evicted edge has offered nothing. -/
theorem tracks_admission (env : PublishEnv ne nc n ET CT D Applications) :
    KeptByAdmission env (fun _ _ => True) Tracks := by
  intro edges edges' apps addr e h _ hadd
  have hadded := offers_edgeAdd h.represented env.edges addr
  have hactive := isActive_edgeAdd h.represented env.edges addr
  rw [hadd] at hadded hactive
  have hoffers : ∀ e' name, Offers edges' e' name ↔ Offers edges e' name := by
    refine fun e' name => (hadded e' name).trans (and_iff_left_of_imp fun hoffer hevicted => ?_)
    have hinactive := isActive_evictedEdge hevicted
    rw [h.owners e' name hoffer] at hinactive
    cases hinactive
  refine h.congr (represented_admission h.represented hadd)
    (fun e' name => (offers_activateEdge e e' name).trans (hoffers e' name))
    fun e' name hoffer => (isActive_activateEdge e e').mpr (Or.inr ?_)
  rw [hactive e' name ((hoffers e' name).mpr hoffer)]
  exact h.owners e' name hoffer

section Withdrawal

/-- During the loop of an unannounce only the applications that are named
after the capabilities still to come may be out of date. -/
structure Withdrawing (e : Fin ne) (rest : List (Fin (ne*nc))) (edges : EdgeStore ne nc ET CT)
    (apps : Applications) : Prop where
  /-- The representation of the edge store. -/
  represented : Represented edges
  /-- The edge is listed. -/
  listed : e∈edges.edgeResources
  /-- The edge is inactive already. -/
  inactive : edgeInfoIsActive edges e=false
  /-- The other edges that offer something are active. -/
  owners : ∀ e' name, e'≠e → Offers edges e' name → edgeInfoIsActive edges e'=true
  /-- The capabilities to come are those of the edge. -/
  owned : ∀ c∈rest, c∈(edges.edge e).capabilities
  /-- The other applications run exactly when another edge offers them. -/
  running : ∀ name, ∀ a∈apps.process name, (∃ c∈rest, (edges.cap c).name=name) ∨
    (a.running=true ↔ ∃ e'≠e, Offers edges e' name)

variable {env : PublishEnv ne nc n ET CT D A} {p : Publish}
  {s : State ne nc n ET CT Applications} {e : Fin ne}

/-- While an edge is inactive the others decide what is offered actively. -/
theorem Withdrawing.hasActive_iff {rest : List (Fin (ne*nc))} {edges : EdgeStore ne nc ET CT}
    {apps : Applications} (h : Withdrawing e rest edges apps) (name : List UInt8) :
    edgeInfoHasActiveCapability edges name=true ↔ ∃ e'≠e, Offers edges e' name := by
  rw [EdgeOffers.hasActive_iff h.represented]
  constructor
  · rintro ⟨e',hactive,hoffer⟩
    refine ⟨e',?_,hoffer⟩
    rintro rfl
    rw [h.inactive] at hactive
    cases hactive
  · rintro ⟨e',hne,hoffer⟩
    exact ⟨e',h.owners e' name hne hoffer,hoffer⟩

/-- After a capability is withdrawn its process has looked at the edges. -/
theorem mem_process_withdrawCapability {c : Fin (ne*nc)} {name : List UInt8} {a : AppState}
    (ha : a∈(withdrawCapability (withApplications env) p s e c).apps.process name) :
    (name=(s.edges.cap c).name ∧
      a.running=edgeInfoHasActiveCapability (deactivateCap s.edges c) name) ∨
      (name≠(s.edges.cap c).name ∧ a∈s.apps.process name) := by
  have hpost : a∈(postToApplication ((deactivateCap s.edges c).cap c).name .remove e p.now
      (deactivateCap s.edges c) s.apps).process name := ha
  rw [deactivateCap_name] at hpost
  rcases mem_process_post hpost with ⟨rfl,hrunning⟩ | hother
  · exact Or.inl ⟨rfl,hrunning⟩
  · exact Or.inr hother

/-- One round of the loop: the capability is withdrawn and its process looks
at the edges. -/
theorem Withdrawing.withdrawCapability {c : Fin (ne*nc)} {rest : List (Fin (ne*nc))}
    (h : Withdrawing e (c::rest) s.edges s.apps) :
    Withdrawing e rest (withdrawCapability (withApplications env) p s e c).edges
      (withdrawCapability (withApplications env) p s e c).apps := by
  have hc := h.owned c List.mem_cons_self
  have hothers : ∀ e' name, e'≠e →
      (Offers (deactivateCap s.edges c) e' name ↔ Offers s.edges e' name) := fun e' name hne => by
    rw [offers_deactivateCap h.represented h.listed hc]
    exact and_iff_left fun heq => hne heq.1
  have hquiet : Withdrawing e (c::rest) (deactivateCap s.edges c) s.apps := by
    refine ⟨represented_deactivateCap h.represented c,h.listed,h.inactive,
      fun e' name hne hoffer => h.owners e' name hne ((hothers e' name hne).mp hoffer),h.owned,
      fun name a ha => ?_⟩
    simp only [deactivateCap_name]
    refine (h.running name a ha).imp_right fun hiff => hiff.trans ?_
    exact exists_congr fun e' => and_congr_right fun hne => (hothers e' name hne).symm
  refine ⟨hquiet.represented,hquiet.listed,hquiet.inactive,hquiet.owners,
    fun c' hc' => hquiet.owned c' (List.mem_cons_of_mem c hc'),fun name a ha => ?_⟩
  rcases mem_process_withdrawCapability ha with ⟨rfl,hrunning⟩ | ⟨hne,ha⟩
  · rw [hrunning]
    exact Or.inr (hquiet.hasActive_iff _)
  · rcases hquiet.running name a ha with ⟨c',hc',hname⟩ | hiff
    · rcases List.mem_cons.mp hc' with rfl | hc'
      · rw [deactivateCap_name] at hname
        exact absurd hname.symm hne
      · exact Or.inl ⟨c',hc',hname⟩
    · exact Or.inr hiff

/-- The whole loop brings all applications up to date. -/
theorem Withdrawing.withdrawCapabilities {caps : List (Fin (ne*nc))}
    (h : Withdrawing e caps s.edges s.apps) :
    Withdrawing e [] (withdrawCapabilities (withApplications env) p e caps s).edges
      (withdrawCapabilities (withApplications env) p e caps s).apps := by
  induction caps generalizing s with
  | nil => exact h
  | cons c caps ih => exact ih h.withdrawCapability

/-- Withdrawing an edge keeps track. -/
theorem tracks_withdraw (env : PublishEnv ne nc n ET CT D A) :
    KeptByWithdrawal (withApplications env) Tracks := by
  intro p s e h he
  have hstart : Withdrawing e (s.edges.edge e).capabilities (deactivateEdge s.edges e) s.apps := by
    refine ⟨represented_deactivateEdge h.represented e,he,?_,fun e' name hne hoffer => ?_,
      fun c hc => by rwa [deactivateEdge_capabilities],fun name a ha => ?_⟩
    · exact Bool.eq_false_iff.mpr fun hactive => ((isActive_deactivateEdge e e).mp hactive).1 rfl
    · rw [offers_deactivateEdge] at hoffer
      exact (isActive_deactivateEdge e e').mpr ⟨hne,h.owners e' name hoffer⟩
    · by_cases hown : Offers s.edges e name
      · obtain ⟨_,c,hc,hname,_⟩ := hown
        exact Or.inl ⟨c,hc,hname⟩
      · refine Or.inr ((h.running name a ha).trans (exists_congr fun e' => ?_))
        rw [offers_deactivateEdge]
        refine (and_iff_right_of_imp ?_).symm
        rintro hoffer rfl
        exact hown hoffer
  have hdone : Withdrawing e [] (withdrawEdge (withApplications env) p s e).edges
      (withdrawEdge (withApplications env) p s e).apps :=
    Withdrawing.withdrawCapabilities (s:={s with edges := deactivateEdge s.edges e}) hstart
  have hno := not_offers_withdrawEdge (withApplications env) p h.represented he
  have htracks : Tracks (withdrawEdge (withApplications env) p s e).edges
      (withdrawEdge (withApplications env) p s e).apps := by
    have hne : ∀ e' name, Offers (withdrawEdge (withApplications env) p s e).edges e' name →
        e'≠e := fun e' name hoffer heq => hno name (heq ▸ hoffer)
    refine ⟨hdone.represented,fun e' name hoffer =>
      hdone.owners e' name (hne e' name hoffer) hoffer,fun name a ha => ?_⟩
    refine ((hdone.running name a ha).resolve_left fun hc => ?_).trans (exists_congr fun e' =>
      and_iff_right_of_imp (hne e' name))
    obtain ⟨c,hc,_⟩ := hc
    cases hc
  have hremoved := offers_removeOnUnannounce (withApplications env) hdone.represented
    hdone.listed hno
  refine htracks.congr (represented_removeOnUnannounce hdone.represented e)
    (fun e' name => (hremoved e' name).1) fun e' name hoffer => ?_
  rw [(hremoved e' name).2 hoffer]
  exact htracks.owners e' name hoffer

/-- Removing a capability keeps track. -/
theorem tracks_remove (env : PublishEnv ne nc n ET CT D A) :
    KeptByRemoval (withApplications env) Tracks := by
  intro p s e c h he hc
  have hoffers := offers_withdrawCapability (withApplications env) p h.represented he hc
  have howners : ∀ e' name,
      Offers (withdrawCapability (withApplications env) p s e c).edges e' name →
        edgeInfoIsActive s.edges e'=true := fun e' name hoffer =>
    h.owners e' name ((hoffers e' name).mp hoffer).1
  have hrep : Represented (withdrawCapability (withApplications env) p s e c).edges :=
    represented_deactivateCap h.represented c
  have htracks : Tracks (withdrawCapability (withApplications env) p s e c).edges
      (withdrawCapability (withApplications env) p s e c).apps := by
    refine ⟨hrep,howners,fun name a ha => ?_⟩
    rcases mem_process_withdrawCapability ha with ⟨rfl,hrunning⟩ | ⟨hne,ha⟩
    · rw [hrunning]
      refine (EdgeOffers.hasActive_iff hrep _).trans (exists_congr fun e' => ?_)
      exact and_iff_right_of_imp (howners e' _)
    · refine (h.running name a ha).trans (exists_congr fun e' => ?_)
      rw [hoffers]
      exact (and_iff_left fun heq => hne heq.2.symm).symm
  have hremoved := offers_removeOnCapabilityRemove (withApplications env) hrep e
    (deactivateCap_inactive c)
  refine htracks.congr (represented_removeOnCapabilityRemove hrep e c)
    (fun e' name => (hremoved e' name).1) fun e' name hoffer => ?_
  rw [(hremoved e' name).2 hoffer]
  exact htracks.owners e' name hoffer

end Withdrawal

section Addition

variable {env : PublishEnv ne nc n ET CT D A} {p : Publish}
  {s : State ne nc n ET CT Applications} {e : Fin ne}

/-- Offering a capability keeps track exactly when its edge is active. -/
theorem tracks_offerCapability_iff (h : Tracks s.edges s.apps) (he : e∈s.edges.edgeResources)
    {c : Fin (ne*nc)} (hc : c∈(s.edges.edge e).capabilities) :
    Tracks (offerCapability (withApplications env) p s e c).edges
      (offerCapability (withApplications env) p s e c).apps ↔ edgeInfoIsActive s.edges e=true := by
  have hoffers := offers_activateCap h.represented he hc
  have hrep : Represented (activateCap s.edges c) := represented_activateCap h.represented c
  constructor
  · intro htracks
    exact htracks.owners e _ ((hoffers e (s.edges.cap c).name).mpr (Or.inr ⟨rfl,rfl⟩))
  · intro hactive
    have howners : ∀ e' name, Offers (activateCap s.edges c) e' name →
        edgeInfoIsActive s.edges e'=true := by
      intro e' name hoffer
      rcases (hoffers e' name).mp hoffer with hold | ⟨rfl,_⟩
      · exact h.owners e' name hold
      · exact hactive
    refine ⟨hrep,howners,fun name a ha => ?_⟩
    have hpost : a∈(postToApplication ((activateCap s.edges c).cap c).name .add e p.now
        (activateCap s.edges c) s.apps).process name := ha
    rw [activateCap_name] at hpost
    rcases mem_process_post hpost with ⟨rfl,hrunning⟩ | ⟨hne,hold⟩
    · rw [hrunning]
      refine (EdgeOffers.hasActive_iff hrep _).trans (exists_congr fun e' => ?_)
      exact and_iff_right_of_imp (howners e' _)
    · refine (h.running name a hold).trans (exists_congr fun e' => ?_)
      rw [show Offers (offerCapability (withApplications env) p s e c).edges e' name ↔ _ from
        hoffers e' name]
      exact (or_iff_left fun heq => hne heq.2.symm).symm

/-- Adding a capability to an edge keeps track exactly when the edge is active
or has no room for a capability that it does not know. -/
theorem tracks_addCapability_iff (h : Tracks s.edges s.apps) (he : e∈s.edges.edgeResources)
    {name : List UInt8} (hname : name.length≤edgeCapabilityNameLen) :
    Tracks (addCapability (withApplications env) p s e name).1.edges
        (addCapability (withApplications env) p s e name).1.apps ↔
      edgeInfoIsActive s.edges e=true ∨
        (edgeInfoCapabilityFind s.edges e name=none ∧
          nc ≤ (s.edges.edge e).capabilities.length) := by
  rcases addCapability_cases (withApplications env) p h.represented he hname with
    ⟨hoffer,_,ha⟩ | ⟨c,hc,hfind,ha⟩ | ⟨hfind,hfull,ha⟩ |
    ⟨_,hlt,edges,c,hrep,hlisted,hc,hoffers,hactive,ha⟩
  · rw [ha]
    exact iff_of_true h (Or.inl (h.owners e name hoffer))
  · rw [ha,tracks_offerCapability_iff h he hc]
    exact (or_iff_left fun hno => hfind hno.1).symm
  · rw [ha]
    exact iff_of_true h (Or.inr ⟨hfind,hfull.ge⟩)
  · have hplaced : Tracks edges s.apps := h.congr hrep hoffers
      fun e' name' hoffer => (hactive e').trans (h.owners e' name' hoffer)
    rw [ha,tracks_offerCapability_iff (s:={s with edges := edges}) hplaced hlisted hc,hactive]
    exact (or_iff_left fun hno => absurd hno.2 (not_le.mpr hlt)).symm

/-- An edge that was not known is active when a capability is added to it. -/
theorem isActive_of_unknown {eui64 : Eui64}
    (hfind : edgeInfoFindEui64 env.addresses s.edges eui64 p.findIpaddr=none) :
    ∀ e∈(edgeForCapability (withApplications env) p s eui64).2,
      edgeInfoIsActive (edgeForCapability (withApplications env) p s eui64).1.edges e=true := by
  unfold edgeForCapability
  rw [show edgeInfoFindEui64 (withApplications env).addresses s.edges eui64 p.findIpaddr=none from
    hfind]
  dsimp only
  split
  · exact fun _ he => (nomatch he)
  · intro e' he'
    cases he'
    exact (isActive_activateEdge _ _).mpr (Or.inl rfl)

/-- A capability add keeps track exactly when it meets an active edge or is
turned down for lack of room. -/
theorem tracks_capabilityAddHandler_iff (h : Tracks s.edges s.apps) {eui64 : Eui64}
    {name : List UInt8} (hname : name.length≤edgeCapabilityNameLen) {cert : Option Certificate}
    (hdecode : decodeEmbedded env.cbor p.chunk=.ok cert) :
    Tracks (mqttPublishCapabilityAddHandler (withApplications env) p s eui64 name).1.edges
        (mqttPublishCapabilityAddHandler (withApplications env) p s eui64 name).1.apps ↔
      let edges := (processEmbedded (withApplications env) p s eui64 cert).edges
      ∀ e∈edgeInfoFindEui64 env.addresses edges eui64 p.findIpaddr,
        edgeInfoIsActive edges e=true ∨
          (edgeInfoCapabilityFind edges e name=none ∧ nc ≤ (edges.edge e).capabilities.length) := by
  have hcert := processEmbedded_rule p eui64 cert (tracks_admission (withApplications env)) h
    fun _ _ => trivial
  obtain ⟨hedge,hmem⟩ := edgeForCapability_rule p eui64 (fun _ _ hQ => hQ.represented)
    (tracks_admission (withApplications env)) hcert fun _ _ => trivial
  unfold mqttPublishCapabilityAddHandler
  rw [show decodeEmbedded (withApplications env).cbor p.chunk=.ok cert from hdecode]
  dsimp only
  cases hfind : edgeInfoFindEui64 env.addresses
      (processEmbedded (withApplications env) p s eui64 cert).edges eui64 p.findIpaddr with
  | some e =>
    have hfor : edgeForCapability (withApplications env) p
        (processEmbedded (withApplications env) p s eui64 cert) eui64=
          (processEmbedded (withApplications env) p s eui64 cert,some e) := by
      unfold edgeForCapability
      rw [show edgeInfoFindEui64 (withApplications env).addresses _ eui64 p.findIpaddr=some e from
        hfind]
    rw [hfor]
    simp only [Option.mem_def,Option.some.injEq,forall_eq']
    exact tracks_addCapability_iff hcert (edgeInfoFindAddr_some hfind).1 hname
  | none =>
    have hactive := isActive_of_unknown hfind
    refine iff_of_true ?_ fun _ he => (nomatch he)
    cases hfor : edgeForCapability (withApplications env) p
        (processEmbedded (withApplications env) p s eui64 cert) eui64 with
    | mk s' r =>
      rw [hfor] at hedge hmem hactive
      cases r with
      | none => exact hedge
      | some e =>
        exact (tracks_addCapability_iff hedge (hmem e rfl) hname).mpr (Or.inl (hactive e rfl))

end Addition

/-- One publish keeps track exactly when it adds a capability to an active
edge, if it adds one. -/
theorem tracks_mqttPublishHandler_iff {env : PublishEnv ne nc n ET CT D A}
    {s : State ne nc n ET CT Applications} (h : Tracks s.edges s.apps) (p : Publish) :
    Tracks (mqttPublishHandler (withApplications env) s p).edges
        (mqttPublishHandler (withApplications env) s p).apps ↔
      AddsToActive (withApplications env) s p := by
  have hadmission := tracks_admission (withApplications env)
  unfold mqttPublishHandler AddsToActive
  cases hparse : parseTopic (withApplications env).currentEui64 p with
  | none => exact iff_of_true h trivial
  | some parsed =>
    obtain ⟨eui64,handler⟩ := parsed
    cases handler with
    | announce => exact iff_of_true (announce_rule hadmission h fun _ _ => trivial) trivial
    | unannounce => exact iff_of_true (unannounce_rule (tracks_withdraw env) h) trivial
    | capabilityRemove name =>
      exact iff_of_true (capabilityRemove_rule name hadmission (tracks_remove env) h
        fun _ _ => trivial) trivial
    | capabilityAdd name =>
      dsimp only
      cases hdecode : decodeEmbedded (withApplications env).cbor p.chunk with
      | error err =>
        refine iff_of_true ?_ trivial
        simp only [runHandler,mqttPublishCapabilityAddHandler,hdecode]
        exact h
      | ok cert => exact tracks_capabilityAddHandler_iff h (length_of_parseTopic hparse) hdecode

/-- **Applications and the availability of edges over a whole run.** After
every publish the edges with active capabilities are active and the
applications are up to date, exactly when all capabilities are added to edges
that are active. -/
theorem available_always_iff (env : PublishEnv ne nc n ET CT D A) (et : ET) (ct : CT)
    (keystore : Store n) (names : List (List UInt8)) (ps : List Publish) :
    Always (mqttPublishHandler (withApplications env)) (fun s => Available s.edges s.apps)
        (start ne nc et ct keystore names) ps ↔
      Along (mqttPublishHandler (withApplications env)) (AddsToActive (withApplications env))
        (start ne nc et ct keystore names) ps := by
  have hrep : Represented (edgeInfoInit ne nc et ct) := represented_init ne nc et ct
  refine always_iff_along (I:=fun s => Represented s.edges) (A:=fun _ _ => True)
    (fun s p hI _ => represented_mqttPublishHandler hI) (fun s p hI hP _ => ?_) hrep ?_
    (along_of_forall fun _ _ => trivial)
  · rw [available_iff_tracks (represented_mqttPublishHandler hI)]
    exact tracks_mqttPublishHandler_iff ((available_iff_tracks hI).mp hP) p
  · refine (available_iff_tracks hrep).mpr ⟨hrep,?_,fun name a ha => ?_⟩
    · rintro e name ⟨he,_⟩
      cases he
    · have hstopped : a.running=false := by
        simp only [start,Applications.init] at ha
        split at ha
        · cases ha
          rfl
        · cases ha
      rw [hstopped]
      refine iff_of_false Bool.false_ne_true ?_
      rintro ⟨e,he,_⟩
      cases he

section Sample

/-- The name of a capability and of its application: "cr". -/
def sampleCapabilityName : List UInt8 := [0x63,0x72]

/-- The sample node with one application. -/
def sampleStart : State 4 3 2 ℕ ℕ Applications :=
  start 4 3 0 0 (keystoreInit (sampleEnv 2)) [sampleCapabilityName]

/-- An edge offers its capability, withdraws, and offers it again. -/
def sampleReturn : List Publish :=
  [sampleCapabilityAdd 1 sampleCapabilityName,sampleUnannounce 1,
    sampleCapabilityAdd 1 sampleCapabilityName]

/-- The edge that returns has an active capability and stays inactive. -/
theorem not_available_of_return :
    ¬Always (mqttPublishHandler (withApplications samplePublishEnv))
      (fun s => Available s.edges s.apps) sampleStart sampleReturn := by
  intro h
  have howners := h.last.owners
  revert howners
  decide +kernel

end Sample

end TrustAlloc.EdgeAvailability
