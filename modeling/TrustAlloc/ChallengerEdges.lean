import TrustAlloc.ChallengeCursor
import TrustAlloc.MqttPublishRuns

/-!
# Challengers and the edges they challenge

The challenge-response application learns of edges through two events only,
while `edge_info_add` evicts an inactive edge without telling anybody. The
list of challengers stays sound as long as no evicted edge still has the
capability, which an unannounce sees to. A capability that is added to an edge
after its unannounce leaves an inactive edge with a challenger.
-/

namespace TrustAlloc.ChallengerEdges

open ChallengeResponse EdgeInfo EdgeStoreRuns EdgeOffers Keystore MqttPublish MqttPublishRuns
  Pools Runs

variable {ne nc n : ℕ} {ET CT D E A : Type}

/-- What the application does with the two events, if it is its name that the
capability has. It then works on the edges as they are. -/
def postToChallengeResponse (cr : ChallengeResponse.Env ne ET CT E) (name : List UInt8)
    (ev : CapabilityEvent) (e : Fin ne) (now : ℕ) (edges : EdgeStore ne nc ET CT)
    (app : ChallengeResponse.State ne nc ET CT) : ChallengeResponse.State ne nc ET CT :=
  if name=challengeResponseApplicationName then
    match ev with
    | .add => edgeCapabilityAdd cr now e {app with edges := edges}
    | .remove => edgeCapabilityRemove e {app with edges := edges}
  else app

/-- The node with its challenge-response application. -/
abbrev withChallengeResponse (env : PublishEnv ne nc n ET CT D A)
    (cr : ChallengeResponse.Env ne ET CT E) :
    PublishEnv ne nc n ET CT D (ChallengeResponse.State ne nc ET CT) :=
  env.withProcesses (postToChallengeResponse cr)

/-- The node after `edge_info_init` and the start of the application. -/
def start (cr : ChallengeResponse.Env ne ET CT E) (nc : ℕ) (et : ET) (ct : CT)
    (keystore : Store n) (blocks : Fin ne → EdgeChallenger ne) :
    MqttPublish.State ne nc n ET CT (ChallengeResponse.State ne nc ET CT) :=
  ⟨edgeInfoInit ne nc et ct,keystore,[],
    ChallengeResponse.start cr (edgeInfoInit ne nc et ct) blocks⟩

/-- Every challenger points to a listed edge with an active capability for the
application. -/
def ChallengersLive (edges : EdgeStore ne nc ET CT) (app : ChallengeResponse.State ne nc ET CT) :
    Prop :=
  ∀ c∈app.challengers, Offers edges (app.challenger c).edge challengeResponseApplicationName

/-- Whether the challengers are live is decided by the lists and the flags. -/
instance decidableChallengersLive (edges : EdgeStore ne nc ET CT)
    (app : ChallengeResponse.State ne nc ET CT) : Decidable (ChallengersLive edges app) :=
  inferInstanceAs (Decidable (∀ c∈_,_))

/-- No edge that a call of `edge_info_add` evicts has an active capability for
the application. -/
def SparesOffering (env : PublishEnv ne nc n ET CT D A) (s : MqttPublish.State ne nc n ET CT A)
    (p : Publish) : Prop :=
  ∀ a∈edgeAdds env p s, ∀ old∈evictedEdge env.edges a.1 a.2,
    ¬Offers a.1 old challengeResponseApplicationName

/-- Whether an edge with the capability is evicted is decided by the state. -/
instance decidableSparesOffering (env : PublishEnv ne nc n ET CT D A)
    (s : MqttPublish.State ne nc n ET CT A) (p : Publish) : Decidable (SparesOffering env s p) :=
  inferInstanceAs (Decidable (∀ a∈_,∀ old∈_,_))

section Challengers

variable (cr : ChallengeResponse.Env ne ET CT E) {app : ChallengeResponse.State ne nc ET CT}

/-- Some challenger is for the edge. -/
def Challenges (app : ChallengeResponse.State ne nc ET CT) (e : Fin ne) : Prop :=
  ∃ c∈app.challengers, (app.challenger c).edge=e

/-- The list of challengers owns its pool, and no edge has two challengers. -/
structure Registered (app : ChallengeResponse.State ne nc ET CT) : Prop where
  /-- The used blocks are the listed challengers. -/
  owns : Owns app.challengersMemb.used app.challengers
  /-- Challengers are for different edges. -/
  distinct : ∀ c∈app.challengers, ∀ d∈app.challengers,
    (app.challenger c).edge=(app.challenger d).edge → c=d

/-- An application without a cursor is valid exactly when it is registered. -/
theorem registered_iff : Registered app ↔ CursorValid {app with nextChallenge := none} :=
  ⟨fun h => ⟨fun _ hc => (nomatch hc),h.owns,h.distinct⟩,fun h => ⟨h.owns,h.distinct⟩⟩

/-- Linking a challenger for an edge without one adds this edge. -/
theorem Registered.link (h : Registered app) {e c : Fin ne}
    (he : ∀ d∈app.challengers, (app.challenger d).edge≠e)
    (hc : app.challengersMemb.used c=false) :
    Registered (linkChallenger e c app) ∧
      ∀ e', Challenges (linkChallenger e c app) e' → Challenges app e' ∨ e'=e := by
  refine ⟨registered_iff.mpr ((registered_iff.mp h).link he hc),?_⟩
  have hnew := h.owns.not_mem hc
  have hlist : (linkChallenger e c app).challengers=c::app.challengers :=
    listPush_of_not_mem hnew
  rintro e' ⟨d,hd,rfl⟩
  rw [hlist] at hd
  rcases List.mem_cons.mp hd with rfl | hd
  · exact Or.inr (congrArg EdgeChallenger.edge ((app.challengersMemb.take d).set_mem_same d _))
  · refine Or.inl ⟨d,hd,?_⟩
    exact congrArg EdgeChallenger.edge
      ((app.challengersMemb.take c).set_mem_other _ (h.owns.ne_of_mem hd hc)).symm

/-- Unlinking the challenger of an edge takes this edge away. -/
theorem Registered.unlink (h : Registered app) {c : Fin ne} (hc : c∈app.challengers) :
    Registered (unlinkChallenger c app) ∧
      ∀ e', Challenges (unlinkChallenger c app) e' →
        Challenges app e' ∧ e'≠(app.challenger c).edge := by
  refine ⟨registered_iff.mpr ((cursorValid_unlinkChallenger_iff (registered_iff.mp h) hc).mpr
    fun _ hd => (nomatch hd)),?_⟩
  rintro e' ⟨d,hd,rfl⟩
  obtain ⟨hne,hmem⟩ := h.owns.nodup.mem_erase_iff.mp hd
  exact ⟨⟨d,hmem,rfl⟩,fun heq => hne (h.distinct d hmem c hc heq)⟩

/-- `edge_capability_add` challenges at most one more edge. -/
theorem Registered.edgeCapabilityAdd (h : Registered app) (now : ℕ) (e : Fin ne) :
    Registered (edgeCapabilityAdd cr now e app) ∧
      ∀ e', Challenges (edgeCapabilityAdd cr now e app) e' → Challenges app e' ∨ e'=e := by
  have hnote : Registered (noteAdd cr now app) := ⟨h.owns,h.distinct⟩
  unfold ChallengeResponse.edgeCapabilityAdd
  dsimp only
  split
  · exact ⟨hnote,fun e' he' => Or.inl he'⟩
  · next hnone =>
    split
    · exact ⟨hnote,fun e' he' => Or.inl he'⟩
    · next c hc =>
      obtain ⟨hlink,hfor⟩ := hnote.link (edge_ne_of_findEdgeChallenger hnone)
        (cr.challengerAllocator.pick_free hc)
      split
      · exact ⟨⟨hlink.owns,hlink.distinct⟩,hfor⟩
      · exact ⟨hlink,hfor⟩

/-- `edge_capability_remove` leaves no challenger for the edge. -/
theorem Registered.edgeCapabilityRemove (h : Registered app) (e : Fin ne) :
    Registered (edgeCapabilityRemove e app) ∧
      ∀ e', Challenges (edgeCapabilityRemove e app) e' → Challenges app e' ∧ e'≠e := by
  have hnote : Registered (noteRemove app) := ⟨h.owns,h.distinct⟩
  unfold ChallengeResponse.edgeCapabilityRemove
  dsimp only
  split
  · next hnone =>
    refine ⟨hnote,fun e' he' => ⟨he',?_⟩⟩
    rintro rfl
    obtain ⟨c,hc,hedge⟩ := he'
    exact edge_ne_of_findEdgeChallenger hnone c hc hedge
  · next c hfind =>
    obtain ⟨hc,rfl⟩ := mem_of_findEdgeChallenger hfind
    split
    · have hmoved : Registered (moveToNextChallenge (noteRemove app)) := ⟨h.owns,h.distinct⟩
      exact hmoved.unlink hc
    · exact hnote.unlink hc

/-- After an add event the edge may be challenged, if it is for the application. -/
theorem Registered.postAdd (h : Registered app) (name : List UInt8) (e : Fin ne) (now : ℕ)
    (edges : EdgeStore ne nc ET CT) :
    Registered (postToChallengeResponse cr name .add e now edges app) ∧
      ∀ e', Challenges (postToChallengeResponse cr name .add e now edges app) e' →
        Challenges app e' ∨ (e'=e ∧ name=challengeResponseApplicationName) := by
  unfold postToChallengeResponse
  split
  · next hname =>
    have hedges : Registered {app with edges := edges} := ⟨h.owns,h.distinct⟩
    obtain ⟨hadd,hfor⟩ := hedges.edgeCapabilityAdd cr now e
    exact ⟨hadd,fun e' he' => (hfor e' he').imp_right fun heq => ⟨heq,hname⟩⟩
  · exact ⟨h,fun e' he' => Or.inl he'⟩

/-- After a remove event the edge is not challenged, if it is for the application. -/
theorem Registered.postRemove (h : Registered app) (name : List UInt8) (e : Fin ne) (now : ℕ)
    (edges : EdgeStore ne nc ET CT) :
    Registered (postToChallengeResponse cr name .remove e now edges app) ∧
      ∀ e', Challenges (postToChallengeResponse cr name .remove e now edges app) e' →
        Challenges app e' ∧ ¬(e'=e ∧ name=challengeResponseApplicationName) := by
  unfold postToChallengeResponse
  split
  · have hedges : Registered {app with edges := edges} := ⟨h.owns,h.distinct⟩
    obtain ⟨hremove,hfor⟩ := hedges.edgeCapabilityRemove e
    exact ⟨hremove,fun e' he' => ⟨(hfor e' he').1,fun heq => (hfor e' he').2 heq.1⟩⟩
  · next hname => exact ⟨h,fun e' he' => ⟨he',fun heq => hname heq.2⟩⟩

end Challengers

/-- The edge store is represented, the challengers are registered, and every
challenged edge offers the application. -/
structure Live (edges : EdgeStore ne nc ET CT) (app : ChallengeResponse.State ne nc ET CT) :
    Prop where
  /-- The representation of the edge store. -/
  represented : Represented edges
  /-- The list of challengers. -/
  registered : Registered app
  /-- Challenged edges offer the application. -/
  live : ∀ e, Challenges app e → Offers edges e challengeResponseApplicationName

/-- In particular the challengers are live. -/
theorem Live.challengersLive {edges : EdgeStore ne nc ET CT}
    {app : ChallengeResponse.State ne nc ET CT} (h : Live edges app) : ChallengersLive edges app :=
  fun c hc => h.live _ ⟨c,hc,rfl⟩

/-- More offers keep the challengers live. -/
theorem Live.mono {edges edges' : EdgeStore ne nc ET CT}
    {app : ChallengeResponse.State ne nc ET CT} (h : Live edges app) (hrep : Represented edges')
    (hoffers : ∀ e name, Offers edges e name → Offers edges' e name) : Live edges' app :=
  ⟨hrep,h.registered,fun e he => hoffers e _ (h.live e he)⟩

/-- Admitting an edge keeps the challengers live, unless it evicts one that
offers the application. -/
theorem live_admission
    (env : PublishEnv ne nc n ET CT D (ChallengeResponse.State ne nc ET CT)) :
    KeptByAdmission env (fun edges addr => ∀ old∈evictedEdge env.edges edges addr,
      ¬Offers edges old challengeResponseApplicationName) Live := by
  intro edges edges' app addr e h hspared hadd
  have hadded := offers_edgeAdd h.represented env.edges addr
  rw [hadd] at hadded
  refine ⟨represented_admission h.represented hadd,h.registered,fun e' he' => ?_⟩
  have hoffer := h.live e' he'
  rw [offers_activateEdge,hadded]
  exact ⟨hoffer,fun hevicted => hspared e' hevicted hoffer⟩

section Withdrawal

/-- During the loop of an unannounce the challenger of the edge is there only
while the capability for the application is still to come. -/
structure Withdrawing (e : Fin ne) (rest : List (Fin (ne*nc))) (edges : EdgeStore ne nc ET CT)
    (app : ChallengeResponse.State ne nc ET CT) : Prop where
  /-- The representation of the edge store. -/
  represented : Represented edges
  /-- The list of challengers. -/
  registered : Registered app
  /-- The edge is listed. -/
  listed : e∈edges.edgeResources
  /-- The capabilities to come are those of the edge. -/
  owned : ∀ c∈rest, c∈(edges.edge e).capabilities
  /-- Another challenged edge offers the application. -/
  others : ∀ e', Challenges app e' → e'≠e → Offers edges e' challengeResponseApplicationName
  /-- If the edge is challenged its capability is still to come. -/
  own : Challenges app e → ∃ c∈rest, (edges.cap c).name=challengeResponseApplicationName

variable {env : PublishEnv ne nc n ET CT D A} {cr : ChallengeResponse.Env ne ET CT E}
  {p : Publish} {s : MqttPublish.State ne nc n ET CT (ChallengeResponse.State ne nc ET CT)}
  {e : Fin ne}

/-- A withdrawn capability leaves no challenger for its edge, if it is for the
application. -/
theorem Registered.withdrawCapability (env : PublishEnv ne nc n ET CT D A)
    (cr : ChallengeResponse.Env ne ET CT E) (p : Publish) (h : Registered s.apps) (e : Fin ne)
    (c : Fin (ne*nc)) :
    Registered (withdrawCapability (withChallengeResponse env cr) p s e c).apps ∧
      ∀ e', Challenges (withdrawCapability (withChallengeResponse env cr) p s e c).apps e' →
        Challenges s.apps e' ∧ ¬(e'=e ∧ (s.edges.cap c).name=challengeResponseApplicationName) := by
  obtain ⟨hreg,hfor⟩ := h.postRemove cr ((deactivateCap s.edges c).cap c).name e p.now
    (deactivateCap s.edges c)
  refine ⟨hreg,fun e' he' => ?_⟩
  have hpost := hfor e' he'
  rwa [deactivateCap_name] at hpost

/-- One round of the loop. -/
theorem Withdrawing.withdrawCapability {c : Fin (ne*nc)} {rest : List (Fin (ne*nc))}
    (h : Withdrawing e (c::rest) s.edges s.apps) :
    Withdrawing e rest (withdrawCapability (withChallengeResponse env cr) p s e c).edges
      (withdrawCapability (withChallengeResponse env cr) p s e c).apps := by
  have hc := h.owned c List.mem_cons_self
  obtain ⟨hreg,hfor⟩ := h.registered.withdrawCapability env cr p e c
  refine ⟨represented_deactivateCap h.represented c,hreg,h.listed,
    fun c' hc' => h.owned c' (List.mem_cons_of_mem c hc'),fun e' he' hne => ?_,fun he => ?_⟩
  · refine (offers_withdrawCapability _ p h.represented h.listed hc e' _).mpr ?_
    exact ⟨h.others e' (hfor e' he').1 hne,fun heq => hne heq.1⟩
  · obtain ⟨hold,hother⟩ := hfor e he
    obtain ⟨c',hc',hname⟩ := h.own hold
    rcases List.mem_cons.mp hc' with rfl | hc'
    · exact absurd ⟨rfl,hname⟩ hother
    · exact ⟨c',hc',(deactivateCap_name c c').trans hname⟩

/-- After the whole loop every challenged edge is another one. -/
theorem Withdrawing.withdrawCapabilities {caps : List (Fin (ne*nc))}
    (h : Withdrawing e caps s.edges s.apps) :
    Withdrawing e [] (withdrawCapabilities (withChallengeResponse env cr) p e caps s).edges
      (withdrawCapabilities (withChallengeResponse env cr) p e caps s).apps := by
  induction caps generalizing s with
  | nil => exact h
  | cons c caps ih => exact ih h.withdrawCapability

/-- Withdrawing an edge keeps the challengers live. -/
theorem live_withdraw (env : PublishEnv ne nc n ET CT D A) (cr : ChallengeResponse.Env ne ET CT E) :
    KeptByWithdrawal (withChallengeResponse env cr) Live := by
  intro p s e h he
  have hstart : Withdrawing e (s.edges.edge e).capabilities (deactivateEdge s.edges e) s.apps := by
    refine ⟨represented_deactivateEdge h.represented e,h.registered,he,
      fun c hc => by rwa [deactivateEdge_capabilities],fun e' he' _ => ?_,fun hown => ?_⟩
    · rw [offers_deactivateEdge]
      exact h.live e' he'
    · obtain ⟨_,c,hc,hname,_⟩ := h.live e hown
      exact ⟨c,hc,hname⟩
  have hdone : Withdrawing e [] (withdrawEdge (withChallengeResponse env cr) p s e).edges
      (withdrawEdge (withChallengeResponse env cr) p s e).apps :=
    Withdrawing.withdrawCapabilities (s:={s with edges := deactivateEdge s.edges e}) hstart
  have hno := not_offers_withdrawEdge (withChallengeResponse env cr) p h.represented he
  have hlive : Live (withdrawEdge (withChallengeResponse env cr) p s e).edges
      (withdrawEdge (withChallengeResponse env cr) p s e).apps := by
    refine ⟨hdone.represented,hdone.registered,fun e' he' => hdone.others e' he' ?_⟩
    rintro rfl
    obtain ⟨c,hc,_⟩ := hdone.own he'
    cases hc
  exact hlive.mono (represented_removeOnUnannounce hdone.represented e) fun e' name hoffer =>
    (offers_removeOnUnannounce _ hdone.represented hdone.listed hno e' name).1.mpr hoffer

/-- Removing a capability keeps the challengers live. -/
theorem live_remove (env : PublishEnv ne nc n ET CT D A) (cr : ChallengeResponse.Env ne ET CT E) :
    KeptByRemoval (withChallengeResponse env cr) Live := by
  intro p s e c h he hc
  obtain ⟨hreg,hfor⟩ := h.registered.withdrawCapability env cr p e c
  have hrep : Represented (withdrawCapability (withChallengeResponse env cr) p s e c).edges :=
    represented_deactivateCap h.represented c
  have hlive : Live (withdrawCapability (withChallengeResponse env cr) p s e c).edges
      (withdrawCapability (withChallengeResponse env cr) p s e c).apps := by
    refine ⟨hrep,hreg,fun e' he' => ?_⟩
    obtain ⟨hold,hother⟩ := hfor e' he'
    exact (offers_withdrawCapability _ p h.represented he hc e' _).mpr ⟨h.live e' hold,hother⟩
  exact hlive.mono (represented_removeOnCapabilityRemove hrep e c) fun e' name hoffer =>
    (offers_removeOnCapabilityRemove _ hrep e (deactivateCap_inactive c) e' name).1.mpr hoffer

end Withdrawal

section Addition

variable {env : PublishEnv ne nc n ET CT D A} {cr : ChallengeResponse.Env ne ET CT E}
  {p : Publish} {s : MqttPublish.State ne nc n ET CT (ChallengeResponse.State ne nc ET CT)}
  {e : Fin ne}

/-- Offering a capability keeps the challengers live. -/
theorem live_offerCapability (h : Live s.edges s.apps) (he : e∈s.edges.edgeResources)
    {c : Fin (ne*nc)} (hc : c∈(s.edges.edge e).capabilities) :
    Live (offerCapability (withChallengeResponse env cr) p s e c).edges
      (offerCapability (withChallengeResponse env cr) p s e c).apps := by
  have hoffers := offers_activateCap h.represented he hc
  obtain ⟨hreg,hfor⟩ := h.registered.postAdd cr ((activateCap s.edges c).cap c).name e p.now
    (activateCap s.edges c)
  refine ⟨represented_activateCap h.represented c,hreg,fun e' he' => (hoffers e' _).mpr ?_⟩
  rcases hfor e' he' with hold | hnew
  · exact Or.inl (h.live e' hold)
  · rw [activateCap_name] at hnew
    exact Or.inr hnew

/-- Adding a capability keeps the challengers live. -/
theorem live_add (env : PublishEnv ne nc n ET CT D A) (cr : ChallengeResponse.Env ne ET CT E) :
    KeptByAddition (withChallengeResponse env cr) Live := by
  intro p s e name h he hname
  rcases addCapability_cases (withChallengeResponse env cr) p h.represented he hname with
    ⟨_,_,ha⟩ | ⟨c,hc,_,ha⟩ | ⟨_,_,ha⟩ | ⟨_,_,edges,c,hrep,hlisted,hc,hoffers,_,ha⟩
  · rw [ha]
    exact h
  · rw [ha]
    exact live_offerCapability h he hc
  · rw [ha]
    exact h
  · rw [ha]
    exact live_offerCapability (s:={s with edges := edges})
      (h.mono hrep fun e' name' => (hoffers e' name').mpr) hlisted hc

end Addition

/-- **Challengers over a whole run.** After every publish the challengers
point to listed edges with an active capability for the application, as long
as no evicted edge has such a capability. -/
theorem challengersLive_always (env : PublishEnv ne nc n ET CT D A)
    (cr : ChallengeResponse.Env ne ET CT E) (et : ET) (ct : CT) (keystore : Store n)
    (blocks : Fin ne → EdgeChallenger ne) (ps : List Publish)
    (hps : Along (mqttPublishHandler (withChallengeResponse env cr))
      (SparesOffering (withChallengeResponse env cr)) (start cr nc et ct keystore blocks) ps) :
    Always (mqttPublishHandler (withChallengeResponse env cr))
      (fun s => ChallengersLive s.edges s.apps) (start cr nc et ct keystore blocks) ps := by
  have hstart : Live (start cr nc et ct keystore blocks).edges
      (start cr nc et ct keystore blocks).apps := by
    refine ⟨represented_init ne nc et ct,⟨⟨List.nodup_nil,fun _ => ?_⟩,fun _ hc => (nomatch hc)⟩,?_⟩
    · exact iff_of_false Bool.false_ne_true List.not_mem_nil
    · rintro e ⟨c,hc,_⟩
      cases hc
  refine (always_of_step (I:=fun s => Live s.edges s.apps) (fun s p h hspared => ?_) hstart
    hps).mono fun s h => h.challengersLive
  exact mqttPublishHandler_rule (fun _ _ hQ => hQ.represented)
    (live_admission (withChallengeResponse env cr)) (live_withdraw env cr) (live_add env cr)
    (live_remove env cr) h hspared

section Sample

/-- The sample node with its challenge-response application. -/
def sampleNode : MqttPublish.State 4 3 2 ℕ ℕ (ChallengeResponse.State 4 3 ℕ ℕ) :=
  start ChallengeResponse.sampleEnv 3 0 0 (keystoreInit (Keystore.sampleEnv 2)) sampleBlocks

/-- An edge offers the application and withdraws, then four others offer it. -/
def sampleTurnover : List Publish :=
  [sampleCapabilityAdd 1 challengeResponseApplicationName,sampleUnannounce 1,
    sampleCapabilityAdd 2 challengeResponseApplicationName,
    sampleCapabilityAdd 3 challengeResponseApplicationName,
    sampleCapabilityAdd 4 challengeResponseApplicationName,
    sampleCapabilityAdd 5 challengeResponseApplicationName]

/-- The edge that is evicted for the last of them has offered nothing any more. -/
theorem challengersLive_always_sample :
    Always (mqttPublishHandler (withChallengeResponse samplePublishEnv ChallengeResponse.sampleEnv))
      (fun s => ChallengersLive s.edges s.apps) sampleNode sampleTurnover :=
  challengersLive_always samplePublishEnv ChallengeResponse.sampleEnv 0 0
    (keystoreInit (Keystore.sampleEnv 2)) sampleBlocks sampleTurnover (by decide +kernel)

/-- The name of another capability: "x". -/
def sampleOtherName : List UInt8 := [0x78]

/-- The first edge offers the application again after it has withdrawn, and
the others offer something else. -/
def sampleEviction : List Publish :=
  [sampleCapabilityAdd 1 challengeResponseApplicationName,sampleUnannounce 1,
    sampleCapabilityAdd 1 challengeResponseApplicationName,
    sampleCapabilityAdd 2 sampleOtherName,sampleCapabilityAdd 3 sampleOtherName,
    sampleCapabilityAdd 4 sampleOtherName,sampleCapabilityAdd 5 sampleOtherName]

/-- The first edge is evicted while it has a challenger, which is left with
the edge that takes its place. -/
theorem not_challengersLive_of_eviction :
    ¬Always
      (mqttPublishHandler (withChallengeResponse samplePublishEnv ChallengeResponse.sampleEnv))
      (fun s => ChallengersLive s.edges s.apps) sampleNode sampleEviction := by
  intro h
  have hlast := h.last
  revert hlast
  decide +kernel

end Sample

end TrustAlloc.ChallengerEdges
