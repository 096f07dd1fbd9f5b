import TrustAlloc.Pools
import TrustAlloc.Runs
import Mathlib.Data.Finset.Card
import Mathlib.Data.Finset.Insert

/-!
# The bridge between MQTT and CoAP

Requests to `mqtt_coap_bridge.py` that subscribe a host to a topic or
unsubscribe it: each looks at the table whether the broker has to be asked,
awaits the broker if so, and then changes the table. Other requests may be
served between any two of these steps. Recorded subscribers are subscribed at
the broker in every run in which two hazards do not occur, and these are all
the ways in which a step can leave a subscriber behind.
-/

namespace TrustAlloc.MqttCoapBridge

open Pools Runs

/-- What a client asks for. -/
inductive Kind where
  /-- `coap_to_mqtt_subscribe`. -/
  | subscribe
  /-- `coap_to_mqtt_unsubscribe`. -/
  | unsubscribe
  deriving DecidableEq

/-- What a request does next. -/
inductive Stage where
  /-- `should_subscribe` or `should_unsubscribe`. -/
  | check
  /-- It awaits the broker. -/
  | broker
  /-- `subscribe` or `unsubscribe` of the manager. -/
  | update
  deriving DecidableEq

/-- A request in progress. -/
structure Request (Topic Host : Type) where
  /-- What the client asks for. -/
  kind : Kind
  /-- The topic of the request. -/
  topic : Topic
  /-- The client. -/
  host : Host
  /-- What is done next. -/
  stage : Stage
  deriving DecidableEq

/-- The bridge and what the broker knows of it. -/
structure State (Topic Host : Type) where
  /-- `_subscriptions` of the manager. -/
  subscriptions : Topic → Finset Host
  /-- Whether the bridge is subscribed at the broker. -/
  subscribed : Topic → Bool
  /-- Requests in progress, in the order of their arrival. -/
  requests : List (Request Topic Host)

variable {Topic Host : Type} [DecidableEq Topic] [DecidableEq Host]

/-- `should_subscribe`. -/
def shouldSubscribe (s : State Topic Host) (topic : Topic) : Bool :=
  decide ((s.subscriptions topic).card=0)

/-- `should_unsubscribe`; looking up a topic never fails. -/
def shouldUnsubscribe (s : State Topic Host) (topic : Topic) (source : Host) : Bool :=
  decide ((s.subscriptions topic).card=1 ∧ source∈s.subscriptions topic)

/-- Whether the broker has to be asked. -/
def asksBroker (s : State Topic Host) (r : Request Topic Host) : Bool :=
  match r.kind with
  | .subscribe => shouldSubscribe s r.topic
  | .unsubscribe => shouldUnsubscribe s r.topic r.host

/-- The subscribers of a topic after its entry was changed; removing a host
that is not there changes nothing. -/
def changed (s : State Topic Host) (r : Request Topic Host) : Finset Host :=
  match r.kind with
  | .subscribe => insert r.host (s.subscriptions r.topic)
  | .unsubscribe => (s.subscriptions r.topic).erase r.host

/-- A request has looked whether the broker has to be asked. -/
def checked (s : State Topic Host) (i : ℕ) (r : Request Topic Host) : State Topic Host :=
  let stage := if asksBroker s r=true then Stage.broker else .update
  {s with requests := s.requests.set i {r with stage := stage}}

/-- The broker has done what a request asks for. -/
def answered (s : State Topic Host) (i : ℕ) (r : Request Topic Host) : State Topic Host := {s with
  subscribed := Function.update s.subscribed r.topic (decide (r.kind=.subscribe))
  requests := s.requests.set i {r with stage := .update}}

/-- The broker has refused, which ends the request. -/
def refused (s : State Topic Host) (i : ℕ) : State Topic Host :=
  {s with requests := s.requests.eraseIdx i}

/-- A request has changed the table, which ends it. -/
def recorded (s : State Topic Host) (i : ℕ) (r : Request Topic Host) : State Topic Host := {s with
  subscriptions := Function.update s.subscriptions r.topic (changed s r)
  requests := s.requests.eraseIdx i}

/-- The next step of the request at a place of the list; the flag tells
whether the broker succeeds. -/
def advance (s : State Topic Host) (i : ℕ) (r : Request Topic Host) (ok : Bool) :
    State Topic Host :=
  match r.stage with
  | .check => checked s i r
  | .broker => if ok=true then answered s i r else refused s i
  | .update => recorded s i r

/-- What can happen next, in any order. -/
inductive Op (Topic Host : Type) where
  /-- A request arrives. -/
  | arrive (kind : Kind) (topic : Topic) (host : Host)
  /-- The request at a place of the list takes its next step. -/
  | go (i : ℕ) (ok : Bool)

/-- One step of the bridge. -/
def step (s : State Topic Host) : Op Topic Host → State Topic Host
  | .arrive kind topic host => {s with requests := s.requests++[⟨kind,topic,host,.check⟩]}
  | .go i ok =>
    match s.requests[i]? with
    | none => s
    | some r => advance s i r ok

/-- The bridge after `start`: every topic of the database was subscribed. -/
def start (saved : List (Topic × Finset Host)) : State Topic Host where
  subscriptions topic := ((saved.find? fun entry => decide (entry.1=topic)).map Prod.snd).getD ∅
  subscribed topic := saved.any fun entry => decide (entry.1=topic)
  requests := []

/-- When no request is in progress, every topic with a recorded subscriber is
subscribed at the broker. -/
def ReallySubscribed (s : State Topic Host) : Prop :=
  s.requests=[] → ∀ topic, s.subscriptions topic≠∅ → s.subscribed topic=true

/-- The host is about to be removed from the table. -/
def Leaving (s : State Topic Host) (topic : Topic) (host : Host) : Prop :=
  (⟨.unsubscribe,topic,host,.update⟩ : Request Topic Host)∈s.requests

/-- Some host is about to be recorded. -/
def Joining (s : State Topic Host) (topic : Topic) : Prop :=
  ∃ host, (⟨.subscribe,topic,host,.update⟩ : Request Topic Host)∈s.requests

/-- Every topic is subscribed at the broker that has a subscriber who is not
about to be removed, or one who is about to be recorded. -/
def Covered (s : State Topic Host) : Prop :=
  ∀ topic, (∃ host∈s.subscriptions topic, ¬Leaving s topic host) ∨ Joining s topic →
    s.subscribed topic=true

/-- The two hazards do not occur. A subscription that finds the topic in use
finds it subscribed at the broker; and when the broker ends the subscription
of a topic, its only subscribers are the client who asked for it and others
who are about to be removed, and nobody is about to be recorded. -/
def NobodyLeft (s : State Topic Host) : Op Topic Host → Prop
  | .arrive _ _ _ => True
  | .go i ok => ∀ r∈s.requests[i]?,
    (r.stage=.check → r.kind=.subscribe → s.subscriptions r.topic≠∅ →
      s.subscribed r.topic=true) ∧
    (r.stage=.broker → r.kind=.unsubscribe → ok=true →
      (∀ host∈s.subscriptions r.topic, host=r.host ∨ Leaving s r.topic host) ∧
      ∀ r'∈s.requests, ¬(r'.kind=.subscribe ∧ r'.topic=r.topic ∧ r'.stage=.update))

/-- Leaving is decided by the requests. -/
instance decidableLeaving (s : State Topic Host) (topic : Topic) (host : Host) :
    Decidable (Leaving s topic host) :=
  inferInstanceAs (Decidable ((⟨.unsubscribe,topic,host,.update⟩ : Request Topic Host)∈_))

/-- The hazards are decided by the table, the broker and the requests. -/
instance decidableNobodyLeft (s : State Topic Host) : ∀ op, Decidable (NobodyLeft s op)
  | .arrive _ _ _ => .isTrue trivial
  | .go _ _ => Option.decidableForallMem _

section Steps

variable {s : State Topic Host}

omit [DecidableEq Topic] [DecidableEq Host] in
/-- Nobody is recorded exactly if the broker has to be asked. -/
theorem shouldSubscribe_iff (topic : Topic) :
    shouldSubscribe s topic=true ↔ s.subscriptions topic=∅ := by
  rw [shouldSubscribe,decide_eq_true_eq,Finset.card_eq_zero]

omit [DecidableEq Topic] [DecidableEq Host] in
/-- A step that leaves the table and the broker alone keeps everybody covered
if nobody begins to join and nobody stops to leave. -/
theorem Covered.congr (h : Covered s) {s' : State Topic Host}
    (hsubs : s'.subscriptions=s.subscriptions) (hbroker : s'.subscribed=s.subscribed)
    (hleave : ∀ topic host, Leaving s topic host → Leaving s' topic host)
    (hjoin : ∀ topic, Joining s' topic → Joining s topic) : Covered s' := by
  intro topic hneed
  rw [hbroker]
  refine h topic ?_
  rcases hneed with ⟨host,hhost,hnot⟩ | hj
  · exact Or.inl ⟨host,hsubs ▸ hhost,fun hl => hnot (hleave topic host hl)⟩
  · exact Or.inr (hjoin topic hj)

/-- The arrival of a request keeps everybody covered. -/
theorem Covered.arrive (h : Covered s) (kind : Kind) (topic : Topic) (host : Host) :
    Covered (step s (.arrive kind topic host)) := by
  refine h.congr rfl rfl (fun _ _ hl => List.mem_append_left _ hl) ?_
  rintro topic' ⟨host',hj⟩
  rcases List.mem_append.mp hj with hold | hnew
  · exact ⟨host',hold⟩
  · cases List.mem_singleton.mp hnew

/-- A check keeps everybody covered exactly if a subscription that finds the
topic in use finds it subscribed. -/
theorem covered_checked_iff (h : Covered s) {i : ℕ} {r : Request Topic Host}
    (hi : s.requests[i]?=some r) (hstage : r.stage=.check) :
    Covered (checked s i r) ↔
      (r.kind=.subscribe → s.subscriptions r.topic≠∅ → s.subscribed r.topic=true) := by
  have hleave : ∀ topic host, Leaving s topic host → Leaving (checked s i r) topic host := by
    intro topic host hl
    refine mem_set_of_ne hl hi fun hr => ?_
    rw [← hr] at hstage
    cases hstage
  obtain ⟨kind,topic,host,stage⟩ := r
  constructor
  · rintro hc ⟨⟩ huse
    refine hc topic (Or.inr ⟨host,?_⟩)
    have hasks : asksBroker s ⟨.subscribe,topic,host,stage⟩≠true :=
      fun hs => huse ((shouldSubscribe_iff topic).mp hs)
    change _∈s.requests.set i ⟨_,_,_,if asksBroker s _=true then .broker else .update⟩
    rw [if_neg hasks]
    exact mem_set_self hi
  · intro hok topic' hneed
    by_cases hsame : topic'=topic ∧ kind=.subscribe ∧ s.subscriptions topic≠∅
    · obtain ⟨rfl,hkind,huse⟩ := hsame
      exact hok hkind huse
    · refine h topic' ?_
      rcases hneed with ⟨host',hhost,hnot⟩ | ⟨host',hj⟩
      · exact Or.inl ⟨host',hhost,fun hl => hnot (hleave topic' host' hl)⟩
      · refine Or.inr ⟨host',?_⟩
        rcases List.mem_or_eq_of_mem_set hj with hold | hnew
        · exact hold
        · -- the request itself, which goes on without the broker only if the topic is in use
          injection hnew with hkind htopic _ hstage'
          refine absurd ⟨htopic,hkind.symm,fun hempty => ?_⟩ hsame
          have hasks : asksBroker s ⟨kind,topic,host,stage⟩=true := by
            rw [asksBroker,← hkind]
            exact (shouldSubscribe_iff topic).mpr hempty
          rw [if_pos hasks] at hstage'
          cases hstage'

omit [DecidableEq Topic] [DecidableEq Host] in
/-- A refusal of the broker keeps everybody covered. -/
theorem Covered.refused (h : Covered s) {i : ℕ} {r : Request Topic Host}
    (hi : s.requests[i]?=some r) (hstage : r.stage=.broker) : Covered (refused s i) := by
  refine h.congr rfl rfl (fun topic host hl => mem_eraseIdx_of_ne hl hi fun hr => ?_)
    fun topic ⟨host,hj⟩ => ⟨host,List.mem_of_mem_eraseIdx hj⟩
  rw [← hr] at hstage
  cases hstage

omit [DecidableEq Host] in
/-- Who leaves or joins after an answer of the broker. -/
theorem mem_answered_iff {i : ℕ} {r r' : Request Topic Host} (hi : s.requests[i]?=some r)
    (hstage : r.stage=.broker) (hstage' : r'.stage=.update) :
    r'∈(answered s i r).requests ↔ r'∈s.requests ∨ r'={r with stage := .update} := by
  constructor
  · exact fun hmem => List.mem_or_eq_of_mem_set hmem
  · rintro (hold | rfl)
    · refine mem_set_of_ne hold hi fun hr => ?_
      rw [hr,hstage] at hstage'
      cases hstage'
    · exact mem_set_self hi

omit [DecidableEq Host] in
/-- A subscription at the broker keeps everybody covered. -/
theorem Covered.subscribed (h : Covered s) {i : ℕ} {r : Request Topic Host}
    (hi : s.requests[i]?=some r) (hstage : r.stage=.broker) (hkind : r.kind=.subscribe) :
    Covered (answered s i r) := by
  intro topic hneed
  unfold answered
  dsimp only
  by_cases htopic : topic=r.topic
  · rw [htopic,Function.update_self,hkind]
    rfl
  · rw [Function.update_of_ne htopic]
    refine h topic ?_
    rcases hneed with ⟨host,hhost,hnot⟩ | ⟨host,hj⟩
    · exact Or.inl ⟨host,hhost,fun hl =>
        hnot ((mem_answered_iff hi hstage rfl).mpr (Or.inl hl))⟩
    · rcases (mem_answered_iff hi hstage rfl).mp hj with hold | hnew
      · exact Or.inr ⟨host,hold⟩
      · exact absurd (congrArg Request.topic hnew) htopic

omit [DecidableEq Host] in
/-- After the end of a subscription at the broker, its client leaves as well. -/
theorem leaving_unsubscribed_iff {i : ℕ} {r : Request Topic Host} (hi : s.requests[i]?=some r)
    (hstage : r.stage=.broker) (hkind : r.kind=.unsubscribe) (topic : Topic) (host : Host) :
    Leaving (answered s i r) topic host ↔ Leaving s topic host ∨ topic=r.topic ∧ host=r.host := by
  refine (mem_answered_iff hi hstage rfl).trans (or_congr Iff.rfl ?_)
  rw [Request.mk.injEq,hkind]
  simp

omit [DecidableEq Host] in
/-- Nobody joins by it. -/
theorem joining_unsubscribed_iff {i : ℕ} {r : Request Topic Host} (hi : s.requests[i]?=some r)
    (hstage : r.stage=.broker) (hkind : r.kind=.unsubscribe) (topic : Topic) :
    Joining (answered s i r) topic ↔ Joining s topic := by
  refine exists_congr fun host => (mem_answered_iff hi hstage rfl).trans
    (or_iff_left fun hnew => ?_)
  rw [Request.mk.injEq,hkind] at hnew
  cases hnew.1

omit [DecidableEq Host] in
/-- The end of a subscription at the broker keeps everybody covered exactly if
the topic has no subscriber but the client and those who leave, and nobody joins. -/
theorem covered_unsubscribed_iff (h : Covered s) {i : ℕ} {r : Request Topic Host}
    (hi : s.requests[i]?=some r) (hstage : r.stage=.broker) (hkind : r.kind=.unsubscribe) :
    Covered (answered s i r) ↔
      (∀ host∈s.subscriptions r.topic, host=r.host ∨ Leaving s r.topic host) ∧
      ∀ r'∈s.requests, ¬(r'.kind=.subscribe ∧ r'.topic=r.topic ∧ r'.stage=.update) := by
  have hleave := leaving_unsubscribed_iff hi hstage hkind
  have hjoin := joining_unsubscribed_iff hi hstage hkind
  have hsame : (answered s i r).subscribed r.topic=false := by
    change Function.update s.subscribed r.topic (decide (r.kind=.subscribe)) r.topic=false
    rw [Function.update_self,hkind]
    rfl
  constructor
  · intro hc
    have hnone : ¬((∃ host∈s.subscriptions r.topic, ¬Leaving (answered s i r) r.topic host) ∨
        Joining (answered s i r) r.topic) := fun hneed =>
      Bool.noConfusion ((hc r.topic hneed).symm.trans hsame)
    constructor
    · intro host hhost
      by_contra hno
      rw [not_or] at hno
      refine hnone (Or.inl ⟨host,hhost,fun hl => ?_⟩)
      rcases (hleave r.topic host).mp hl with hold | ⟨_,hself⟩
      · exact hno.2 hold
      · exact hno.1 hself
    · rintro ⟨_,_,host,_⟩ hmem ⟨rfl,rfl,rfl⟩
      exact hnone (Or.inr ((hjoin _).mpr ⟨host,hmem⟩))
  · rintro ⟨hall,hnone⟩ topic hneed
    by_cases htopic : topic=r.topic
    · subst htopic
      rcases hneed with ⟨host,hhost,hnot⟩ | hj
      · rw [hleave,not_or] at hnot
        rcases hall host hhost with hself | hl
        · exact absurd ⟨rfl,hself⟩ hnot.2
        · exact absurd hl hnot.1
      · obtain ⟨host,hj⟩ := (hjoin _).mp hj
        exact absurd ⟨rfl,rfl,rfl⟩ (hnone _ hj)
    · have hother : (answered s i r).subscribed topic=s.subscribed topic :=
        Function.update_of_ne htopic _ _
      rw [hother]
      refine h topic ?_
      rcases hneed with ⟨host,hhost,hnot⟩ | hj
      · exact Or.inl ⟨host,hhost,fun hl => hnot ((hleave topic host).mpr (Or.inl hl))⟩
      · exact Or.inr ((hjoin topic).mp hj)

/-- A change of the table keeps everybody covered. -/
theorem Covered.recorded (h : Covered s) {i : ℕ} {r : Request Topic Host}
    (hi : s.requests[i]?=some r) (hstage : r.stage=.update) : Covered (recorded s i r) := by
  have hmem := List.mem_of_getElem? hi
  have hstays : ∀ r'≠r, r'∈s.requests → r'∈s.requests.eraseIdx i :=
    fun r' hne hr' => mem_eraseIdx_of_ne hr' hi hne
  rintro topic (⟨host,hhost,hnot⟩ | ⟨host,hj⟩)
  · by_cases htopic : topic=r.topic
    · subst htopic
      change host∈Function.update s.subscriptions r.topic (changed s r) r.topic at hhost
      rw [Function.update_self] at hhost
      obtain ⟨kind,topic,host',stage⟩ := r
      obtain rfl : stage=.update := hstage
      cases kind with
      | subscribe => exact h topic (Or.inr ⟨host',hmem⟩)
      | unsubscribe =>
        obtain ⟨hne,hold⟩ := Finset.mem_erase.mp hhost
        refine h topic (Or.inl ⟨host,hold,fun hl => hnot (hstays _ (fun heq => ?_) hl)⟩)
        exact hne (congrArg Request.host heq)
    · change host∈Function.update s.subscriptions r.topic (changed s r) topic at hhost
      rw [Function.update_of_ne htopic] at hhost
      refine h topic (Or.inl ⟨host,hhost,fun hl => hnot (hstays _ (fun heq => ?_) hl)⟩)
      exact htopic (congrArg Request.topic heq)
  · exact h topic (Or.inr ⟨host,List.mem_of_mem_eraseIdx hj⟩)

/-- One step keeps everybody covered exactly if no hazard occurs. -/
theorem covered_step_iff (h : Covered s) (op : Op Topic Host) :
    Covered (step s op) ↔ NobodyLeft s op := by
  cases op with
  | arrive kind topic host => exact iff_of_true (h.arrive kind topic host) trivial
  | go i ok =>
    dsimp only [step,NobodyLeft]
    cases hi : s.requests[i]? with
    | none => exact iff_of_true h fun _ hr => (nomatch hr)
    | some r =>
      have hall : ∀ P : Request Topic Host → Prop, (∀ r'∈some r, P r') ↔ P r :=
        fun P => ⟨fun hP => hP r rfl,fun hP r' hr' => Option.some.inj hr' ▸ hP⟩
      rw [hall]
      cases hstage : r.stage with
      | check => simpa [advance,hstage] using covered_checked_iff h hi hstage
      | broker =>
        cases ok with
        | false => simpa [advance,hstage] using h.refused hi hstage
        | true =>
          cases hkind : r.kind with
          | subscribe => simpa [advance,hstage] using h.subscribed hi hstage hkind
          | unsubscribe => simpa [advance,hstage] using covered_unsubscribed_iff h hi hstage hkind
      | update => simpa [advance,hstage] using h.recorded hi hstage

omit [DecidableEq Topic] [DecidableEq Host] in
/-- When no request is in progress, who is covered is really subscribed. -/
theorem Covered.reallySubscribed (h : Covered s) : ReallySubscribed s := by
  intro hnone topic huse
  obtain ⟨host,hhost⟩ := Finset.nonempty_iff_ne_empty.mpr huse
  refine h topic (Or.inl ⟨host,hhost,fun hl => ?_⟩)
  rw [Leaving,hnone] at hl
  cases hl

omit [DecidableEq Host] in
/-- Everybody is covered after the start. -/
theorem covered_start (saved : List (Topic × Finset Host)) : Covered (start saved) := by
  rintro topic (⟨host,hhost,_⟩ | ⟨host,hj⟩)
  · change host∈((saved.find? _).map Prod.snd).getD ∅ at hhost
    cases hfind : saved.find? fun entry => decide (entry.1=topic) with
    | none =>
      rw [hfind] at hhost
      exact absurd hhost (Finset.notMem_empty host)
    | some entry =>
      have htopic := List.find?_some hfind
      exact List.any_eq_true.mpr ⟨entry,List.mem_of_find?_eq_some hfind,htopic⟩
  · cases hj

end Steps

/-- Everybody stays covered in a run exactly if no hazard occurs in it. -/
theorem covered_always_iff (saved : List (Topic × Finset Host)) (ops : List (Op Topic Host)) :
    Always step Covered (start saved) ops ↔ Along step NobodyLeft (start saved) ops :=
  always_iff_along_of_step (fun _ op h => covered_step_iff h op) (covered_start saved)

/-- **Subscriptions over a whole run.** If no hazard occurs, then recorded
subscribers are really subscribed whenever no request is in progress. -/
theorem reallySubscribed_always (saved : List (Topic × Finset Host)) (ops : List (Op Topic Host))
    (hops : Along step NobodyLeft (start saved) ops) :
    Always step ReallySubscribed (start saved) ops :=
  ((covered_always_iff saved ops).mpr hops).mono fun _ h => h.reallySubscribed

/-- Two clients subscribe to one topic, and then unsubscribe one after the other. -/
theorem reallySubscribed_always_sample :
    Always step ReallySubscribed (start [(1,{7})] : State ℕ ℕ)
      [.arrive .subscribe 0 5,.arrive .subscribe 0 6,.go 0 true,.go 1 true,.go 0 true,.go 1 true,
        .go 0 true,.go 0 true,.arrive .unsubscribe 0 5,.go 0 true,.go 0 true,
        .arrive .unsubscribe 0 6,.go 0 true,.go 0 true,.go 0 true] :=
  reallySubscribed_always [(1,{7})] _ (by decide)

/-- The last subscriber of a topic unsubscribes. While the broker is awaited,
another client subscribes without a need to ask the broker; it is recorded and
not subscribed. -/
theorem not_reallySubscribed_of_overlap :
    ¬Always step ReallySubscribed (start [(0,{5})] : State ℕ ℕ)
      [.arrive .unsubscribe 0 5,.go 0 true,.arrive .subscribe 0 6,.go 1 true,.go 1 true,
        .go 0 true,.go 0 true] := by
  intro h
  have hend := h.last (by decide) 0 (by decide)
  revert hend
  decide

end TrustAlloc.MqttCoapBridge
