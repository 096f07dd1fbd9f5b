import TrustAlloc.Pools
import TrustAlloc.Runs
import TrustAlloc.Timers
import TrustAlloc.TrustModels

/-!
# The MQTT-over-CoAP client on a node

The process of `mqtt-over-coap.c`: a state machine subscribes to the topics
one after another, other processes publish, and callbacks tell what became of
the requests. One lock, which releases itself, guards one callback state,
which holds the function to call, and one topic index. The requests under way
are recorded; no function reads the record. Topic states match the requests
in every run in which requests do not get into each other's way.
-/

namespace TrustAlloc.MqttOverCoap

open Pools Runs Timers TrustModels

/-- `topic_subscribe_status_t`. -/
inductive TopicSubscribeStatus where
  /-- `TOPIC_STATE_NOT_SUBSCRIBED`. -/
  | notSubscribed
  /-- `TOPIC_STATE_SUBSCRIBING`. -/
  | subscribing
  /-- `TOPIC_STATE_SUBSCRIBED`. -/
  | subscribed
  deriving DecidableEq

/-- The functions that are passed to `coap_send_request`. -/
inductive Callback where
  /-- `publish_callback`. -/
  | publish
  /-- `subscribe_callback`. -/
  | subscribe
  deriving DecidableEq

/-- A request that `coap_send_request` has accepted and that is not finished. -/
structure Request where
  /-- The function that was passed with it. -/
  callback : Callback
  /-- Its query. -/
  query : List UInt8
  /-- Whether its response was delivered. -/
  answered : Bool
  deriving DecidableEq

/-- The bytes of a string of characters of one byte. -/
def bytes (text : String) : List UInt8 := text.toList.map fun c => c.toNat.toUInt8

/-- `TOPICS_TO_SUBSCRIBE_LEN`. -/
abbrev topicsToSubscribeLen : ℕ := 4

/-- `topics_to_suscribe`. -/
def topicsToSubscribe (i : Fin topicsToSubscribeLen) : List UInt8 :=
  bytes (["edge/+/announce","edge/+/unannounce","edge/+/capability/+/add",
    "edge/+/capability/+/remove"][i])

/-- `MAX_QUERY_LEN`. -/
def maxQueryLen : ℕ := 128

/-- What `snprintf` writes to `uri_query`. -/
def uriQuery (topic : List UInt8) : List UInt8 := bytes "t="++topic

/-- The static data of `mqtt-over-coap.c`, the posted events and the requests
under way, newest first. -/
structure State where
  /-- `topic_subscribe_status`. -/
  topicSubscribeStatus : Fin topicsToSubscribeLen → TopicSubscribeStatus
  /-- The function that `coap_callback` holds. -/
  callback : Callback
  /-- `coap_callback_in_use`. -/
  coapCallbackInUse : TimedUnlock
  /-- `coap_callback_i`. -/
  coapCallbackI : Fin topicsToSubscribeLen
  /-- `publish_periodic_timer`. -/
  publishPeriodicTimer : Timer
  /-- Events that run the state machine, posted and not yet taken. -/
  pending : ℕ
  /-- The requests under way. -/
  inFlight : List Request

/-- `coap_send_request`: the callback state holds the function from now on,
whether the request is accepted or not. -/
def coapSendRequest (callback : Callback) (query : List UInt8) (accepted : Bool) (s : State) :
    State × ℤ :=
  let s := {s with callback := callback}
  if accepted=true then ({s with inFlight := ⟨callback,query,false⟩::s.inFlight},1) else (s,0)

/-- `mqtt_over_coap_publish`, with its result. -/
def mqttOverCoapPublish (now : ℕ) (topic : List UInt8) (connected accepted : Bool) (s : State) :
    State × Bool :=
  if s.coapCallbackInUse.locked=true then (s,false)
  else if connected=false then (s,false)
  else
    let s := {s with coapCallbackInUse := timedUnlockLock now s.coapCallbackInUse}
    if maxQueryLen≤(uriQuery topic).length then
      ({s with coapCallbackInUse := timedUnlockUnlock s.coapCallbackInUse},false)
    else
      match coapSendRequest .publish (uriQuery topic) accepted s with
      | (s,0) => ({s with coapCallbackInUse := timedUnlockUnlock s.coapCallbackInUse},false)
      | (s,_) => (s,true)

/-- `publish_callback`. -/
def publishCallback (status : CoapRequestStatus) (s : State) : State :=
  match status with
  | .response => s
  | .finished | .more | .timeout | .blockError =>
    {s with coapCallbackInUse := timedUnlockUnlock s.coapCallbackInUse}

/-- `mqtt_over_coap_subscribe`, with its result. -/
def mqttOverCoapSubscribe (now : ℕ) (i : Fin topicsToSubscribeLen) (accepted : Bool) (s : State) :
    State × ℤ :=
  if s.coapCallbackInUse.locked=true then (s,-1)
  else
    let s := {s with coapCallbackInUse := timedUnlockLock now s.coapCallbackInUse}
    if maxQueryLen≤(uriQuery (topicsToSubscribe i)).length then (s,-1)
    else
      match coapSendRequest .subscribe (uriQuery (topicsToSubscribe i)) accepted s with
      | (s,0) => ({s with coapCallbackInUse := timedUnlockUnlock s.coapCallbackInUse},0)
      | (s,ret) => ({s with coapCallbackI := i},ret)

/-- Set the state of one topic. -/
def setStatus (i : Fin topicsToSubscribeLen) (status : TopicSubscribeStatus) (s : State) : State :=
  {s with topicSubscribeStatus := Function.update s.topicSubscribeStatus i status}

/-- The loop of `subscribe` from one of the topics on. -/
def subscribeFrom (clockSecond now : ℕ) (accepted : Fin topicsToSubscribeLen → Bool) :
    List (Fin topicsToSubscribeLen) → State → State
  | [],s => s
  | i::rest,s =>
    if s.topicSubscribeStatus i≠.notSubscribed then subscribeFrom clockSecond now accepted rest s
    else
      match mqttOverCoapSubscribe now i (accepted i) s with
      | (s,0) => subscribeFrom clockSecond now accepted rest
          {s with publishPeriodicTimer := .set now (clockSecond*1)}
      | (s,_) => setStatus i .subscribing s

/-- `subscribe`. -/
def subscribe (clockSecond now : ℕ) (accepted : Fin topicsToSubscribeLen → Bool) (s : State) :
    State := subscribeFrom clockSecond now accepted (List.finRange topicsToSubscribeLen) s

/-- `subscribe_callback_end`. -/
def subscribeCallbackEnd (s : State) : State := {s with
  coapCallbackInUse := timedUnlockUnlock s.coapCallbackInUse
  pending := s.pending+1}

/-- `subscribe_callback`; the code is that of a response. -/
def subscribeCallback (status : CoapRequestStatus) (code : ℕ) (s : State) : State :=
  match status with
  | .response =>
    setStatus s.coapCallbackI (if code=created201 then .subscribed else .notSubscribed) s
  | .finished => subscribeCallbackEnd s
  | .more | .timeout | .blockError =>
    subscribeCallbackEnd (setStatus s.coapCallbackI .notSubscribed s)

/-- The CoAP library calls the function that the callback state holds. -/
def callBack (status : CoapRequestStatus) (code : ℕ) (s : State) : State :=
  match s.callback with
  | .publish => publishCallback status s
  | .subscribe => subscribeCallback status code s

/-- What becomes of the request at a place of the record: a response and then
its end, or one failure. -/
def deliver (i : ℕ) (status : CoapRequestStatus) (code : ℕ) (s : State) : State :=
  match s.inFlight[i]? with
  | none => s
  | some r =>
    match status,r.answered with
    | .response,false =>
      callBack .response code {s with inFlight := s.inFlight.set i {r with answered := true}}
    | .finished,true => callBack .finished code {s with inFlight := s.inFlight.eraseIdx i}
    | .timeout,false => callBack .timeout code {s with inFlight := s.inFlight.eraseIdx i}
    | .blockError,false => callBack .blockError code {s with inFlight := s.inFlight.eraseIdx i}
    | _,_ => s

/-- What `state_machine` finds when it is run. -/
structure Network where
  /-- `have_connectivity`. -/
  haveConnectivity : Bool
  /-- Whether the endpoint of the root is connected. -/
  connected : Bool
  /-- Whether a request to subscribe to a topic is accepted. -/
  accepted : Fin topicsToSubscribeLen → Bool

/-- `state_machine`. -/
def stateMachine (clockSecond now : ℕ) (net : Network) (s : State) : State :=
  if net.haveConnectivity=true then
    if net.connected=false then
      {s with publishPeriodicTimer := .set now (clockSecond*1)}
    else subscribe clockSecond now net.accepted s
  else s

/-- What can happen next, in any order. -/
inductive Op where
  /-- A reply to a ping arrives, which posts an event. -/
  | echoReply
  /-- `publish_periodic_timer` expires, which posts an event. -/
  | periodicExpires (now : ℕ)
  /-- An event is taken that runs the state machine. -/
  | event (now : ℕ) (net : Network)
  /-- Another process publishes. -/
  | publish (now : ℕ) (topic : List UInt8) (connected accepted : Bool)
  /-- The CoAP library calls back for a request under way. -/
  | callback (i : ℕ) (status : CoapRequestStatus) (code : ℕ)
  /-- The timer of `coap_callback_in_use` expires. -/
  | coapExpires (now : ℕ)

/-- One step of the client or of its surroundings. A timer that is not due
does not expire, and an event that was not posted is not taken. -/
def step (clockSecond : ℕ) (s : State) : Op → State
  | .echoReply => {s with pending := s.pending+1}
  | .periodicExpires now =>
    if s.publishPeriodicTimer.Expired now then {s with
      publishPeriodicTimer := s.publishPeriodicTimer.stop
      pending := s.pending+1}
    else s
  | .event now net =>
    if s.pending=0 then s else stateMachine clockSecond now net {s with pending := s.pending-1}
  | .publish now topic connected accepted =>
    (mqttOverCoapPublish now topic connected accepted s).1
  | .callback i status code => deliver i status code s
  | .coapExpires now =>
    if s.coapCallbackInUse.timer.Expired now then
      {s with coapCallbackInUse := timedUnlockUnlock s.coapCallbackInUse}
    else s

/-- The client after `init`, on zero-initialised memory. -/
def start (clockSecond : ℕ) : State where
  topicSubscribeStatus _ := .notSubscribed
  callback := .publish
  coapCallbackInUse := timedUnlockInit (1*60*clockSecond)
  coapCallbackI := ⟨0,by decide⟩
  publishPeriodicTimer := ⟨0,0,false⟩
  pending := 0
  inFlight := []

/-- Topic states and the lock match the requests under way. -/
structure Matched (s : State) : Prop where
  /-- A topic that is being subscribed has its own request under way. -/
  requested : ∀ i, s.topicSubscribeStatus i=.subscribing →
    ∃ r∈s.inFlight, r.callback=.subscribe ∧ r.query=uriQuery (topicsToSubscribe i)
  /-- At most one topic is being subscribed. -/
  unique : ∀ i j, s.topicSubscribeStatus i=.subscribing →
    s.topicSubscribeStatus j=.subscribing → i=j
  /-- The lock is taken only while a request is under way. -/
  locked : s.coapCallbackInUse.locked=true → s.inFlight≠[]

/-- No request gets into the way of a subscription: the topics are only gone
through while the lock is free or all of them are taken care of, and nothing
is sent while a topic is being subscribed. -/
def OutOfTheWay (s : State) : Op → Prop
  | .event _ net => s.pending≠0 → net.haveConnectivity=true → net.connected=true →
    ∀ i, s.topicSubscribeStatus i=.notSubscribed → s.coapCallbackInUse.locked=false ∧
      (net.accepted i=true → ∀ j, s.topicSubscribeStatus j≠.subscribing)
  | .publish _ topic connected _ => s.coapCallbackInUse.locked=false → connected=true →
    (uriQuery topic).length < maxQueryLen → ∀ i, s.topicSubscribeStatus i≠.subscribing
  | .echoReply | .periodicExpires _ | .callback _ _ _ | .coapExpires _ => True

/-- The condition is decided by the topics and the lock. -/
instance decidableOutOfTheWay (s : State) : ∀ op, Decidable (OutOfTheWay s op)
  | .event _ _ => inferInstanceAs (Decidable (_ → _ → _ → ∀ _,_))
  | .publish _ _ _ _ => inferInstanceAs (Decidable (_ → _ → _ → ∀ _,_))
  | .echoReply | .periodicExpires _ | .callback _ _ _ | .coapExpires _ => .isTrue trivial

section Lock

variable {s : State}

/-- The lock is taken only while a request is under way. -/
def LockHeld (s : State) : Prop := s.coapCallbackInUse.locked=true → s.inFlight≠[]

/-- A free lock is not held without a request. -/
theorem LockHeld.of_free (h : s.coapCallbackInUse.locked=false) : LockHeld s :=
  fun hl => absurd (hl.symm.trans h) (by decide)

/-- All topics fit the query. -/
theorem uriQuery_topics_lt : ∀ i, (uriQuery (topicsToSubscribe i)).length < maxQueryLen := by
  decide

/-- A request to subscribe that finds the lock free is refused, which leaves
the lock free, or accepted. -/
theorem mqttOverCoapSubscribe_free (now : ℕ) (i : Fin topicsToSubscribeLen)
    (hfree : s.coapCallbackInUse.locked=false) :
    mqttOverCoapSubscribe now i false s=({s with
      callback := .subscribe
      coapCallbackInUse := timedUnlockUnlock (timedUnlockLock now s.coapCallbackInUse)},0) ∧
    mqttOverCoapSubscribe now i true s=({s with
      callback := .subscribe
      coapCallbackInUse := timedUnlockLock now s.coapCallbackInUse
      coapCallbackI := i
      inFlight := ⟨.subscribe,uriQuery (topicsToSubscribe i),false⟩::s.inFlight},1) := by
  have hfit : ¬maxQueryLen≤(uriQuery (topicsToSubscribe i)).length :=
    Nat.not_le.mpr (uriQuery_topics_lt i)
  constructor <;> simp [mqttOverCoapSubscribe,hfree,hfit,coapSendRequest]

/-- A request to subscribe that finds the lock taken counts as a success. -/
theorem mqttOverCoapSubscribe_locked (now : ℕ) (i : Fin topicsToSubscribeLen) (accepted : Bool)
    (hlock : s.coapCallbackInUse.locked=true) :
    mqttOverCoapSubscribe now i accepted s=(s,-1) := if_pos hlock

/-- The loop takes the lock only for a request that is accepted. -/
theorem LockHeld.subscribeFrom (clockSecond now : ℕ) (accepted : Fin topicsToSubscribeLen → Bool)
    (l : List (Fin topicsToSubscribeLen)) (h : LockHeld s) :
    LockHeld (subscribeFrom clockSecond now accepted l s) := by
  induction l generalizing s with
  | nil => exact h
  | cons i rest ih =>
    unfold MqttOverCoap.subscribeFrom
    split
    · exact ih h
    · cases hlock : s.coapCallbackInUse.locked with
      | true =>
        rw [mqttOverCoapSubscribe_locked now i (accepted i) hlock]
        exact h
      | false =>
        obtain ⟨hrefused,haccepted⟩ := mqttOverCoapSubscribe_free now i hlock
        cases accepted i with
        | false =>
          rw [hrefused]
          exact ih (.of_free rfl)
        | true =>
          rw [haccepted]
          exact fun _ => List.cons_ne_nil _ _

/-- A publication takes the lock only for a request that is accepted. -/
theorem LockHeld.publish (h : LockHeld s) (now : ℕ) (topic : List UInt8)
    (connected accepted : Bool) :
    LockHeld (mqttOverCoapPublish now topic connected accepted s).1 := by
  unfold mqttOverCoapPublish
  split
  · exact h
  · split
    · exact h
    · dsimp only
      split
      · exact .of_free rfl
      · cases accepted with
        | false => exact .of_free rfl
        | true => exact fun _ => List.cons_ne_nil _ _

/-- A callback that ends a request releases the lock. -/
theorem callBack_locked {status : CoapRequestStatus} (hstatus : status≠.response) (code : ℕ)
    (s : State) : (callBack status code s).coapCallbackInUse.locked=false := by
  unfold callBack
  cases s.callback <;> cases status <;> first | rfl | exact absurd rfl hstatus

/-- A callback with a response leaves the lock and the requests alone. -/
theorem callBack_response (code : ℕ) (s : State) :
    (callBack .response code s).coapCallbackInUse=s.coapCallbackInUse ∧
      (callBack .response code s).inFlight=s.inFlight := by
  unfold callBack
  cases s.callback <;> exact ⟨rfl,rfl⟩

/-- Whatever becomes of a request, the lock is taken only while one is under way. -/
theorem LockHeld.deliver (h : LockHeld s) (i : ℕ) (status : CoapRequestStatus) (code : ℕ) :
    LockHeld (deliver i status code s) := by
  unfold MqttOverCoap.deliver
  cases hi : s.inFlight[i]? with
  | none => exact h
  | some r =>
    obtain ⟨callback,query,answered⟩ := r
    cases answered with
    | false =>
      cases status with
      | response =>
        have hne : s.inFlight.set i ⟨callback,query,true⟩≠[] :=
          List.ne_nil_of_mem (mem_set_self hi)
        exact fun _ => (callBack_response code _).2.symm ▸ hne
      | timeout => exact .of_free (callBack_locked (by decide) code _)
      | blockError => exact .of_free (callBack_locked (by decide) code _)
      | finished => exact h
      | more => exact h
    | true =>
      cases status with
      | finished => exact .of_free (callBack_locked (by decide) code _)
      | response => exact h
      | more => exact h
      | timeout => exact h
      | blockError => exact h

/-- No step leaves the lock taken without a request under way. -/
theorem LockHeld.step (h : LockHeld s) (clockSecond : ℕ) (op : Op) :
    LockHeld (step clockSecond s op) := by
  cases op with
  | echoReply => exact h
  | periodicExpires now =>
    dsimp only [MqttOverCoap.step]
    split <;> exact h
  | event now net =>
    dsimp only [MqttOverCoap.step]
    split
    · exact h
    · unfold stateMachine
      split
      · split
        · exact h
        · exact LockHeld.subscribeFrom (s:={s with pending := s.pending-1}) clockSecond now
            net.accepted _ h
      · exact h
  | publish now topic connected accepted => exact h.publish now topic connected accepted
  | callback i status code => exact h.deliver i status code
  | coapExpires now =>
    dsimp only [MqttOverCoap.step]
    split
    · exact .of_free rfl
    · exact h

/-- In every run the lock is taken only while a request is under way. -/
theorem lockHeld_always (clockSecond : ℕ) (ops : List Op) :
    Always (step clockSecond) LockHeld (start clockSecond) ops :=
  always_of_step (C:=fun _ _ => True) (fun _ op h _ => h.step clockSecond op) (.of_free rfl)
    (along_of_forall fun _ _ => trivial)

end Lock

section Topics

variable {s : State}

/-- What carries the match: the callback state is for the topic that is being
subscribed, and the request of that topic is not answered yet. -/
def Current (s : State) : Prop :=
  ∀ i, s.topicSubscribeStatus i=.subscribing → s.callback=.subscribe ∧ s.coapCallbackI=i ∧
    ⟨.subscribe,uriQuery (topicsToSubscribe i),false⟩∈s.inFlight

/-- What is current is matched, given that the lock is. -/
theorem Current.matched (h : Current s) (hlock : LockHeld s) : Matched s where
  requested i hi := ⟨_,(h i hi).2.2,rfl,rfl⟩
  unique i j hi hj := (h i hi).2.1.symm.trans (h j hj).2.1
  locked := hlock

/-- Where no topic is being subscribed there is nothing to match. -/
theorem Current.of_none (hnone : ∀ i, s.topicSubscribeStatus i≠.subscribing) : Current s :=
  fun i hi => absurd hi (hnone i)

/-- The loop keeps what is current, if it finds the lock free for the topics
that it still has to take care of, and nothing under way if it sends. -/
theorem Current.subscribeFrom (clockSecond now : ℕ) (accepted : Fin topicsToSubscribeLen → Bool)
    (l : List (Fin topicsToSubscribeLen)) (h : Current s)
    (hl : ∀ i∈l, s.topicSubscribeStatus i=.notSubscribed → s.coapCallbackInUse.locked=false ∧
      (accepted i=true → ∀ j, s.topicSubscribeStatus j≠.subscribing)) :
    Current (subscribeFrom clockSecond now accepted l s) := by
  induction l generalizing s with
  | nil => exact h
  | cons i rest ih =>
    have hrest := fun j hj => hl j (List.mem_cons_of_mem i hj)
    unfold MqttOverCoap.subscribeFrom
    split
    · exact ih h hrest
    · next hi =>
      obtain ⟨hfree,hsend⟩ := hl i List.mem_cons_self (not_not.mp hi)
      obtain ⟨hrefused,haccepted⟩ := mqttOverCoapSubscribe_free now i hfree
      cases hacc : accepted i with
      | false =>
        rw [hrefused]
        exact ih (fun j hj => ⟨rfl,(h j hj).2⟩) fun j hj hnot => ⟨rfl,(hrest j hj hnot).2⟩
      | true =>
        rw [haccepted]
        intro j hj
        by_cases hji : j=i
        · subst hji
          exact ⟨rfl,rfl,List.mem_cons_self⟩
        · have hold : s.topicSubscribeStatus j=.subscribing := by
            change Function.update s.topicSubscribeStatus i _ j=_ at hj
            rwa [Function.update_of_ne hji] at hj
          exact absurd hold (hsend hacc j)

/-- A publication keeps what is current, if no topic is being subscribed when
it gets as far as sending. -/
theorem Current.publish (h : Current s) (now : ℕ) (topic : List UInt8) (connected accepted : Bool)
    (hnone : s.coapCallbackInUse.locked=false → connected=true →
      (uriQuery topic).length < maxQueryLen → ∀ i, s.topicSubscribeStatus i≠.subscribing) :
    Current (mqttOverCoapPublish now topic connected accepted s).1 := by
  unfold mqttOverCoapPublish
  split
  · exact h
  · next hlock =>
    have hfree : s.coapCallbackInUse.locked=false := by simpa using hlock
    split
    · exact h
    · next hconn =>
      have hconnected : connected=true := by simpa using hconn
      dsimp only
      split
      · exact h
      · next hfit =>
        have hno := hnone hfree hconnected (Nat.lt_of_not_le hfit)
        cases accepted with
        | false => exact .of_none hno
        | true => exact .of_none hno

/-- A topic that is set to another state is not being subscribed. -/
theorem setStatus_subscribing {i j : Fin topicsToSubscribeLen} {status : TopicSubscribeStatus}
    (hstatus : status≠.subscribing) (hj : (setStatus i status s).topicSubscribeStatus j=
      .subscribing) : s.topicSubscribeStatus j=.subscribing ∧ j≠i := by
  change Function.update s.topicSubscribeStatus i status j=.subscribing at hj
  by_cases heq : j=i
  · rw [heq,Function.update_self] at hj
    exact absurd hj hstatus
  · exact ⟨(Function.update_of_ne heq ..).symm.trans hj,heq⟩

/-- A callback that settles its topic leaves no topic being subscribed, if the
callback state is for every topic that is. -/
theorem callBack_settles {status : CoapRequestStatus} (hstatus : status≠.finished) (code : ℕ)
    (h : ∀ i, s.topicSubscribeStatus i=.subscribing → s.callback=.subscribe ∧ s.coapCallbackI=i)
    (i : Fin topicsToSubscribeLen) :
    (callBack status code s).topicSubscribeStatus i≠.subscribing := by
  unfold callBack
  cases hc : s.callback with
  | publish =>
    have hnone : s.topicSubscribeStatus i≠.subscribing := fun hi => by
      have hcallback := (h i hi).1
      rw [hc] at hcallback
      cases hcallback
    cases status <;> exact hnone
  | subscribe =>
    have hset : ∀ {status}, status≠TopicSubscribeStatus.subscribing →
        (setStatus s.coapCallbackI status s).topicSubscribeStatus i≠.subscribing := by
      intro status hstatus hi
      obtain ⟨hold,hne⟩ := setStatus_subscribing hstatus hi
      exact hne (h i hold).2.symm
    cases status with
    | finished => exact absurd rfl hstatus
    | response => exact hset (by split <;> decide)
    | more => exact hset (by decide)
    | timeout => exact hset (by decide)
    | blockError => exact hset (by decide)

/-- The end of a request that was answered keeps what is current. -/
theorem Current.finished (h : Current s) {i : ℕ} {r : Request} (hi : s.inFlight[i]?=some r)
    (hanswered : r.answered=true) (code : ℕ) :
    Current (callBack .finished code {s with inFlight := s.inFlight.eraseIdx i}) := by
  have hrest : Current {s with inFlight := s.inFlight.eraseIdx i} := by
    refine fun j hj => ⟨(h j hj).1,(h j hj).2.1,mem_eraseIdx_of_ne (h j hj).2.2 hi fun heq => ?_⟩
    rw [← heq] at hanswered
    cases hanswered
  unfold callBack
  split <;> exact hrest

/-- Whatever becomes of a request, what is current stays so. -/
theorem Current.deliver (h : Current s) (i : ℕ) (status : CoapRequestStatus) (code : ℕ) :
    Current (deliver i status code s) := by
  unfold MqttOverCoap.deliver
  cases hi : s.inFlight[i]? with
  | none => exact h
  | some r =>
    obtain ⟨callback,query,answered⟩ := r
    -- a status other than the end settles the topic, whatever the record says
    have hsettled : ∀ status≠CoapRequestStatus.finished, ∀ inFlight,
        Current (callBack status code {s with inFlight := inFlight}) :=
      fun status hstatus inFlight => .of_none (callBack_settles hstatus code
        fun j hj => ⟨(h j hj).1,(h j hj).2.1⟩)
    cases answered with
    | false =>
      cases status with
      | response => exact hsettled .response (by decide) _
      | timeout => exact hsettled .timeout (by decide) _
      | blockError => exact hsettled .blockError (by decide) _
      | finished => exact h
      | more => exact h
    | true =>
      cases status with
      | finished => exact h.finished hi rfl code
      | response => exact h
      | more => exact h
      | timeout => exact h
      | blockError => exact h

/-- No topic is being subscribed at the start. -/
theorem current_start (clockSecond : ℕ) : Current (start clockSecond) := fun _ hi => nomatch hi

/-- A step that is out of the way keeps what is current. -/
theorem Current.step (h : Current s) (clockSecond : ℕ) {op : Op} (hop : OutOfTheWay s op) :
    Current (step clockSecond s op) := by
  cases op with
  | echoReply => exact h
  | periodicExpires now =>
    dsimp only [MqttOverCoap.step]
    split <;> exact h
  | event now net =>
    dsimp only [MqttOverCoap.step]
    split
    · exact h
    · next hpending =>
      unfold stateMachine
      split
      · next hhave =>
        split
        · exact h
        · next hconn =>
          exact Current.subscribeFrom (s:={s with pending := s.pending-1}) clockSecond now
            net.accepted _ h fun i _ hi => hop hpending hhave (by simpa using hconn) i hi
      · exact h
  | publish now topic connected accepted => exact h.publish now topic connected accepted hop
  | callback i status code => exact h.deliver i status code
  | coapExpires now =>
    dsimp only [MqttOverCoap.step]
    split <;> exact h

end Topics

/-- **Topics and requests over a whole run.** If requests stay out of each
other's way, topic states and the lock match the requests under way. -/
theorem matched_always (clockSecond : ℕ) (ops : List Op)
    (hops : Along (step clockSecond) OutOfTheWay (start clockSecond) ops) :
    Always (step clockSecond) Matched (start clockSecond) ops :=
  (always_of_step (I:=fun s => Current s ∧ LockHeld s)
    (fun _ op h hop => ⟨h.1.step clockSecond hop,h.2.step clockSecond op⟩)
    ⟨current_start clockSecond,.of_free rfl⟩ hops).mono fun _ h => h.1.matched h.2

/-- Everything is found connected, and every request is accepted. -/
def sampleNetwork : Network := ⟨true,true,fun _ => true⟩

/-- The first topic is refused and later subscribed, and a message is published
while nothing is being subscribed. -/
theorem matched_always_sample :
    Always (step 1) Matched (start 1)
      [.echoReply,.event 1 sampleNetwork,.callback 0 .response 128,.callback 0 .finished 0,
        .publish 2 (bytes "edge/1/announce") true true,.callback 0 .timeout 0,
        .event 3 sampleNetwork,.callback 0 .response created201,.callback 0 .finished 0] :=
  matched_always 1 _ (by decide)

/-- The state machine runs while a message is being published. The first topic
counts as being subscribed from then on, and no request asks for it. -/
theorem not_matched_of_publish :
    ¬Always (step 1) Matched (start 1)
      [.publish 1 (bytes "edge/1/announce") true true,.echoReply,.event 2 sampleNetwork,
        .callback 0 .response 68,.callback 0 .finished 0] := by
  intro h
  exact absurd (h.last.requested 0 (by decide)) (by decide)

end TrustAlloc.MqttOverCoap
