import TrustAlloc.CborCodec
import TrustAlloc.Runs
import TrustAlloc.TaskResponse

/-!
# One ack for each line

Lines of the resource rich node and callbacks of requests come in any order. A
line is acked when it is processed, or it leads to a request, which is acked
when it ends; there is at most one request at a time. This holds as long as no
line overruns the buffer for the target of a status.
-/

namespace TrustAlloc.TaskResponseRuns

open CborCodec Certificates Runs TaskResponse Timers

variable {D : Type}

section Replies

/-- Nothing was printed or requested, and the lock is as it was. -/
structure Unsent (s s' : State) : Prop where
  /-- What was printed. -/
  printed : s'.printed=s.printed
  /-- The accepted requests. -/
  requests : s'.requests=s.requests
  /-- The lock. -/
  lock : s'.coapCallbackInUse=s.coapCallbackInUse

/-- An ack was printed, and nothing else. -/
structure Acked (s s' : State) : Prop where
  /-- What was printed. -/
  printed : s'.printed=s.printed++[.ack]
  /-- The accepted requests. -/
  requests : s'.requests=s.requests
  /-- The lock. -/
  lock : s'.coapCallbackInUse=s.coapCallbackInUse

/-- A request was accepted, for which the lock was free. -/
structure Sent (now : ℕ) (s s' : State) : Prop where
  /-- What was printed. -/
  printed : s'.printed=s.printed
  /-- There is one accepted request more. -/
  requests : s'.requests.length=s.requests.length+1
  /-- The lock was free. -/
  free : s.coapCallbackInUse.locked=false
  /-- It has been taken. -/
  lock : s'.coapCallbackInUse=timedUnlockLock now s.coapCallbackInUse

/-- What the result of a function that may send says. -/
structure Reply (now : ℕ) (s : State) (out : State×Bool) : Prop where
  /-- Without success nothing has happened. -/
  refused : out.2=false → Unsent s out.1
  /-- With success a request was sent, or an ack was printed. -/
  done : out.2=true → Acked s out.1 ∨ Sent now s out.1

variable {s s' : State} {sending : Sending}

/-- Nothing has happened. -/
theorem Unsent.refl (s : State) : Unsent s s := ⟨rfl,rfl,rfl⟩

/-- An ack after nothing has happened. -/
theorem Unsent.ack (h : Unsent s s') : Acked s (ackSerialInput s') :=
  ⟨congrArg (·++[Printed.ack]) h.printed,h.requests,h.lock⟩

/-- A refusal. -/
theorem Unsent.reply (h : Unsent s s') : Reply sending.now s (s',false) :=
  ⟨fun _ => h,fun h => nomatch h⟩

/-- A request is sent where the lock is free. -/
theorem reply_sendRequest (hfree : s'.coapCallbackInUse.locked=false) (h : Unsent s s')
    (payload : List UInt8) (block1 : Option (ℕ×Bool×ℕ)) :
    Reply sending.now s (sendRequest sending s' payload block1) := by
  unfold sendRequest
  split
  · refine ⟨fun h => (nomatch h),fun _ => Or.inr ⟨h.printed,?_,h.lock ▸ hfree,?_⟩⟩
    · simp [h.requests]
    · exact congrArg (timedUnlockLock sending.now) h.lock
  · exact h.reply

/-- A status is sent, or refused. Its encoding always fits. -/
theorem reply_sendStatus {env : Env D} (hN : StandardHeads env.nanocbor) (h : Unsent s s')
    (status : ℕ) : Reply sending.now s (processTaskRespSendStatus env sending s' status) := by
  have hlength := Cbor.headLength_le_nine status
  have hfits : (nanocborEncoderInit coapMaxChunkSize).fits (env.nanocbor.uintHead status)=true := by
    rw [hN.uintHead,Cbor.uintHead]
    simp only [Encoder.fits,nanocborEncoderInit,coapMaxChunkSize,Cbor.length_head,List.length_nil,
      decide_eq_true_eq]
    omega
  unfold processTaskRespSendStatus
  split
  · exact h.reply
  · next hfree =>
    dsimp only
    rw [hfits,if_neg (not_lt.mpr env.nanocbor.result_fits)]
    generalize Keystore.overwrite s'.msgBuf 0 _=msgBuf
    have hwritten : Unsent s {s' with msgBuf := msgBuf} := ⟨h.printed,h.requests,h.lock⟩
    refine reply_sendRequest ?_ hwritten _ _
    exact Bool.eq_false_of_not_eq_true hfree

/-- A packet is sent, or refused. -/
theorem reply_sendSuccess (env : Env D) (sending : Sending) (h : Unsent s s') (i n len : ℕ) :
    Reply sending.now s (processTaskRespSendSuccess env sending s' i n len) := by
  unfold processTaskRespSendSuccess
  split
  · exact h.reply
  · next hfree => exact reply_sendRequest (Bool.eq_false_of_not_eq_true hfree) h _ _

/-- A status line is refused, or its status is sent. -/
theorem reply_resp1 {env : Env D} (hN : StandardHeads env.nanocbor) {data : List UInt8}
    {out : State×Bool} (h : processTaskResp1 env sending s data=some out) :
    Reply sending.now s out := by
  have hparse : ∀ length, Unsent s (parseResp1 env s data length).1 := fun length => by
    unfold parseResp1
    dsimp only
    split_ifs
    · exact ⟨rfl,rfl,rfl⟩
    · exact ⟨rfl,rfl,rfl⟩
    · exact ⟨rfl,rfl,rfl⟩
  unfold processTaskResp1 at h
  split at h
  · cases h
    exact (Unsent.refl s).reply
  · next length _ =>
    have hunsent := hparse length
    split at h
    · cases h
    · split at h
      · next hstatus =>
        cases h
        rw [hstatus] at hunsent
        exact hunsent.reply
      · next hstatus =>
        cases h
        rw [hstatus] at hunsent
        exact reply_sendStatus hN hunsent _

/-- A line with a part is refused, or acked, or its packet is sent. -/
theorem reply_resp2 (env : Env D) (s : State) (sending : Sending) (data : List UInt8) :
    Reply sending.now s (processTaskResp2 env sending s data) := by
  unfold processTaskResp2
  split
  · exact (Unsent.refl s).reply
  · next place source _ =>
    have hstore : Unsent s (storePart s (decodePart s source)) := ⟨rfl,rfl,rfl⟩
    dsimp only
    split
    · exact hstore.reply
    · unfold continuePacket
      split
      · have hsend := reply_sendSuccess env sending hstore place.i place.n
          (storePart s (decodePart s source)).msgBufOffset
        refine ⟨fun hr => ?_,fun hr => ?_⟩
        · have hunsent := hsend.refused hr
          exact ⟨hunsent.printed,hunsent.requests,hunsent.lock⟩
        · rcases hsend.done hr with hacked | hsent
          · exact Or.inl ⟨hacked.printed,hacked.requests,hacked.lock⟩
          · exact Or.inr ⟨hsent.printed,hsent.requests,hsent.free,hsent.lock⟩
      · exact ⟨fun h => (nomatch h),fun _ => Or.inl hstore.ack⟩

/-- What was not sent is acked. -/
theorem Reply.acked {now : ℕ} {out : State×Bool} (h : Reply now s out) :
    Acked s (ackUnlessSent out) ∨ Sent now s (ackUnlessSent out) := by
  obtain ⟨s',r⟩ := out
  cases r with
  | false => exact Or.inl (h.refused rfl).ack
  | true => exact h.done rfl

/-- Each action is acked, or leads to a request. -/
theorem acked_processAction {env : Env D} (hN : StandardHeads env.nanocbor) {action : Action}
    (h : processAction env sending s action=some s') : Acked s s' ∨ Sent sending.now s s' := by
  cases action with
  | stats data =>
    cases h
    have hstats : Unsent s (processTaskStats env s data) := by
      unfold processTaskStats
      dsimp only
      split
      · exact .refl s
      · split
        · exact .refl s
        · split
          · exact .refl s
          · exact ⟨rfl,rfl,rfl⟩
    exact Or.inl hstats.ack
  | resp1 data =>
    obtain ⟨out,hout,rfl⟩ := Option.map_eq_some_iff.mp h
    exact (reply_resp1 hN hout).acked
  | resp2 data =>
    cases h
    exact (reply_resp2 env s sending data).acked
  | unknown =>
    cases h
    exact Or.inl (Unsent.refl s).ack

end Replies

section Overruns

open MqttPublish

/-- The target of a status leaves room for a terminator in `uip_buffer`. -/
def TargetFits : Action → Prop
  | .resp1 data => ∀ length∈strchr data serialSep, length < uiplibIpv6MaxStrLen
  | _ => True

/-- It is decided by the position of the separator. -/
instance decidableTargetFits : ∀ action, Decidable (TargetFits action)
  | .resp1 data => inferInstanceAs (Decidable (∀ length∈strchr data serialSep, _))
  | .stats _ | .resp2 _ | .unknown => .isTrue trivial

/-- Nothing but a target without room has no result. -/
theorem processAction_isSome_iff (env : Env D) (sending : Sending) (s : State) (action : Action) :
    (processAction env sending s action).isSome=true ↔ TargetFits action := by
  cases action with
  | stats data => exact iff_of_true rfl trivial
  | resp2 data => exact iff_of_true rfl trivial
  | unknown => exact iff_of_true rfl trivial
  | resp1 data =>
    rw [processAction,Option.isSome_map]
    change _ ↔ ∀ length, strchr data serialSep=some length → length < uiplibIpv6MaxStrLen
    unfold processTaskResp1
    cases strchr data serialSep with
    | none => exact iff_of_true rfl fun _ h => (nomatch h)
    | some length =>
      simp only [Option.some.injEq,forall_eq']
      split
      · next hlong => exact iff_of_false (fun h => nomatch h) (Nat.not_lt.mpr hlong)
      · next hfits =>
        refine iff_of_true ?_ (Nat.not_le.mp hfits)
        split <;> rfl

end Overruns

section Machine

/-- A part of a packet: what its line says, and what it carries. -/
structure Part where
  /-- Where it belongs. -/
  place : Place
  /-- The decoded bytes. -/
  bytes : List UInt8
  deriving DecidableEq

/-- The part that is stored in `msg_buf` for an action. -/
def storedPart (s : State) : Action → Option Part
  | .resp2 data => (parseResp2 data).bind fun p =>
    let part := decodePart s p.2
    if part.ok=true then some ⟨p.1,part.bytes⟩ else none
  | _ => none

/-- The edge, and what has happened to it. -/
structure Machine where
  /-- The static data. -/
  edge : State
  /-- Whether a buffer was overrun, from when on nothing is known. -/
  overrun : Bool
  /-- How many lines were processed. -/
  lines : ℕ
  /-- How many of the accepted requests have ended. -/
  ended : ℕ
  /-- Whether the request in flight has had its response. -/
  responded : Bool
  /-- The parts that were stored since the last packet was complete. -/
  parts : List Part

/-- How many requests are in flight. -/
def Machine.inFlight (m : Machine) : ℕ := m.edge.requests.length-m.ended

/-- How many acks were printed. -/
def Machine.acks (m : Machine) : ℕ := m.edge.printed.count .ack

/-- The parts behind an action: the last one completes its packet. -/
def nextParts (m : Machine) (action : Action) : List Part :=
  match storedPart m.edge action with
  | none => m.parts
  | some part => if part.place.last=true then [] else m.parts++[part]

/-- What can happen next, in any order. -/
inductive Op where
  /-- A line arrives. -/
  | line (line : List UInt8) (sending : Sending)
  /-- The callback of the request is called. -/
  | callback (status : RequestStatus)
  /-- The timer of the lock is looked at. -/
  | expire (now : ℕ)

/-- A line is processed. -/
def processLine (env : Env D) (m : Machine) (line : List UInt8) (sending : Sending) : Machine :=
  match lineAction line with
  | none => m
  | some action =>
    match processAction env sending m.edge action with
    | none => {m with overrun := true}
    | some edge => {m with
        edge := edge
        lines := m.lines+1
        parts := nextParts m action}

/-- The callback is called. -/
def callBack (m : Machine) : RequestStatus → Machine
  | .response code => {m with
      edge := sendCallback m.edge (.response code)
      responded := true}
  | status => {m with
      edge := sendCallback m.edge status
      ended := m.ended+1
      responded := false}

/-- The lock is released when its time is over. -/
def expireLock (m : Machine) (now : ℕ) : Machine :=
  let lock := m.edge.coapCallbackInUse
  if lock.timer.Expired now then
    {m with edge := {m.edge with coapCallbackInUse := timedUnlockUnlock lock}}
  else m

/-- One step. -/
def step (env : Env D) (m : Machine) (op : Op) : Machine :=
  if m.overrun=true then m
  else match op with
    | .line line sending => processLine env m line sending
    | .callback status => callBack m status
    | .expire now => expireLock m now

/-- The edge after `routing_taskresp_init`. -/
def start (clockSecond : ℕ) : Machine := ⟨routingTaskrespInit clockSecond,false,0,0,false,[]⟩

/-- Lines begin with the separator. A request in flight has one response at
most and ends once, before its lock expires. -/
def Admitted (m : Machine) : Op → Prop
  | .line line _ => (lineAction line).isSome=true
  | .callback (.response _) => 0 < m.inFlight ∧ m.responded=false
  | .callback _ => 0 < m.inFlight
  | .expire _ => m.inFlight=0

/-- Admission is decided by the line and the requests in flight. -/
instance decidableAdmitted (m : Machine) : ∀ op, Decidable (Admitted m op)
  | .line line _ => inferInstanceAs (Decidable ((lineAction line).isSome=true))
  | .callback (.response _) => inferInstanceAs (Decidable (_ ∧ _))
  | .callback .finished | .callback .failed => inferInstanceAs (Decidable (0 < m.inFlight))
  | .expire _ => inferInstanceAs (Decidable (m.inFlight=0))

end Machine

section Acks

/-- One ack for each line, up to the one whose request is in flight. -/
structure OneAckPerLine (m : Machine) : Prop where
  /-- No buffer was overrun. -/
  intact : m.overrun=false
  /-- There is at most one request in flight. -/
  atMostOne : m.inFlight≤1
  /-- Acks and requests in flight. -/
  acks : m.acks+m.inFlight=m.lines

/-- It is decided by the counts. -/
instance decidableOneAckPerLine (m : Machine) : Decidable (OneAckPerLine m) :=
  decidable_of_iff (m.overrun=false ∧ m.inFlight≤1 ∧ m.acks+m.inFlight=m.lines)
    ⟨fun h => ⟨h.1,h.2.1,h.2.2⟩,fun h => ⟨h.intact,h.atMostOne,h.acks⟩⟩

/-- The lock is taken exactly while a request is in flight. -/
structure Locked (m : Machine) : Prop where
  /-- No more requests have ended than were accepted. -/
  ended : m.ended≤ m.edge.requests.length
  /-- All but one have. -/
  atMostOne : m.inFlight≤1
  /-- The timer of the lock. -/
  coherent : m.edge.coapCallbackInUse.Coherent
  /-- The lock. -/
  locked : m.edge.coapCallbackInUse.locked=decide (m.inFlight≠0)

/-- The target of a line fits, if it has one. -/
def LineFits : Op → Prop
  | .line line _ => ∀ action∈lineAction line, TargetFits action
  | _ => True

/-- It is decided by the line. -/
instance decidableLineFits : ∀ op, Decidable (LineFits op)
  | .line line _ => inferInstanceAs (Decidable (∀ action∈lineAction line, TargetFits action))
  | .callback _ | .expire _ => .isTrue trivial

variable {env : Env D} {m : Machine}

/-- An ack leaves the lock and the requests. -/
theorem Locked.acked (h : Locked m) {edge : State} (ha : Acked m.edge edge) (lines : ℕ)
    (parts : List Part) :
    Locked {m with edge := edge,lines := lines,parts := parts} := by
  have hflight : Machine.inFlight {m with edge := edge,lines := lines,parts := parts}=
      m.inFlight := by rw [Machine.inFlight,ha.requests,Machine.inFlight]
  refine ⟨?_,?_,?_,?_⟩
  · rw [ha.requests]
    exact h.ended
  · rw [hflight]
    exact h.atMostOne
  · rw [ha.lock]
    exact h.coherent
  · rw [ha.lock,hflight]
    exact h.locked

/-- Where the lock is free, no request is in flight. -/
theorem Locked.inFlight_eq_zero (h : Locked m) (hfree : m.edge.coapCallbackInUse.locked=false) :
    m.inFlight=0 := by
  have hlocked := h.locked
  rw [hfree,eq_comm,decide_eq_false_iff_not,not_not] at hlocked
  exact hlocked

/-- A new request is the only one in flight. -/
theorem Locked.inFlight_sent (h : Locked m) {edge : State} {now : ℕ} (hs : Sent now m.edge edge)
    (lines : ℕ) (parts : List Part) :
    Machine.inFlight {m with edge := edge,lines := lines,parts := parts}=1 := by
  have hzero := h.inFlight_eq_zero hs.free
  have hended := h.ended
  rw [Machine.inFlight] at hzero ⊢
  dsimp only
  rw [hs.requests]
  omega

/-- A request takes the lock. -/
theorem Locked.sent (h : Locked m) {edge : State} {now : ℕ} (hs : Sent now m.edge edge)
    (lines : ℕ) (parts : List Part) :
    Locked {m with edge := edge,lines := lines,parts := parts} := by
  have hone := h.inFlight_sent hs lines parts
  refine ⟨?_,hone.le,?_,?_⟩
  · rw [hs.requests]
    exact h.ended.trans (Nat.le_succ _)
  · rw [hs.lock]
    exact coherent_lock now _
  · rw [hone,hs.lock]
    rfl

/-- A callback is for a request in flight. -/
theorem inFlight_pos {status : RequestStatus} (hop : Admitted m (.callback status)) :
    0 < m.inFlight := by
  cases status with
  | response code => exact hop.1
  | finished => exact hop
  | failed => exact hop

/-- The end of a request is acked, and its lock is released. -/
theorem callBack_ended (m : Machine) {status : RequestStatus}
    (hstatus : ∀ code, status≠.response code) : callBack m status={m with
      edge := ackSerialInput {m.edge with
        coapCallbackInUse := timedUnlockUnlock m.edge.coapCallbackInUse}
      ended := m.ended+1
      responded := false} := by
  cases status with
  | response code => exact absurd rfl (hstatus code)
  | finished => rfl
  | failed => rfl

/-- No request is in flight then. -/
theorem Locked.inFlight_ended (h : Locked m) {status : RequestStatus}
    (hstatus : ∀ code, status≠.response code) : (callBack m status).inFlight=0 := by
  have hone := h.atMostOne
  rw [Machine.inFlight] at hone
  rw [callBack_ended m hstatus]
  change m.edge.requests.length-(m.ended+1)=0
  omega

/-- The end of the request in flight keeps the lock with the requests. -/
theorem Locked.callBack (h : Locked m) (hflight : 0 < m.inFlight) {status : RequestStatus}
    (hstatus : ∀ code, status≠.response code) : Locked (callBack m status) := by
  have hzero := h.inFlight_ended hstatus
  rw [Machine.inFlight] at hflight
  refine ⟨?_,hzero.le.trans (by omega),?_,?_⟩
  · rw [callBack_ended m hstatus]
    change m.ended+1≤ m.edge.requests.length
    omega
  · rw [callBack_ended m hstatus]
    exact coherent_unlock _
  · rw [hzero,callBack_ended m hstatus]
    rfl

/-- A response changes nothing but what is printed and no ack. -/
theorem callBack_response (m : Machine) (code : UInt8) :
    (callBack m (.response code)).edge.requests=m.edge.requests ∧
      (callBack m (.response code)).edge.coapCallbackInUse=m.edge.coapCallbackInUse ∧
        (callBack m (.response code)).acks=m.acks := by
  unfold callBack sendCallback Machine.acks
  dsimp only
  split
  · exact ⟨rfl,rfl,by simp [cancelResponse]⟩
  · exact ⟨rfl,rfl,rfl⟩

/-- A lock that no request needs does not expire. -/
theorem Locked.expireLock (h : Locked m) (hflight : m.inFlight=0) (now : ℕ) :
    expireLock m now=m := by
  have hfree : m.edge.coapCallbackInUse.locked=false := by
    rw [h.locked,hflight]
    rfl
  have hactive : m.edge.coapCallbackInUse.timer.active=false := h.coherent.trans hfree
  refine if_neg fun hexpired => ?_
  have htrue := hexpired.1
  rw [hactive] at htrue
  cases htrue

/-- An admitted step keeps the lock with the requests. -/
theorem Locked.step (h : Locked m) (hN : StandardHeads env.nanocbor) {op : Op}
    (hop : Admitted m op) : Locked (step env m op) := by
  unfold TaskResponseRuns.step
  split
  · exact h
  · cases op with
    | line line sending =>
      dsimp only
      unfold processLine
      split
      · exact h
      · split
        · exact ⟨h.ended,h.atMostOne,h.coherent,h.locked⟩
        · next edge hedge =>
          rcases acked_processAction hN hedge with hacked | hsent
          · exact h.acked hacked _ _
          · exact h.sent hsent _ _
    | callback status =>
      by_cases hstatus : ∃ code, status=.response code
      · obtain ⟨code,rfl⟩ := hstatus
        obtain ⟨hrequests,hlock,_⟩ := callBack_response m code
        have hflight : (TaskResponseRuns.callBack m (.response code)).inFlight=m.inFlight := by
          rw [Machine.inFlight,hrequests]
          rfl
        refine ⟨?_,hflight.le.trans h.atMostOne,?_,?_⟩
        · rw [hrequests]
          exact h.ended
        · rw [hlock]
          exact h.coherent
        · rw [hlock,hflight]
          exact h.locked
      · exact h.callBack (inFlight_pos hop) (not_exists.mp hstatus)
    | expire now =>
      dsimp only
      rw [h.expireLock hop]
      exact h

/-- A line that is processed is one more line, and one more ack or request. -/
theorem Locked.accounted_line (h : Locked m) (hN : StandardHeads env.nanocbor) {sending : Sending}
    {action : Action} {edge : State} (hacks : m.acks+m.inFlight=m.lines)
    (hedge : processAction env sending m.edge action=some edge) :
    let m' := {m with edge := edge,lines := m.lines+1,parts := nextParts m action}
    m'.acks+m'.inFlight=m'.lines := by
  rcases acked_processAction hN hedge with hacked | hsent
  · simp only [Machine.acks,Machine.inFlight,hacked.printed,hacked.requests,List.count_append,
      List.count_singleton_self] at hacks ⊢
    omega
  · have hone := h.inFlight_sent hsent (m.lines+1) (nextParts m action)
    have hzero := h.inFlight_eq_zero hsent.free
    dsimp only
    rw [hone]
    simp only [Machine.acks,hsent.printed] at hacks ⊢
    omega

/-- The request that ends is acked. -/
theorem Locked.accounted_callBack (h : Locked m) {status : RequestStatus}
    (hacks : m.acks+m.inFlight=m.lines) (hop : Admitted m (.callback status)) :
    (TaskResponseRuns.callBack m status).acks+(TaskResponseRuns.callBack m status).inFlight=
      m.lines := by
  by_cases hstatus : ∃ code, status=.response code
  · obtain ⟨code,rfl⟩ := hstatus
    obtain ⟨hrequests,_,hsame⟩ := callBack_response m code
    rw [hsame,Machine.inFlight,hrequests]
    exact hacks
  · have hzero := h.inFlight_ended (not_exists.mp hstatus)
    have hone : m.inFlight=1 := le_antisymm h.atMostOne (inFlight_pos hop)
    rw [hzero,callBack_ended m (not_exists.mp hstatus)]
    simp only [Machine.acks,ackSerialInput,List.count_append,
      List.count_singleton_self] at hacks ⊢
    omega

/-- One admitted step keeps one ack per line exactly if the target of its line
fits. -/
theorem oneAckPerLine_step_iff (h : Locked m) (hm : OneAckPerLine m)
    (hN : StandardHeads env.nanocbor) {op : Op} (hop : Admitted m op) :
    OneAckPerLine (step env m op) ↔ LineFits op := by
  have hnext := h.step hN hop
  have hintact := hm.intact
  unfold TaskResponseRuns.step at hnext ⊢
  rw [if_neg (by rw [hintact]; decide)] at hnext ⊢
  cases op with
  | line line sending =>
    obtain ⟨action,haction⟩ := Option.isSome_iff_exists.mp hop
    have hfits : LineFits (.line line sending) ↔ TargetFits action := by
      simp [LineFits,haction]
    rw [hfits,←processAction_isSome_iff env sending m.edge]
    dsimp only [processLine] at hnext ⊢
    rw [haction] at hnext ⊢
    dsimp only at hnext ⊢
    cases hedge : processAction env sending m.edge action with
    | none => exact iff_of_false (fun hone => nomatch hone.intact) (by decide)
    | some edge =>
      rw [hedge] at hnext
      exact iff_of_true ⟨hintact,hnext.atMostOne,h.accounted_line hN hm.acks hedge⟩ rfl
  | callback status =>
    dsimp only at hnext ⊢
    refine iff_of_true ⟨?_,hnext.atMostOne,?_⟩ trivial
    · cases status <;> exact hintact
    · have hlines : (callBack m status).lines=m.lines := by
        cases status <;> rfl
      rw [hlines]
      exact h.accounted_callBack hm.acks hop
  | expire now =>
    dsimp only
    rw [h.expireLock hop]
    exact iff_of_true hm trivial

/-- Nothing is locked at boot. -/
theorem locked_start (clockSecond : ℕ) : Locked (start clockSecond) :=
  ⟨le_refl _,Nat.zero_le _,coherent_init _,rfl⟩

/-- **One ack for each line.** For all lines that begin with the separator,
and whatever becomes of their requests, the acks and the request in flight are
as many as the lines in every reachable state, exactly when all targets fit. -/
theorem oneAckPerLine_always_iff (env : Env D) (hN : StandardHeads env.nanocbor)
    (clockSecond : ℕ) (ops : List Op)
    (hops : Along (step env) Admitted (start clockSecond) ops) :
    Always (step env) OneAckPerLine (start clockSecond) ops ↔
      Along (step env) (fun _ op => LineFits op) (start clockSecond) ops :=
  always_iff_along (fun _ _ h hop => h.step hN hop)
    (fun _ _ h hm hop => oneAckPerLine_step_iff h hm hN hop) (locked_start clockSecond)
    ⟨rfl,Nat.zero_le _,rfl⟩ hops

/-- The text of the address `fd00::2`. -/
def sampleTarget : List UInt8 := [0x66,0x64,0x30,0x30,0x3A,0x3A,0x32]

/-- The address `fd00::2`. -/
def sampleAddress : EdgeInfo.IpAddr := .replicate 16 2

/-- An edge that knows the text of one address. -/
def sampleEnv : Env (List UInt8×Option ℕ) where
  nanocbor := standardNanocbor.toNanocbor
  cbor := Decoding.sampleDecoder
  uiplibIp6addrconv text ipaddr :=
    if text=sampleTarget then (true,sampleAddress) else (false,ipaddr)
  pyroutelib3Status v := v%256
  coapSetHeaderBlock1 num _ _ := decide (num≤0xFFFFF)

/-- The line of a status for a target, `|resp1|<target>|1|0`. -/
def statusLine (target : List UInt8) : List UInt8 :=
  serialSep::resp1Action++serialSep::target++[serialSep,0x31,serialSep,0x30]

/-- A status is sent and answered, and an unknown line comes in between. -/
theorem oneAckPerLine_always_iff_sample : Always (step sampleEnv) OneAckPerLine (start 128)
    [.line (statusLine sampleTarget) ⟨true,0⟩,.line [serialSep,0x78] ⟨true,1⟩,
      .callback (.response 69),.callback .finished] :=
  (oneAckPerLine_always_iff sampleEnv standardNanocbor_heads.toStandardHeads 128
    [.line (statusLine sampleTarget) ⟨true,0⟩,.line [serialSep,0x78] ⟨true,1⟩,
      .callback (.response 69),.callback .finished] (by decide +kernel)).mpr (by decide +kernel)

/-- A target of forty-one characters is copied over the end of `uip_buffer`. -/
theorem not_oneAckPerLine_of_long_target :
    Along (step sampleEnv) Admitted (start 128)
        [.line (statusLine (.replicate 41 0x66)) ⟨true,0⟩] ∧
      ¬Always (step sampleEnv) OneAckPerLine (start 128)
        [.line (statusLine (.replicate 41 0x66)) ⟨true,0⟩] := by
  decide +kernel

end Acks

end TrustAlloc.TaskResponseRuns
