import TrustAlloc.RouteChunks

/-!
# Results of challenges on the serial line

The edge's half of the challenge-response application,
`challenge-response-task-response.c`. A result is one line, which is decoded
into a static buffer and sent to the node that has asked for it; the line is
acked when its request has ended, or at once if there is none. A line whose
action is not known is not acked. Whether a request is accepted and the address
parser are parameters.
-/

namespace TrustAlloc.ChallengeTaskResponse

open Base64 CapabilityTopics Certificates Decoding EdgeInfo Keystore MqttPublish Timers

open TaskResponse (ApplicationStats Message Printed RequestStatus Sending actionData
  applicationStatsDeserialise applicationStatsMaxCborLength coapMaxChunkSize matchAction serialSep
  statsAction uiplibIpv6MaxStrLen)

section Data

/-- The static data of `challenge-response-task-response.c`, and what it has
put out. -/
structure State where
  /-- `ep.ipaddr`. -/
  ep : IpAddr
  /-- `coap_callback_in_use`. -/
  coapCallbackInUse : TimedUnlock
  /-- `msg_buf`. -/
  msgBuf : List UInt8
  /-- `cr_stats`. -/
  crStats : ApplicationStats
  /-- The lines that were printed; a history value. -/
  printed : List Printed
  /-- The requests that `coap_send_request` has accepted; a history value. -/
  requests : List Message

/-- What the edge is built against. -/
structure Env (D : Type) where
  /-- The CBOR decoder. -/
  cbor : NanocborDecoder D
  /-- `uiplib_ip6addrconv`: its result, and what it leaves in the address. -/
  uiplibIp6addrconv : List UInt8 → IpAddr → Bool×IpAddr

end Data

variable {D : Type}

section Statistics

/-- The statistics that `process_task_stats` reads from the data of a line. -/
def readStats (cbor : NanocborDecoder D) (data : List UInt8) : Option ApplicationStats :=
  let buffer := base64Decode data applicationStatsMaxCborLength
  if buffer.ok=false then none
  else match applicationStatsDeserialise cbor (cbor.init buffer.bytes) with
    | .error _ => none
    | .ok (dec,scn) => if cbor.atEnd dec=false then none else some scn

/-- `process_task_stats`; its result is not looked at. -/
def processTaskStats (env : Env D) (s : State) (data : List UInt8) : State :=
  match readStats env.cbor data with
  | none => s
  | some scn => {s with crStats := scn}

end Statistics

section Sending

/-- `ack_serial_input`. -/
def ackSerialInput (s : State) : State := {s with printed := s.printed++[.ack]}

/-- `process_task_resp_send_result`. The message has no block header. -/
def processTaskRespSendResult (sending : Sending) (s : State) (len : ℕ) : State×Bool :=
  if s.coapCallbackInUse.locked=true then (s,false)
  else if sending.accepts=true then
    ({s with
      requests := s.requests++[⟨s.ep,s.msgBuf.take len,none⟩]
      coapCallbackInUse := timedUnlockLock sending.now s.coapCallbackInUse},true)
  else (s,false)

/-- `send_callback`; a response is only logged. -/
def sendCallback (s : State) : RequestStatus → State
  | .response _ => s
  | .finished | .failed =>
    ackSerialInput {s with coapCallbackInUse := timedUnlockUnlock s.coapCallbackInUse}

end Sending

section Lines

/-- The target of a result is parsed into `ep`, also if it is no address. -/
def parseTarget (env : Env D) (s : State) (target : List UInt8) : State×Bool :=
  ({s with ep := (env.uiplibIp6addrconv target s.ep).2},(env.uiplibIp6addrconv target s.ep).1)

/-- `base64_decode` of a result into `msg_buf`: the length, if it ends well. -/
def decodeResult (s : State) (source : List UInt8) : State×Option ℕ :=
  let part := base64Decode source coapMaxChunkSize
  ({s with msgBuf := overwrite s.msgBuf 0 part.stored},
    if part.ok=true then some part.outLen else none)

/-- `process_task_resp`, on `<target>|<result>`. There is no result when the
target, which is copied by its own length, leaves no room for a terminator in
`uip_buffer`. The lock is looked at last. -/
def processTaskResp (env : Env D) (sending : Sending) (s : State) (data : List UInt8) :
    Option (State×Bool) :=
  match strchr data serialSep with
  | none => some (s,false)
  | some length =>
    if uiplibIpv6MaxStrLen≤length then none
    else match parseTarget env s (data.take length) with
      | (s,false) => some (s,false)
      | (s,true) => match decodeResult s (data.drop (length+1)) with
        | (s,none) => some (s,false)
        | (s,some len) => some (processTaskRespSendResult sending s len)

/-- "resp". -/
def respAction : List UInt8 := [0x72,0x65,0x73,0x70]

/-- What a line asks for. -/
inductive Action where
  /-- New statistics. -/
  | stats (data : List UInt8)
  /-- A result. -/
  | resp (data : List UInt8)
  /-- None of these. -/
  | unknown
  deriving DecidableEq

/-- The action in the data behind the first separator. -/
def actionOf (data : List UInt8) : Action :=
  match actionData statsAction data,actionData respAction data with
  | some data,_ => .stats data
  | none,some data => .resp data
  | none,none => .unknown

/-- The action of a line, if it begins with the separator. -/
def lineAction (line : List UInt8) : Option Action :=
  let data := cString line
  if matchAction data [serialSep]=true then some (actionOf (data.drop 1)) else none

/-- Ack a line for which no message was sent. -/
def ackUnlessSent : State×Bool → State
  | (s,true) => s
  | (s,false) => ackSerialInput s

/-- What `cr_taskresp_process_serial_input` does with an action. -/
def processAction (env : Env D) (sending : Sending) (s : State) : Action → Option State
  | .stats data => some (ackSerialInput (processTaskStats env s data))
  | .resp data => (processTaskResp env sending s data).map ackUnlessSent
  | .unknown => some s

/-- `cr_taskresp_process_serial_input`. -/
def crTaskrespProcessSerialInput (env : Env D) (sending : Sending) (s : State)
    (line : List UInt8) : Option State :=
  match lineAction line with
  | none => some s
  | some action => processAction env sending s action

end Lines

/-- Duration of `coap_callback_in_use`, with the ticks of a second. -/
def responseTimeout (clockSecond : ℕ) : ℕ := 1*60*clockSecond

/-- The data after `init`, in zero-initialised memory. -/
def crTaskrespInit (clockSecond : ℕ) : State where
  ep := .replicate 16 0
  coapCallbackInUse := timedUnlockInit (responseTimeout clockSecond)
  msgBuf := .replicate coapMaxChunkSize 0
  crStats := ⟨0,0,0,0⟩
  printed := []
  requests := []

section Effects

/-- Nothing was printed or requested, and the lock is as it was. -/
structure Unsent (s s' : State) : Prop where
  /-- What was printed. -/
  printed : s'.printed=s.printed
  /-- The accepted requests. -/
  requests : s'.requests=s.requests
  /-- The lock. -/
  lock : s'.coapCallbackInUse=s.coapCallbackInUse

/-- A request was accepted, for which the lock was free: it goes to the
address in `ep` and carries the beginning of `msg_buf`. -/
structure Sent (now : ℕ) (s s' : State) : Prop where
  /-- What was printed. -/
  printed : s'.printed=s.printed
  /-- The request. -/
  requests : ∃ len, s'.requests=s.requests++[⟨s'.ep,s'.msgBuf.take len,none⟩]
  /-- The lock was free. -/
  free : s.coapCallbackInUse.locked=false
  /-- It has been taken. -/
  lock : s'.coapCallbackInUse=timedUnlockLock now s.coapCallbackInUse

variable {env : Env D} {sending : Sending} {s s' : State}

/-- Nothing has happened. -/
theorem Unsent.refl (s : State) : Unsent s s := ⟨rfl,rfl,rfl⟩

/-- Nothing has happened twice. -/
theorem Unsent.trans {s'' : State} (h : Unsent s s') (h' : Unsent s' s'') : Unsent s s'' :=
  ⟨h'.printed.trans h.printed,h'.requests.trans h.requests,h'.lock.trans h.lock⟩

/-- What an action does: nothing if it is unknown, else it is acked, or its
request is accepted. -/
inductive Answered (now : ℕ) (s : State) : Action → State → Prop where
  /-- An ack was printed. -/
  | acked {action : Action} {s' : State} (h : Unsent s s') :
    Answered now s action (ackSerialInput s')
  /-- A request was accepted. -/
  | sent {action : Action} {s' : State} (h : Sent now s s') : Answered now s action s'
  /-- Nothing. -/
  | ignored : Answered now s .unknown s

/-- The target of a result leaves room for a terminator in `uip_buffer`. -/
def TargetFits : Action → Prop
  | .resp data => ∀ length∈strchr data serialSep, length < uiplibIpv6MaxStrLen
  | _ => True

/-- It is decided by the position of the separator. -/
instance decidableTargetFits : ∀ action, Decidable (TargetFits action)
  | .resp data => inferInstanceAs (Decidable (∀ length∈strchr data serialSep, _))
  | .stats _ | .unknown => .isTrue trivial

/-- Nothing but a target without room has no result. -/
theorem processAction_isSome_iff (env : Env D) (sending : Sending) (s : State) (action : Action) :
    (processAction env sending s action).isSome=true ↔ TargetFits action := by
  cases action with
  | stats data => exact iff_of_true rfl trivial
  | unknown => exact iff_of_true rfl trivial
  | resp data =>
    rw [processAction,Option.isSome_map]
    change _ ↔ ∀ length, strchr data serialSep=some length → length < uiplibIpv6MaxStrLen
    unfold processTaskResp
    cases strchr data serialSep with
    | none => exact iff_of_true rfl fun _ h => (nomatch h)
    | some length =>
      simp only [Option.some.injEq,forall_eq']
      split
      · next hlong => exact iff_of_false (fun h => nomatch h) (Nat.not_lt.mpr hlong)
      · next hfits =>
        refine iff_of_true ?_ (Nat.not_le.mp hfits)
        split
        · rfl
        · split <;> rfl

end Effects

end TrustAlloc.ChallengeTaskResponse
