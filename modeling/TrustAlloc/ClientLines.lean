import TrustAlloc.AckedLines
import TrustAlloc.ChallengeResponse

/-!
# The clients of two applications, line by line

What the clients of the challenge-response and the routing application write,
and how the edge's halves of these applications take it: whatever they write
reaches its application, overruns nothing and is acked at some time. So they
have one line at a time between them and the edge.
-/

namespace TrustAlloc.ClientLines

open AckedLines Base64 CapabilityTopics CborCodec MqttPublish RouteChunks Runs StopAndWait
open TaskResponse (Place Printed Sending resp1Action resp2Action serialSep statsAction
  uiplibIpv6MaxStrLen)

variable {D : Type} {names : List (List UInt8)} {name : List UInt8}

section Lines

/-- No separator and no terminator. -/
def Plain (text : List UInt8) : Prop := serialSep∉text ∧ 0∉text

/-- It is decided character by character. -/
instance decidablePlain (text : List UInt8) : Decidable (Plain text) :=
  inferInstanceAs (Decidable (_ ∧ _))

/-- The first separator is the one behind a plain text. -/
theorem strchr_plain {text : List UInt8} (h : Plain text) (rest : List UInt8) :
    strchr (text++serialSep::rest) serialSep=some text.length := by
  have hnone : text.findIdx? (fun b => decide (b=serialSep))=none := by
    rw [List.findIdx?_eq_none_iff]
    exact fun b hb => decide_eq_false fun hsep => h.1 (hsep ▸ hb)
  have hpos : ∀ b∈text, decide (b≠0)=true := fun b hb =>
    decide_eq_true fun hzero => h.2 (hzero ▸ hb)
  unfold strchr
  rw [List.takeWhile_append_of_pos hpos,List.takeWhile_cons_of_pos (by decide),
    List.findIdx?_append,hnone,List.findIdx?_cons,if_pos (by decide)]
  simp

/-- What follows the separator. -/
theorem drop_plain (text rest : List UInt8) :
    (text++serialSep::rest).drop (text.length+1)=rest := by
  simp [List.drop_append]

/-- `_write_to_application` for an application, without the newline. -/
def applicationLine (name message : List UInt8) : List UInt8 :=
  applicationEdgeMarker::name++serialSep::message

/-- The name of an application which the edge has, and which a line can tell. -/
structure Offered (names : List (List UInt8)) (name : List UInt8) : Prop where
  /-- The edge has it. -/
  mem : name∈names
  /-- It can be told from what follows. -/
  plain : Plain name
  /-- It is not empty. -/
  nonempty : name≠[]
  /-- It is short enough. -/
  short : name.length≤ applicationNameMaxLen

/-- Data for an application reaches it. -/
theorem processSerialMessage_app (h : Offered names name) (data : List UInt8) :
    processSerialMessage names (applicationLine name (applicationSerialApp++data))=
      .app name data := by
  have hmessage : processSerialMessage names
      (applicationLine name (applicationSerialApp++data))=
        processApplicationSerialMessage names (name++serialSep::(applicationSerialApp++data)) := by
    unfold processSerialMessage
    exact if_pos rfl
  have hlength : ¬(name.length=0 ∨ applicationNameMaxLen < name.length) := by
    rintro (hzero | hlong)
    · exact h.nonempty (List.eq_nil_of_length_eq_zero hzero)
    · exact absurd h.short (Nat.not_le.mpr hlong)
  rw [hmessage]
  unfold processApplicationSerialMessage
  rw [strchr_plain h.plain]
  dsimp only
  rw [if_neg hlength,List.take_left,drop_plain,if_neg (by simp [h.mem])]
  rfl

/-- The text of an address. -/
structure AddressText where
  /-- The text. -/
  text : List UInt8
  /-- It is plain. -/
  plain : Plain text
  /-- There is room for it and a terminator. -/
  short : text.length < uiplibIpv6MaxStrLen

/-- Base 64 is plain. -/
theorem plain_b64encode (bytes : List UInt8) : Plain (b64encode bytes) :=
  ⟨fun h => dtable_of_mem_b64encode bytes serialSep h (by decide),
    fun h => dtable_of_mem_b64encode bytes 0 h (by decide)⟩

/-- So are digits. -/
theorem plain_decimal (v : ℕ) : Plain (decimal v) :=
  ⟨fun h => absurd ((decimal_digits v).1 serialSep h) (by decide),
    fun h => absurd ((decimal_digits v).1 0 h) (by decide)⟩

end Lines

section Challenges

open ChallengeResponse (challengeResponseApplicationName)
open ChallengeTaskResponse

/-- The edge's half of the challenge-response application. -/
def challengeResponse (env : ChallengeTaskResponse.Env D) :
    Application ChallengeTaskResponse.State where
  name := challengeResponseApplicationName
  outlet s := ⟨s.ep,s.coapCallbackInUse,s.msgBuf,s.printed,s.requests⟩
  process sending s data := crTaskrespProcessSerialInput env sending s data
  sendCallback := ChallengeTaskResponse.sendCallback
  unlock s := {s with coapCallbackInUse := Timers.timedUnlockUnlock s.coapCallbackInUse}
  Fits data := ∀ action∈ChallengeTaskResponse.lineAction data,
    ChallengeTaskResponse.TargetFits action
  answers data := match ChallengeTaskResponse.lineAction data with
    | some (.stats _) | some (.resp _) => true
    | some .unknown | none => false

/-- What the client of the challenge-response application writes. -/
inductive ChallengeMessage where
  /-- `_write_task_stats`. -/
  | stats (bytes : List UInt8)
  /-- `_write_task_result`. -/
  | result (dest : AddressText) (bytes : List UInt8)

/-- The data for the application. -/
def ChallengeMessage.data : ChallengeMessage → List UInt8
  | .stats bytes => serialSep::(statsAction++serialSep::b64encode bytes)
  | .result dest bytes =>
    serialSep::(respAction++serialSep::(dest.text++serialSep::b64encode bytes))

/-- The edge finds the action of such data. -/
theorem lineAction_challenge (message : ChallengeMessage) :
    ChallengeTaskResponse.lineAction message.data=some (match message with
      | .stats bytes => .stats (b64encode bytes)
      | .result dest bytes => .resp (dest.text++serialSep::b64encode bytes)) := by
  have hstring : cString message.data=message.data := by
    refine cString_of_plain ?_
    cases message with
    | stats bytes => simp [ChallengeMessage.data,serialSep,statsAction,(plain_b64encode bytes).2]
    | result dest bytes =>
      simp [ChallengeMessage.data,serialSep,respAction,dest.plain.2,(plain_b64encode bytes).2]
  unfold ChallengeTaskResponse.lineAction
  rw [hstring]
  cases message <;> rfl

/-- The line of a message, on its way to the edge. -/
def ChallengeMessage.line (env : ChallengeTaskResponse.Env D)
    (h : Offered names challengeResponseApplicationName) (message : ChallengeMessage) :
    EdgeLine (challengeResponse env) names where
  text := applicationLine challengeResponseApplicationName (applicationSerialApp++message.data)
  fits data hdata := by
    rw [processSerialMessage_app h] at hdata
    cases hdata
    intro action haction
    rw [lineAction_challenge] at haction
    cases message with
    | stats bytes =>
      cases haction
      trivial
    | result dest bytes =>
      cases haction
      intro length hlength
      rw [strchr_plain dest.plain] at hlength
      cases hlength
      exact dest.short

/-- That text. -/
def sampleDest : AddressText := ⟨TaskResponseRuns.sampleTarget,by decide,by decide⟩

/-- The edge has the application. -/
theorem offered_challengeResponse :
    Offered [challengeResponseApplicationName] challengeResponseApplicationName :=
  ⟨List.mem_singleton_self _,by decide,by decide,by decide⟩

end Challenges

section Routes

open TaskResponse TaskResponseRuns

/-- The edge's half of the routing application. -/
def routing (env : TaskResponse.Env D) : Application TaskResponse.State where
  name := routingName
  outlet s := ⟨s.ep,s.coapCallbackInUse,s.msgBuf,s.printed,s.requests⟩
  process sending s data := routingTaskrespProcessSerialInput env sending s data
  sendCallback := TaskResponse.sendCallback
  unlock s := {s with coapCallbackInUse := Timers.timedUnlockUnlock s.coapCallbackInUse}
  Fits data := ∀ action∈TaskResponse.lineAction data, TaskResponseRuns.TargetFits action
  answers data := (TaskResponse.lineAction data).isSome

variable {env : TaskResponse.Env D} {sending : Sending} {s s' : TaskResponse.State}

/-- What the client of the routing application writes. -/
inductive RoutingMessage where
  /-- `_write_task_stats`. -/
  | stats (bytes : List UInt8)
  /-- `_write_task_result_result`. -/
  | result (dest : AddressText) (n status : ℕ)
  /-- `_write_task_result_chunk`, one line of it. -/
  | chunk (place : Place) (bytes : List UInt8)

/-- The data for the application. -/
def RoutingMessage.data : RoutingMessage → List UInt8
  | .stats bytes => serialSep::(statsAction++serialSep::b64encode bytes)
  | .result dest n status => serialSep::(resp1Action++serialSep::(dest.text++
      serialSep::(decimal n++serialSep::decimal status)))
  | .chunk place bytes => serialSep::(resp2Action++serialSep::partText place bytes)

/-- The edge finds the action of such data. -/
theorem lineAction_routing (message : RoutingMessage) :
    TaskResponse.lineAction message.data=some (match message with
      | .stats bytes => .stats (b64encode bytes)
      | .result dest n status =>
        .resp1 (dest.text++serialSep::(decimal n++serialSep::decimal status))
      | .chunk place bytes => .resp2 (partText place bytes)) := by
  have hstring : cString message.data=message.data := by
    refine cString_of_plain ?_
    cases message with
    | stats bytes => simp [RoutingMessage.data,serialSep,statsAction,(plain_b64encode bytes).2]
    | result dest n status =>
      simp [RoutingMessage.data,serialSep,resp1Action,dest.plain.2,(plain_decimal n).2,
        (plain_decimal status).2]
    | chunk place bytes =>
      simp [RoutingMessage.data,serialSep,resp2Action,zero_notMem_partText place bytes]
  unfold TaskResponse.lineAction
  rw [hstring]
  cases message <;> rfl

/-- The line of a message, on its way to the edge. -/
def RoutingMessage.line (env : TaskResponse.Env D) (h : Offered names routingName)
    (message : RoutingMessage) : EdgeLine (routing env) names where
  text := applicationLine routingName (applicationSerialApp++message.data)
  fits data hdata := by
    rw [processSerialMessage_app h] at hdata
    cases hdata
    intro action haction
    rw [lineAction_routing] at haction
    cases message with
    | stats bytes =>
      cases haction
      trivial
    | result dest n status =>
      cases haction
      intro length hlength
      rw [strchr_plain dest.plain] at hlength
      cases hlength
      exact dest.short
    | chunk place bytes =>
      cases haction
      trivial

end Routes

end TrustAlloc.ClientLines
