import TrustAlloc.ChallengeResponse
import TrustAlloc.Runs

/-!
# The monitoring application on a node

The process of `monitoring.c`: two timers post events that make it send sensor
data to a chosen edge, and a callback tells what became of the request. The
endpoint and the callback state are shared by all requests, and the lock that
guards them releases itself. Outcomes go to the edge that they are about
exactly as long as the endpoint is still that of their request when they
arrive. The requests under way and the outcomes are recorded; no function
reads the records.
-/

namespace TrustAlloc.Monitoring

open Certificates ChallengeResponse Decoding EdgeInfo Runs Timers TrustModels

/-- An encoder that also emits signed integers. -/
structure SensorEncoder extends Nanocbor where
  /-- A signed integer. -/
  intItem : ℤ → List UInt8

/-- What the application is built against. -/
structure Env (ET CT : Type) where
  /-- The trust model. -/
  trust : TrustModel ET CT
  /-- The CBOR encoder. -/
  encoder : SensorEncoder
  /-- Whether `APPLICATIONS_MONITOR_THROUGHPUT` is defined. -/
  monitorThroughput : Bool
  /-- Bytes per second from a length and a number of ticks. -/
  throughput : ℕ → ℕ → UInt32
  /-- `CLOCK_SECOND`. -/
  clockSecond : ℕ

/-- `MONITORING_APPLICATION_NAME`: "envmon". -/
def monitoringApplicationName : List UInt8 := [0x65,0x6e,0x76,0x6d,0x6f,0x6e]

/-- Size of `msg_buf`. -/
def msgBufSize : ℕ := 1+(1+4)+(1+4)+(1+4)

/-- What the sensors and the clock of seconds are found at. -/
structure Sensors where
  /-- `time_secs`. -/
  timeSecs : UInt32
  /-- `temp_value`. -/
  tempValue : ℤ
  /-- `vdd3_value`. -/
  vdd3Value : ℤ

/-- `generate_sensor_data` into a buffer of the given size. -/
def generateSensorData (N : SensorEncoder) (bufLen : ℕ) (d : Sensors) : ℤ :=
  let done : Except ℤ Encoder := do
    let enc ← emitCheck N.toNanocbor (nanocborEncoderInit bufLen) (N.arrayHead 3)
    let enc ← emitCheck N.toNanocbor enc (N.uintHead d.timeSecs.toNat)
    let enc ← emitCheck N.toNanocbor enc (N.intItem d.tempValue)
    emitCheck N.toNanocbor enc (N.intItem d.vdd3Value)
  match done with
  | .ok enc => enc.len
  | .error err => err

/-- An outcome that `send_callback` has reported. -/
structure Outcome where
  /-- Address of the edge whose trust values were updated. -/
  updated : IpAddr
  /-- Address that the request was sent to. -/
  sentTo : IpAddr
  deriving DecidableEq

/-- The static data of `monitoring.c`, the edge store, the posted events and
the records, newest first. -/
structure State (ne nc : ℕ) (ET CT : Type) where
  /-- The data of `edge-info.c`. -/
  edges : EdgeStore ne nc ET CT
  /-- The flag of `app_state`: some edge offers the application. -/
  running : Bool
  /-- `out_time` of `app_state`, used when throughput is monitored. -/
  outTime : ℕ
  /-- `out_len` of `app_state`, used when throughput is monitored. -/
  outLen : ℕ
  /-- Address of `ep`, the edge that was chosen last. -/
  ep : IpAddr
  /-- `coap_callback_in_use`. -/
  coapCallbackInUse : TimedUnlock
  /-- `publish_periodic_timer`. -/
  publishPeriodicTimer : Timer
  /-- `publish_short_timer`. -/
  publishShortTimer : Timer
  /-- Events of the two timers that are posted and not yet taken. -/
  pending : ℕ
  /-- Addresses that the unfinished requests were sent to. -/
  inFlight : List IpAddr
  /-- Outcomes that were reported. -/
  log : List Outcome

variable {ne nc : ℕ} {ET CT : Type}

/-- The edge with an address together with its monitoring capability. -/
def findMonitoring (edges : EdgeStore ne nc ET CT) (addr : IpAddr) :
    Option (Fin ne × Fin (ne*nc)) :=
  (edgeInfoFindAddr edges addr).bind fun e =>
    (edgeInfoCapabilityFind edges e monitoringApplicationName).map (e,·)

/-- The lock that `send_callback` releases. -/
def releaseLock (status : CoapRequestStatus) (s : State ne nc ET CT) : State ne nc ET CT :=
  match status with
  | .response => s
  | .finished | .more | .timeout | .blockError =>
    {s with coapCallbackInUse := timedUnlockUnlock s.coapCallbackInUse}

/-- `send_callback`, for a request that was sent to the given address; the
code is that of a response. -/
def sendCallback (env : Env ET CT) (now : ℕ) (sentTo : IpAddr) (status : CoapRequestStatus)
    (code : ℕ) (s : State ne nc ET CT) : State ne nc ET CT :=
  let info : TaskSubmissionInfo := ⟨if status=.response then code else noError,status⟩
  let s := releaseLock status s
  match findMonitoring s.edges s.ep with
  | none => s
  | some (e,c) =>
    let edges := updateTrust s.edges e c (env.trust.taskSubmission info)
    {s with
      edges := if env.monitorThroughput=true then
        updateTrust edges e c (env.trust.taskThroughput
          ⟨.outward,env.throughput s.outLen (now-s.outTime)⟩) else edges
      log := ⟨(s.edges.edge e).ep,sentTo⟩::s.log}

/-- What `periodic_action` finds when it is run. -/
structure Choice (ne : ℕ) where
  /-- Values of the sensors. -/
  sensors : Sensors
  /-- Result of `choose_edge`. -/
  chosen : Option (Fin ne)
  /-- Whether the endpoint is connected. -/
  connected : Bool
  /-- Whether the request is accepted. -/
  accepted : Bool

/-- `periodic_action`. -/
def periodicAction (env : Env ET CT) (now : ℕ) (p : Choice ne) (s : State ne nc ET CT) :
    State ne nc ET CT :=
  let s := {s with publishPeriodicTimer := s.publishPeriodicTimer.reset}
  if s.coapCallbackInUse.locked=true then s
  else
    let len := generateSensorData env.encoder msgBufSize p.sensors
    if len≤0 ∨ msgBufSize<len then s
    else match p.chosen with
      | none => s
      | some e =>
        let s := {s with ep := (s.edges.edge e).ep}
        if p.connected=false then
          {s with publishShortTimer := .set now (env.clockSecond*10)}
        else if p.accepted=false then s
        else
          let s := {s with
            coapCallbackInUse := timedUnlockLock now s.coapCallbackInUse
            inFlight := s.ep::s.inFlight}
          if env.monitorThroughput=true then {s with outTime := now,outLen := len.toNat} else s

/-- `edge_capability_add`. -/
def edgeCapabilityAdd (env : Env ET CT) (now : ℕ) (s : State ne nc ET CT) : State ne nc ET CT :=
  let running := edgeInfoHasActiveCapability s.edges monitoringApplicationName
  let started := !s.running && running
  {s with
    running := running
    publishPeriodicTimer :=
      if started=true then .set now (env.clockSecond*60*1) else s.publishPeriodicTimer}

/-- `edge_capability_remove`. -/
def edgeCapabilityRemove (s : State ne nc ET CT) : State ne nc ET CT :=
  let running := edgeInfoHasActiveCapability s.edges monitoringApplicationName
  let stopped := s.running && !running
  {s with
    running := running
    publishPeriodicTimer :=
      if stopped=true then s.publishPeriodicTimer.stop else s.publishPeriodicTimer}

/-- The request at a place of the record is over after this status. -/
def finish (status : CoapRequestStatus) (i : ℕ) (inFlight : List IpAddr) : List IpAddr :=
  match status with
  | .response | .more => inFlight
  | .finished | .timeout | .blockError => inFlight.eraseIdx i

/-- What can happen next, in any order. -/
inductive Op (ne nc : ℕ) (ET CT : Type) where
  /-- The event `pe_edge_capability_add` is taken. -/
  | capabilityAdd (now : ℕ)
  /-- The event `pe_edge_capability_remove` is taken. -/
  | capabilityRemove
  /-- `publish_periodic_timer` expires, which posts an event. -/
  | periodicExpires (now : ℕ)
  /-- `publish_short_timer` expires, which posts an event. -/
  | shortExpires (now : ℕ)
  /-- An event of a timer is taken. -/
  | timerEvent (now : ℕ) (p : Choice ne)
  /-- The CoAP library calls back for one of the unfinished requests. -/
  | callback (now i : ℕ) (status : CoapRequestStatus) (code : ℕ)
  /-- The timer of `coap_callback_in_use` expires. -/
  | coapExpires (now : ℕ)
  /-- Other processes change the edges. -/
  | edges (edges : EdgeStore ne nc ET CT)

/-- One step of the application or of its surroundings. A timer that is not
due does not expire, an event that was not posted is not taken, and there is
no callback without a request. -/
def step (env : Env ET CT) (s : State ne nc ET CT) : Op ne nc ET CT → State ne nc ET CT
  | .capabilityAdd now => edgeCapabilityAdd env now s
  | .capabilityRemove => edgeCapabilityRemove s
  | .periodicExpires now =>
    if s.publishPeriodicTimer.Expired now then {s with
      publishPeriodicTimer := s.publishPeriodicTimer.stop
      pending := s.pending+1}
    else s
  | .shortExpires now =>
    if s.publishShortTimer.Expired now then {s with
      publishShortTimer := s.publishShortTimer.stop
      pending := s.pending+1}
    else s
  | .timerEvent now p =>
    if s.pending=0 then s else periodicAction env now p {s with pending := s.pending-1}
  | .callback now i status code =>
    match s.inFlight[i]? with
    | none => s
    | some sentTo =>
      sendCallback env now sentTo status code {s with inFlight := finish status i s.inFlight}
  | .coapExpires now =>
    if s.coapCallbackInUse.timer.Expired now then
      {s with coapCallbackInUse := timedUnlockUnlock s.coapCallbackInUse}
    else s
  | .edges edges => {s with edges := edges}

/-- The application after `init`, on zero-initialised memory. -/
def start (env : Env ET CT) (edges : EdgeStore ne nc ET CT) : State ne nc ET CT where
  edges := edges
  running := false
  outTime := 0
  outLen := 0
  ep := .replicate 16 0
  coapCallbackInUse := timedUnlockInit (1*60*env.clockSecond)
  publishPeriodicTimer := ⟨0,0,false⟩
  publishShortTimer := ⟨0,0,false⟩
  pending := 0
  inFlight := []
  log := []

section Functions

variable {s : State ne nc ET CT}

/-- An edge that is found has the address that was looked for. -/
theorem findMonitoring_ep {edges : EdgeStore ne nc ET CT} {addr : IpAddr}
    {ec : Fin ne × Fin (ne*nc)} (h : findMonitoring edges addr=some ec) :
    (edges.edge ec.1).ep=addr := by
  obtain ⟨e,he,hc⟩ := Option.bind_eq_some_iff.mp h
  obtain ⟨c,_,rfl⟩ := Option.map_eq_some_iff.mp hc
  simpa using List.find?_some he

/-- A callback reports its outcome for the edge that has the address in `ep`,
if there is one with the capability, and else nothing. -/
theorem sendCallback_cases (env : Env ET CT) (now : ℕ) (sentTo : IpAddr)
    (status : CoapRequestStatus) (code : ℕ) (s : State ne nc ET CT) :
    (findMonitoring s.edges s.ep=none ∧
      sendCallback env now sentTo status code s=releaseLock status s) ∨
    (findMonitoring s.edges s.ep≠none ∧ ∃ edges,
      sendCallback env now sentTo status code s={releaseLock status s with
        edges := edges
        log := ⟨s.ep,sentTo⟩::s.log}) := by
  have hrel : (releaseLock status s).edges=s.edges ∧ (releaseLock status s).ep=s.ep ∧
      (releaseLock status s).log=s.log := by
    cases status <;> exact ⟨rfl,rfl,rfl⟩
  obtain ⟨hedges,hep,hlog⟩ := hrel
  unfold sendCallback
  dsimp only
  rw [hedges,hep,hlog]
  split
  · next h => exact Or.inl ⟨h,rfl⟩
  · next e c h =>
    rw [findMonitoring_ep h]
    exact Or.inr ⟨by simp [h],_,rfl⟩

/-- The periodic action leaves the edges and the log alone, and either keeps
the endpoint and the requests, or finds the lock free. -/
theorem periodicAction_cases (env : Env ET CT) (now : ℕ) (p : Choice ne)
    (s : State ne nc ET CT) :
    (periodicAction env now p s).edges=s.edges ∧ (periodicAction env now p s).log=s.log ∧
    ((periodicAction env now p s).ep=s.ep ∧
        (periodicAction env now p s).inFlight=s.inFlight ∧
        (periodicAction env now p s).coapCallbackInUse=s.coapCallbackInUse ∨
      s.coapCallbackInUse.locked=false ∧
        ((periodicAction env now p s).inFlight=s.inFlight ∧
            (periodicAction env now p s).coapCallbackInUse=s.coapCallbackInUse ∨
          (periodicAction env now p s).inFlight=
              (periodicAction env now p s).ep::s.inFlight ∧
            (periodicAction env now p s).coapCallbackInUse.locked=true)) := by
  unfold periodicAction
  dsimp only
  split
  · exact ⟨rfl,rfl,Or.inl ⟨rfl,rfl,rfl⟩⟩
  · next hl =>
    have hfree : s.coapCallbackInUse.locked=false := by simpa using hl
    split
    · exact ⟨rfl,rfl,Or.inl ⟨rfl,rfl,rfl⟩⟩
    · split
      · exact ⟨rfl,rfl,Or.inl ⟨rfl,rfl,rfl⟩⟩
      · split
        · exact ⟨rfl,rfl,Or.inr ⟨hfree,Or.inl ⟨rfl,rfl⟩⟩⟩
        · split
          · exact ⟨rfl,rfl,Or.inr ⟨hfree,Or.inl ⟨rfl,rfl⟩⟩⟩
          · split <;> exact ⟨rfl,rfl,Or.inr ⟨hfree,Or.inr ⟨rfl,rfl⟩⟩⟩

end Functions

section Attribution

/-- Every reported outcome went to the edge that its request was sent to. -/
def Attributed (s : State ne nc ET CT) : Prop := ∀ o∈s.log, o.updated=o.sentTo

/-- Attribution is decided by the log. -/
instance decidableAttributed (s : State ne nc ET CT) : Decidable (Attributed s) :=
  inferInstanceAs (Decidable (∀ o∈s.log,_))

/-- An outcome arrives while `ep` is still the address of its request, or is
the address of no known edge with the capability. -/
def EndpointKept (s : State ne nc ET CT) : Op ne nc ET CT → Prop
  | .callback _ i _ _ => ∀ sentTo∈s.inFlight[i]?,
    s.ep=sentTo ∨ findMonitoring s.edges s.ep=none
  | _ => True

/-- Nothing is reported at the start. -/
theorem attributed_start (env : Env ET CT) (edges : EdgeStore ne nc ET CT) :
    Attributed (start env edges) := fun _ ho => nomatch ho

/-- One step keeps the outcomes attributed exactly if the endpoint of every
outcome is kept. -/
theorem attributed_step_iff (env : Env ET CT) {s : State ne nc ET CT} (h : Attributed s)
    (op : Op ne nc ET CT) : Attributed (step env s op) ↔ EndpointKept s op := by
  have hsame : ∀ {s' : State ne nc ET CT}, s'.log=s.log → (Attributed s' ↔ True) :=
    fun hlog => iff_true_intro (by rwa [Attributed,hlog])
  cases op with
  | capabilityAdd now => exact hsame rfl
  | capabilityRemove => exact hsame rfl
  | periodicExpires now => exact hsame (by dsimp only [step]; split <;> rfl)
  | shortExpires now => exact hsame (by dsimp only [step]; split <;> rfl)
  | timerEvent now p =>
    refine hsame ?_
    dsimp only [step]
    split
    · rfl
    · exact (periodicAction_cases env now p {s with pending := s.pending-1}).2.1
  | callback now i status code =>
    dsimp only [step,EndpointKept]
    cases hi : s.inFlight[i]? with
    | none => exact ⟨fun _ _ hc => (nomatch hc),fun _ => h⟩
    | some sentTo =>
      have hrel : ∀ s' : State ne nc ET CT, (releaseLock status s').log=s'.log :=
        fun s' => by cases status <;> rfl
      rcases sendCallback_cases env now sentTo status code
        {s with inFlight := finish status i s.inFlight} with ⟨hf,he⟩ | ⟨hf,edges,he⟩
      · refine ⟨fun _ _ _ => Or.inr hf,fun _ => ?_⟩
        dsimp only
        rw [Attributed,he,hrel]
        exact h
      · dsimp only
        rw [Attributed,he]
        constructor
        · rintro hall a ⟨⟩
          exact Or.inl (hall _ List.mem_cons_self)
        · intro hkept o ho
          rcases List.mem_cons.mp ho with rfl | hold
          · exact (hkept sentTo rfl).resolve_right hf
          · exact h o hold
  | coapExpires now => exact hsame (by dsimp only [step]; split <;> rfl)
  | edges edges => exact hsame rfl

/-- **Attribution over a whole run.** Every outcome is applied to the edge that
its request was sent to, exactly if the endpoint was kept for each of them. -/
theorem attributed_always_iff (env : Env ET CT) (edges : EdgeStore ne nc ET CT)
    (ops : List (Op ne nc ET CT)) :
    Always (step env) Attributed (start env edges) ops ↔
      Along (step env) EndpointKept (start env edges) ops :=
  always_iff_along_of_step (fun _ op h => attributed_step_iff env h op) (attributed_start env edges)

end Attribution

section Lock

/-- What the lock is for: at most one request is unfinished, it went to the
address in `ep`, and the lock is taken meanwhile. -/
def Guarded (s : State ne nc ET CT) : Prop :=
  s.inFlight=[] ∨ s.inFlight=[s.ep] ∧ s.coapCallbackInUse.locked=true

/-- The lock does not expire while a request is unfinished, and nor does a
callback announce more blocks. -/
def Prompt (s : State ne nc ET CT) : Op ne nc ET CT → Prop
  | .coapExpires _ => s.inFlight=[]
  | .callback _ _ status _ => status≠.more
  | _ => True

/-- A callback leaves the requests and the endpoint alone, and the lock to
`releaseLock`. -/
theorem sendCallback_guard (env : Env ET CT) (now : ℕ) (sentTo : IpAddr)
    (status : CoapRequestStatus) (code : ℕ) (s : State ne nc ET CT) :
    (sendCallback env now sentTo status code s).inFlight=s.inFlight ∧
    (sendCallback env now sentTo status code s).ep=s.ep ∧
    (sendCallback env now sentTo status code s).coapCallbackInUse=
      (releaseLock status s).coapCallbackInUse := by
  rcases sendCallback_cases env now sentTo status code s with ⟨_,he⟩ | ⟨_,edges,he⟩ <;>
    rw [he] <;> cases status <;> exact ⟨rfl,rfl,rfl⟩

/-- The periodic action keeps the requests guarded: it sends only when the
lock is free, so when no request is unfinished. -/
theorem Guarded.periodicAction {s : State ne nc ET CT} (h : Guarded s) (env : Env ET CT)
    (now : ℕ) (p : Choice ne) : Guarded (periodicAction env now p s) := by
  obtain ⟨_,_,⟨hep,hin,hlock⟩ | ⟨hfree,⟨hin,hlock⟩ | ⟨hin,hlock⟩⟩⟩ :=
    periodicAction_cases env now p s
  · rw [Guarded,hin,hep,hlock]
    exact h
  · rcases h with h | ⟨_,hl⟩
    · exact Or.inl (hin.trans h)
    · rw [hfree] at hl
      cases hl
  · rcases h with h | ⟨_,hl⟩
    · exact Or.inr ⟨hin.trans (congrArg _ h),hlock⟩
    · rw [hfree] at hl
      cases hl

/-- The outcome of the only request keeps the requests guarded: either the
request goes on and the lock stays, or it is over. -/
theorem Guarded.callback {s : State ne nc ET CT} (h : Guarded s) (env : Env ET CT)
    (now : ℕ) {i : ℕ} {status : CoapRequestStatus} (hmore : status≠.more) (code : ℕ)
    {sentTo : IpAddr} (hi : s.inFlight[i]?=some sentTo) :
    Guarded (sendCallback env now sentTo status code
      {s with inFlight := finish status i s.inFlight}) := by
  obtain ⟨hin,hep,hlock⟩ := sendCallback_guard env now sentTo status code
    {s with inFlight := finish status i s.inFlight}
  rw [Guarded,hin,hep,hlock]
  rcases h with h | ⟨hone,hl⟩
  · rw [h] at hi
    cases hi
  · have hzero : i=0 := by
      have hlt := (List.getElem?_eq_some_iff.mp hi).1
      rw [hone] at hlt
      exact Nat.lt_one_iff.mp hlt
    have hover : s.inFlight.eraseIdx i=[] := by
      rw [hone,hzero]
      rfl
    cases status with
    | response => exact Or.inr ⟨hone,hl⟩
    | more => exact absurd rfl hmore
    | finished => exact Or.inl hover
    | timeout => exact Or.inl hover
    | blockError => exact Or.inl hover

/-- A prompt step keeps the requests guarded. -/
theorem Guarded.step (env : Env ET CT) {s : State ne nc ET CT} (h : Guarded s)
    {op : Op ne nc ET CT} (hop : Prompt s op) : Guarded (step env s op) := by
  cases op with
  | capabilityAdd now => exact h
  | capabilityRemove => exact h
  | periodicExpires now =>
    dsimp only [Monitoring.step]
    split <;> exact h
  | shortExpires now =>
    dsimp only [Monitoring.step]
    split <;> exact h
  | timerEvent now p =>
    dsimp only [Monitoring.step]
    split
    · exact h
    · exact Guarded.periodicAction (s:={s with pending := s.pending-1}) h env now p
  | callback now i status code =>
    dsimp only [Monitoring.step]
    cases hi : s.inFlight[i]? with
    | none => exact h
    | some sentTo => exact h.callback env now hop code hi
  | coapExpires now =>
    dsimp only [Monitoring.step]
    split
    · exact Or.inl hop
    · exact h
  | edges edges => exact h

/-- While requests are guarded, the endpoint of every outcome is kept. -/
theorem Guarded.endpointKept {s : State ne nc ET CT} (h : Guarded s) (op : Op ne nc ET CT) :
    EndpointKept s op := by
  cases op with
  | callback now i status code =>
    intro sentTo hi
    have hmem := List.mem_of_getElem? hi
    rcases h with h | ⟨hone,_⟩
    · rw [h] at hmem
      cases hmem
    · rw [hone] at hmem
      exact Or.inl (List.mem_singleton.mp hmem).symm
  | _ => trivial

/-- As long as requests end before the lock expires, every outcome is applied
to the edge that its request was sent to. -/
theorem attributed_of_prompt (env : Env ET CT) (edges : EdgeStore ne nc ET CT)
    (ops : List (Op ne nc ET CT)) (hops : Along (step env) Prompt (start env edges) ops) :
    Always (step env) Attributed (start env edges) ops :=
  always_of_step (I:=fun s => Guarded s ∧ Attributed s)
    (fun _ op h hop =>
      ⟨h.1.step env hop,(attributed_step_iff env h.2 op).mpr (h.1.endpointKept op)⟩)
    ⟨Or.inl rfl,attributed_start env edges⟩ hops |>.mono fun _ h => h.2

end Lock

section Sample

/-- Heads of CBOR items for values below 256, and small integers. -/
def sampleSensorEncoder : SensorEncoder :=
  {sampleEncoder with intItem := fun v => [if 0≤v then v.toNat.toUInt8 else 0x20]}

/-- Observations are counted; a second has one tick. -/
def sampleMonitoringEnv : Env ℕ ℕ where
  trust := ⟨fun _ t => (t.1+1,t.2),fun _ t => t,fun _ t => t,fun _ t => t⟩
  encoder := sampleSensorEncoder
  monitorThroughput := false
  throughput _ _ := 0
  clockSecond := 1

/-- Two edges offer the application. -/
def sampleMonitoringStart : State 4 3 ℕ ℕ :=
  start sampleMonitoringEnv (sampleStore monitoringApplicationName)

/-- The periodic timer expires and data is sent to an edge. -/
def sampleSend (now : ℕ) (e : Fin 4) : List (Op 4 3 ℕ ℕ) :=
  [.periodicExpires now,.timerEvent now ⟨⟨7,20,-1⟩,some e,true,true⟩]

/-- The request to one edge fails only after the lock has expired and data has
been sent to another edge, whose trust values are updated then. -/
theorem not_attributed_of_late_outcome :
    ¬Always (step sampleMonitoringEnv) Attributed sampleMonitoringStart
      (.capabilityAdd 0::sampleSend 60 sampleFirst++.coapExpires 120::sampleSend 120 sampleSecond++
        [.callback 121 1 .timeout 0]) := by
  decide

end Sample

end TrustAlloc.Monitoring
