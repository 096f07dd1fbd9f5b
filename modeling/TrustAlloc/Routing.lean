import TrustAlloc.Decoding
import TrustAlloc.Timers
import TrustAlloc.TrustModels

/-!
# The routing application on a node

The process of `routing.c`: a command submits a task to a chosen edge, a
callback tells what became of the request, the edge posts a status and then
the route in blocks, and two locks expire. The CBOR decoder, floating point
numbers, the parser of numbers, the choice of an edge and the trust model are
parameters. Local variables that the code does not initialise hold arbitrary
values, which come with the message. A log records what has happened; no
function reads it.
-/

namespace TrustAlloc.Routing

open Decoding EdgeInfo Timers TrustModels

/-- `coordinate_t`. -/
structure Coordinate (F : Type) where
  /-- Degrees north. -/
  latitude : F
  /-- Degrees east. -/
  longitude : F
  deriving DecidableEq

/-- A decoder that also reads floating point numbers. -/
structure CoordinateDecoder (D F : Type) extends NanocborDecoder D where
  /-- `nanocbor_get_float`, on a variable with the given value. -/
  getFloat : D → F → ℤ × D × F

/-- What the application is built against. -/
structure Env (ET CT F D : Type) where
  /-- The trust model. -/
  trust : TrustModel ET CT
  /-- The CBOR decoder. -/
  cbor : CoordinateDecoder D F
  /-- `isclose`. -/
  isclose : F → F → Bool
  /-- `parse_input`, on the variables for source and destination. -/
  parseInput : List UInt8 → Coordinate F × Coordinate F → Bool × Coordinate F × Coordinate F
  /-- Whether `APPLICATIONS_MONITOR_THROUGHPUT` is defined. -/
  monitorThroughput : Bool
  /-- Bytes per second from a length and a number of ticks. -/
  throughput : ℕ → ℕ → UInt32

variable {ne nc : ℕ} {ET CT F D : Type}

section Decoding

/-- `nanocbor_get_coordinate`, with the variable after it. -/
def nanocborGetCoordinate (cbor : CoordinateDecoder D F) (dec : D) (coord : Coordinate F) :
    ℤ × Coordinate F :=
  let arr := cbor.enterArray dec
  if arr.1<0 then (arr.1,coord)
  else
    let lat := cbor.getFloat arr.2 coord.latitude
    if lat.1<0 then (lat.1,⟨lat.2.2,coord.longitude⟩)
    else
      let lon := cbor.getFloat lat.2.1 coord.longitude
      if lon.1<0 then (lon.1,⟨lat.2.2,lon.2.2⟩)
      else if cbor.atEnd lon.2.1=true then (nanocborOk,⟨lat.2.2,lon.2.2⟩)
      else (-1,⟨lat.2.2,lon.2.2⟩)

/-- The loop that skips a number of items. -/
def skipItems (cbor : CoordinateDecoder D F) : ℕ → D → ℤ × D
  | 0,dec => (nanocborOk,dec)
  | count+1,dec =>
    if (cbor.skip dec).1<0 then cbor.skip dec else skipItems cbor count (cbor.skip dec).2

/-- Which item of a payload is asked for. -/
inductive Position where
  /-- Position `1`. -/
  | first
  /-- Position `-1`. -/
  | last

/-- `nanocbor_get_coordinate_from_payload`. -/
def nanocborGetCoordinateFromPayload (cbor : CoordinateDecoder D F) (dec : D)
    (coord : Coordinate F) (pos : Position) : ℤ × Coordinate F :=
  let arr := cbor.enterArray dec
  if arr.1<0 then (arr.1,coord)
  else if cbor.atEnd arr.2=true then (-1,coord)
  else match pos with
    | .first => nanocborGetCoordinate cbor arr.2 coord
    | .last =>
      let skipped := skipItems cbor (cbor.remaining arr.2-1).toNat arr.2
      if skipped.1<0 then (skipped.1,coord)
      else nanocborGetCoordinate cbor skipped.2 coord

end Decoding

/-- `ROUTING_APPLICATION_NAME`: "routing". -/
def routingApplicationName : List UInt8 := [0x72,0x6f,0x75,0x74,0x69,0x6e,0x67]

/-- `ROUTING_SUCCESS`. -/
def routingSuccess : UInt32 := 0

/-- `ROUTING_PARSING_ERROR`. -/
def routingParsingError : UInt32 := 4

/-- Size of `msg_buf`. -/
def msgBufSize : ℤ := 1+(1+4)+(1+(1+4)*2)*2

/-- `app_state_t`; the last four fields exist when throughput is monitored. -/
structure AppState where
  /-- Whether some edge offers the application. -/
  running : Bool
  /-- `out_time`. -/
  outTime : ℕ
  /-- `out_len`. -/
  outLen : ℕ
  /-- `in_time`. -/
  inTime : ℕ
  /-- `in_len`. -/
  inLen : ℕ

/-- A block1 option, and what the CoAP library makes of it. -/
structure Block1 where
  /-- Whether `coap_get_header_block1` finds the option. -/
  header : Bool
  /-- Number of the block. -/
  num : UInt32
  /-- Whether more blocks follow. -/
  more : Bool
  /-- Result of `coap_block1_handler`. -/
  handler : ℤ

/-- A POST to the resource. -/
structure Post (F : Type) where
  /-- Address of `src_ep`. -/
  src : IpAddr
  /-- Payload of the message. -/
  payload : List UInt8
  /-- The block1 option, if there is one. -/
  block1 : Option Block1
  /-- What `first` holds before it is written. -/
  first : Coordinate F
  /-- What `last` holds before it is written. -/
  last : Coordinate F

/-- What has happened, for the log. -/
inductive Event (F : Type) where
  /-- A task was submitted, with its source and destination. -/
  | submitted (src dest : Coordinate F)
  /-- `tm_update_task_submission` was called. -/
  | taskSubmission (info : TaskSubmissionInfo)
  /-- A status was handled; its sender is an edge with the capability, or not. -/
  | status (registered : Bool)
  /-- The task expired; its edge is there with the capability, or not. -/
  | expired (registered : Bool)
  /-- `tm_update_task_result` was called. -/
  | taskResult (info : TaskResultInfo)
  /-- A block was handled, when `first` held the given value. -/
  | block (num : UInt32) (payload : List UInt8) (first : Coordinate F)
  /-- `routing_process_task_result` was called for a payload, when `last`
  held the given value. -/
  | judged (good : Bool) (payload : List UInt8) (last : Coordinate F)

/-- The static data of `routing.c`, the edge store and the log, newest first. -/
structure State (ne nc : ℕ) (ET CT F : Type) where
  /-- The data of `edge-info.c`. -/
  edges : EdgeStore ne nc ET CT
  /-- `app_state`. -/
  app : AppState
  /-- Address of `ep`, the edge that the last task was sent to. -/
  ep : IpAddr
  /-- `coap_callback_in_use`. -/
  coapCallbackInUse : TimedUnlock
  /-- `task_in_use`. -/
  taskInUse : TimedUnlock
  /-- `task_src`. -/
  taskSrc : Coordinate F
  /-- `task_dest`. -/
  taskDest : Coordinate F
  /-- `first_src_isclose`. -/
  firstSrcIsclose : Bool
  /-- What has happened. -/
  log : List (Event F)

/-- The edge with an address together with its routing capability. -/
def findRouting (edges : EdgeStore ne nc ET CT) (addr : IpAddr) :
    Option (Fin ne × Fin (ne*nc)) :=
  (edgeInfoFindAddr edges addr).bind fun e =>
    (edgeInfoCapabilityFind edges e routingApplicationName).map (e,·)

/-- Both components of two coordinates are close. -/
def coordinateIsclose (env : Env ET CT F D) (a b : Coordinate F) : Bool :=
  env.isclose a.latitude b.latitude && env.isclose a.longitude b.longitude

/-- The decoding of the first coordinate of a payload. -/
def decodeFirst (env : Env ET CT F D) (payload : List UInt8) (first : Coordinate F) :
    ℤ × Coordinate F :=
  nanocborGetCoordinateFromPayload env.cbor (env.cbor.init payload) first .first

/-- The decoding of the last coordinate of a payload. -/
def decodeLast (env : Env ET CT F D) (payload : List UInt8) (last : Coordinate F) :
    ℤ × Coordinate F :=
  nanocborGetCoordinateFromPayload env.cbor (env.cbor.init payload) last .last

/-- The locks that `send_callback` releases. -/
def releaseLocks (status : CoapRequestStatus) (code : ℕ) (s : State ne nc ET CT F) :
    State ne nc ET CT F :=
  match status with
  | .response =>
    if code=content205 then s else {s with taskInUse := timedUnlockUnlock s.taskInUse}
  | .finished => {s with coapCallbackInUse := timedUnlockUnlock s.coapCallbackInUse}
  | .more | .timeout | .blockError => {s with
      coapCallbackInUse := timedUnlockUnlock s.coapCallbackInUse
      taskInUse := timedUnlockUnlock s.taskInUse}

/-- What `send_callback` reports; the code is that of a response. -/
def submissionInfo (status : CoapRequestStatus) (code : ℕ) : TaskSubmissionInfo :=
  ⟨if status=.response then code else noError,status⟩

/-- The report of a throughput, if it is monitored. -/
def reportThroughput (env : Env ET CT F D) (edges : EdgeStore ne nc ET CT) (e : Fin ne)
    (c : Fin (ne*nc)) (direction : ThroughputDirection) (len ticks : ℕ) : EdgeStore ne nc ET CT :=
  if env.monitorThroughput=true then
    updateTrust edges e c (env.trust.taskThroughput ⟨direction,env.throughput len ticks⟩)
  else edges

/-- `send_callback`. -/
def sendCallback (env : Env ET CT F D) (now : ℕ) (status : CoapRequestStatus) (code : ℕ)
    (s : State ne nc ET CT F) : State ne nc ET CT F :=
  let s := releaseLocks status code s
  match findRouting s.edges s.ep with
  | none => s
  | some (e,c) =>
    let edges := updateTrust s.edges e c (env.trust.taskSubmission (submissionInfo status code))
    {s with
      edges := reportThroughput env edges e c .outward s.app.outLen (now-s.app.outTime)
      log := .taskSubmission (submissionInfo status code)::s.log}

/-- `event_triggered_action`. The length is that of the generated request,
the edge is the one chosen and the flag tells whether the request is accepted. -/
def eventTriggeredAction (env : Env ET CT F D) (now : ℕ) (data : List UInt8) (len : ℤ)
    (chosen : Option (Fin ne)) (accepted : Bool) (s : State ne nc ET CT F) :
    State ne nc ET CT F :=
  if s.coapCallbackInUse.locked=true then s
  else if s.taskInUse.locked=true then s
  else
    let parsed := env.parseInput data (s.taskSrc,s.taskDest)
    let s := {s with taskSrc := parsed.2.1,taskDest := parsed.2.2}
    if parsed.1=false then s
    else if s.app.running=false then s
    else if len≤0 ∨ msgBufSize<len then s
    else match chosen with
      | none => s
      | some e =>
        let s := {s with ep := (s.edges.edge e).ep}
        if accepted=false then s
        else {s with
          taskInUse := timedUnlockLock now s.taskInUse
          coapCallbackInUse := timedUnlockLock now s.coapCallbackInUse
          app := if env.monitorThroughput=true then
            {s.app with outTime := now,outLen := len.toNat} else s.app
          log := .submitted s.taskSrc s.taskDest::s.log}

/-- The status that a payload carries. -/
def decodeStatus (env : Env ET CT F D) (payload : List UInt8) : UInt32 :=
  let decoded := env.cbor.getUint32 (env.cbor.init payload)
  if decoded.1<0 then routingParsingError else decoded.2.2

/-- What a status tells the trust model. -/
def statusInfo (env : Env ET CT F D) (payload : List UInt8) : TaskResultInfo :=
  if decodeStatus env payload=routingSuccess then .success else .fail

/-- `routing_response_process_status`. -/
def routingResponseProcessStatus (env : Env ET CT F D) (now : ℕ) (p : Post F)
    (s : State ne nc ET CT F) : State ne nc ET CT F :=
  match findRouting s.edges p.src with
  | none => {s with log := .status false::s.log}
  | some (e,c) => {s with
      edges := updateTrust s.edges e c (env.trust.taskResult (statusInfo env p.payload))
      app := if env.monitorThroughput=true then
        {s.app with inTime := now,inLen := p.payload.length} else s.app
      log := .taskResult (statusInfo env p.payload)::.status true::s.log}

/-- `routing_process_task_timeout`. -/
def routingProcessTaskTimeout (env : Env ET CT F D) (s : State ne nc ET CT F) :
    State ne nc ET CT F :=
  match findRouting s.edges s.ep with
  | none => {s with log := .expired false::s.log}
  | some (e,c) => {s with
      edges := updateTrust s.edges e c (env.trust.taskResult .timeout)
      log := .taskResult .timeout::.expired true::s.log}

/-- `routing_process_task_result`. -/
def routingProcessTaskResult (env : Env ET CT F D) (now : ℕ) (p : Post F) (good : Bool)
    (s : State ne nc ET CT F) : State ne nc ET CT F :=
  let s := {s with log := .judged good p.payload p.last::s.log}
  match findRouting s.edges p.src with
  | none => s
  | some (e,c) =>
    let edges := updateTrust s.edges e c (env.trust.resultQuality good)
    {s with edges := reportThroughput env edges e c .inward s.app.inLen (now-s.app.inTime)}

/-- What the handler does with the first block. -/
def handleFirst (env : Env ET CT F D) (b : Block1) (p : Post F) (s : State ne nc ET CT F) :
    State ne nc ET CT F :=
  if b.num=0 then
    let first := (decodeFirst env p.payload p.first).2
    {s with firstSrcIsclose := coordinateIsclose env first s.taskSrc}
  else s

/-- What the handler does with the last block. -/
def handleLast (env : Env ET CT F D) (now : ℕ) (b : Block1) (p : Post F)
    (s : State ne nc ET CT F) : State ne nc ET CT F :=
  if b.more=false then
    let last := (decodeLast env p.payload p.last).2
    let good := s.firstSrcIsclose && coordinateIsclose env last s.taskDest
    let s := routingProcessTaskResult env now p good s
    {s with taskInUse := timedUnlockUnlock s.taskInUse}
  else s

/-- The branch of the handler for a block. -/
def handleBlock (env : Env ET CT F D) (now : ℕ) (b : Block1) (p : Post F)
    (s : State ne nc ET CT F) : State ne nc ET CT F :=
  if b.header=false then s
  else if b.handler<0 then s
  else
    let s := {s with
      app := if env.monitorThroughput=true then
        {s.app with inLen := s.app.inLen+p.payload.length} else s.app
      log := .block b.num p.payload p.first::s.log}
    handleLast env now b p (handleFirst env b p s)

/-- `res_coap_routing_post_handler`, with whether the message is refused. -/
def resCoapRoutingPostHandler (env : Env ET CT F D) (now : ℕ) (p : Post F)
    (s : State ne nc ET CT F) : State ne nc ET CT F × Bool :=
  if s.taskInUse.locked=false then (s,true)
  else
    let s := {s with taskInUse := timedUnlockRestartTimer now s.taskInUse}
    match p.block1 with
    | none => (routingResponseProcessStatus env now p s,false)
    | some b => (handleBlock env now b p s,false)

/-- What can happen next, in any order. -/
inductive Op (ne nc : ℕ) (ET CT F : Type) where
  /-- A command arrives on the serial line. -/
  | command (now : ℕ) (data : List UInt8) (len : ℤ) (chosen : Option (Fin ne)) (accepted : Bool)
  /-- The CoAP library calls back. -/
  | callback (now : ℕ) (status : CoapRequestStatus) (code : ℕ)
  /-- A message arrives. -/
  | post (now : ℕ) (p : Post F)
  /-- The timer of `task_in_use` expires. -/
  | taskExpires (now : ℕ)
  /-- The timer of `coap_callback_in_use` expires. -/
  | coapExpires (now : ℕ)
  /-- Other processes change the edges, and whether one offers the application. -/
  | edges (edges : EdgeStore ne nc ET CT) (running : Bool)

/-- One step of the application or of its surroundings. -/
def step (env : Env ET CT F D) (s : State ne nc ET CT F) :
    Op ne nc ET CT F → State ne nc ET CT F
  | .command now data len chosen accepted =>
    eventTriggeredAction env now data len chosen accepted s
  | .callback now status code => sendCallback env now status code s
  | .post now p => (resCoapRoutingPostHandler env now p s).1
  | .taskExpires _ =>
    routingProcessTaskTimeout env {s with taskInUse := timedUnlockUnlock s.taskInUse}
  | .coapExpires _ => {s with coapCallbackInUse := timedUnlockUnlock s.coapCallbackInUse}
  | .edges edges running => {s with edges := edges,app := {s.app with running := running}}

/-- Timers only expire when they are due. -/
def Admitted (s : State ne nc ET CT F) : Op ne nc ET CT F → Prop
  | .taskExpires now => s.taskInUse.timer.Expired now
  | .coapExpires now => s.coapCallbackInUse.timer.Expired now
  | _ => True

/-- Admission is decided by the timers. -/
instance decidableAdmitted (s : State ne nc ET CT F) : ∀ op, Decidable (Admitted s op)
  | .taskExpires now => inferInstanceAs (Decidable (s.taskInUse.timer.Expired now))
  | .coapExpires now => inferInstanceAs (Decidable (s.coapCallbackInUse.timer.Expired now))
  | .command _ _ _ _ _ | .callback _ _ _ | .post _ _ | .edges _ _ => .isTrue trivial

/-- The application after `init`, on zero-initialised memory; a second has
the given number of ticks. -/
def start (edges : EdgeStore ne nc ET CT) (zero : F) (clockSecond : ℕ) :
    State ne nc ET CT F where
  edges := edges
  app := ⟨false,0,0,0,0⟩
  ep := .replicate 16 0
  coapCallbackInUse := timedUnlockInit (1*60*clockSecond)
  taskInUse := timedUnlockInit (2*60*clockSecond)
  taskSrc := ⟨zero,zero⟩
  taskDest := ⟨zero,zero⟩
  firstSrcIsclose := false
  log := []

end TrustAlloc.Routing
