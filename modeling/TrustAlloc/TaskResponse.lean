import TrustAlloc.Base64
import TrustAlloc.CapabilityTopics
import TrustAlloc.Timers

/-!
# Results of tasks on the serial line

The edge's half of the routing application, `routing-task-response.c`. The
resource rich node writes lines; the edge puts the parts of a packet together
in a static buffer, sends it to the node that has asked for the task, and acks
each line on its own or when the request for it has ended. Whether a request
is accepted, the compiler's enumerations and the address parser are parameters.
-/

namespace TrustAlloc.TaskResponse

open Base64 CapabilityTopics Certificates Decoding EdgeInfo Keystore MqttPublish Timers

section Strings

/-- `'|'`, which is also all of `SERIAL_SEP`. -/
def serialSep : UInt8 := 0x7C

/-- `match_action`, on a string up to its terminator. -/
def matchAction (data action : List UInt8) : Bool := startsWith data action

/-- `isspace`. -/
def isspace (c : UInt8) : Bool := decide (c=0x20 ∨ 0x09 ≤ c ∧ c≤0x0D)

/-- `isdigit`. -/
def isdigit (c : UInt8) : Bool := decide (0x30 ≤ c ∧ c≤0x39)

/-- The number that decimal digits stand for. -/
def digitsValue (digits : List UInt8) : ℕ := digits.foldl (fun v c => 10*v+(c.toNat-0x30)) 0

/-- `ULONG_MAX`. -/
def ulongMax : ℕ := 2^32-1

/-- The sign in front of a number, and what follows. -/
def takeSign : List UInt8 → Bool×List UInt8
  | c::rest => if c=0x2D then (true,rest) else if c=0x2B then (false,rest) else (false,c::rest)
  | [] => (false,[])

/-- `strtoul` to base ten: the number, and the string from `endptr` on. -/
def strtoul (str : List UInt8) : ℕ×List UInt8 :=
  let (negative,text) := takeSign (str.dropWhile isspace)
  let digits := text.takeWhile isdigit
  if digits=[] then (0,str)
  else
    let value := digitsValue digits
    (if ulongMax < value then ulongMax
      else if negative=true then (ulongMax+1-value)%(ulongMax+1) else value,
      text.drop digits.length)

end Strings

section Data

/-- `application_stats_t`. -/
structure ApplicationStats where
  /-- `mean`. -/
  mean : UInt32
  /-- `maximum`. -/
  maximum : UInt32
  /-- `minimum`. -/
  minimum : UInt32
  /-- `variance`. -/
  variance : UInt32
  deriving DecidableEq

/-- A request to the node that has asked for the task, with what the edge
puts into it. -/
structure Message where
  /-- Address in `ep`. -/
  target : IpAddr
  /-- The payload. -/
  payload : List UInt8
  /-- Number, more flag and size of the block; none if the header is not set. -/
  block1 : Option (ℕ×Bool×ℕ)
  deriving DecidableEq

/-- What is printed for the resource rich node. -/
inductive Printed where
  /-- By `ack_serial_input`. -/
  | ack
  /-- By `cancel_response`. -/
  | cancel
  deriving DecidableEq

/-- The static data of `routing-task-response.c`, and what it has put out. -/
structure State where
  /-- `ep.ipaddr`. -/
  ep : IpAddr
  /-- `coap_callback_in_use`. -/
  coapCallbackInUse : TimedUnlock
  /-- `msg_buf`. -/
  msgBuf : List UInt8
  /-- `msg_buf_offset`, which never exceeds the size of the buffer. -/
  msgBufOffset : ℕ
  /-- `routing_stats`. -/
  routingStats : ApplicationStats
  /-- The lines that were printed; a history value. -/
  printed : List Printed
  /-- The requests that `coap_send_request` has accepted; a history value. -/
  requests : List Message

/-- What the edge is built against. -/
structure Env (D : Type) where
  /-- The CBOR emitter. -/
  nanocbor : Nanocbor
  /-- The CBOR decoder. -/
  cbor : NanocborDecoder D
  /-- `uiplib_ip6addrconv`: its result, and what it leaves in the address. -/
  uiplibIp6addrconv : List UInt8 → IpAddr → Bool×IpAddr
  /-- The conversion to `pyroutelib3_status_t`. -/
  pyroutelib3Status : ℕ → ℕ
  /-- Whether `coap_set_header_block1` sets the header, by the number, the more
  flag and the size. -/
  coapSetHeaderBlock1 : ℕ → Bool → ℕ → Bool

/-- What a call of `coap_send_request` meets. -/
structure Sending where
  /-- Whether the request is accepted. -/
  accepts : Bool
  /-- Reading of the clock. -/
  now : ℕ

end Data

/-- `COAP_MAX_CHUNK_SIZE`, the size of `msg_buf`. -/
def coapMaxChunkSize : ℕ := 256

/-- `UIPLIB_IPV6_MAX_STR_LEN`, the size of `uip_buffer`. -/
def uiplibIpv6MaxStrLen : ℕ := 40

variable {D : Type}

section Statistics

/-- `application_stats_deserialise`. -/
def applicationStatsDeserialise (cbor : NanocborDecoder D) (dec : D) :
    Except ℤ (D×ApplicationStats) := do
  let arr ← nanocborCheck (cbor.enterArray dec)
  let (arr,mean) ← nanocborCheck (cbor.getUint32 arr)
  let (arr,maximum) ← nanocborCheck (cbor.getUint32 arr)
  let (arr,minimum) ← nanocborCheck (cbor.getUint32 arr)
  let (arr,variance) ← nanocborCheck (cbor.getUint32 arr)
  if cbor.atEnd arr=false then throw (-1)
  return (cbor.leaveContainer dec arr,⟨mean,maximum,minimum,variance⟩)

/-- `APPLICATION_STATS_MAX_CBOR_LENGTH`. -/
def applicationStatsMaxCborLength : ℕ := 1+(1+4)*4

/-- `process_task_stats`; its result is not looked at. -/
def processTaskStats (env : Env D) (s : State) (data : List UInt8) : State :=
  let buffer := base64Decode data applicationStatsMaxCborLength
  if buffer.ok=false then s
  else match applicationStatsDeserialise env.cbor (env.cbor.init buffer.bytes) with
    | .error _ => s
    | .ok (dec,scn) => if env.cbor.atEnd dec=false then s else {s with routingStats := scn}

end Statistics

section Sending

/-- `ack_serial_input`. -/
def ackSerialInput (s : State) : State := {s with printed := s.printed++[.ack]}

/-- `cancel_response`. -/
def cancelResponse (s : State) : State := {s with printed := s.printed++[.cancel]}

/-- `coap_send_request`, and the lock that is taken if the request is accepted. -/
def sendRequest (sending : Sending) (s : State) (payload : List UInt8)
    (block1 : Option (ℕ×Bool×ℕ)) : State×Bool :=
  if sending.accepts=true then
    ({s with
      requests := s.requests++[⟨s.ep,payload,block1⟩]
      coapCallbackInUse := timedUnlockLock sending.now s.coapCallbackInUse},true)
  else (s,false)

/-- `process_task_resp_send_status`. The status is encoded at the beginning of
`msg_buf`, also while a packet is being put together there. -/
def processTaskRespSendStatus (env : Env D) (sending : Sending) (s : State) (status : ℕ) :
    State×Bool :=
  if s.coapCallbackInUse.locked=true then (s,false)
  else
    let enc := nanocborEncoderInit coapMaxChunkSize
    let bytes := env.nanocbor.uintHead status
    let s := {s with msgBuf := overwrite s.msgBuf 0 (enc.emit bytes).stored}
    -- `NANOCBOR_CHECK` returns its negative result as a truth value
    if env.nanocbor.result (enc.fits bytes)<0 then (s,true)
    else sendRequest sending s (s.msgBuf.take (enc.emit bytes).len) none

/-- The header that `coap_set_header_block1` is called for: number, more flag
and size; none if it is not set. -/
def coapBlock1 (env : Env D) (i n : ℕ) : Option (ℕ×Bool×ℕ) :=
  let coapBlock1More := decide ((i+1)%(ulongMax+1)≠n)
  if env.coapSetHeaderBlock1 i coapBlock1More 256=true then some (i,coapBlock1More,256) else none

/-- `process_task_resp_send_success`; that the block header is not set is only
logged. -/
def processTaskRespSendSuccess (env : Env D) (sending : Sending) (s : State) (i n len : ℕ) :
    State×Bool :=
  if s.coapCallbackInUse.locked=true then (s,false)
  else sendRequest sending s (s.msgBuf.take len) (coapBlock1 env i n)

end Sending

section Lines

/-- The address and the status of `<target>|<n>|<status>`, for a target of the
given length. The address is left in `ep` also if there is no status. -/
def parseResp1 (env : Env D) (s : State) (data : List UInt8) (length : ℕ) : State×Option ℕ :=
  let (converted,ipaddr) := env.uiplibIp6addrconv (data.take length) s.ep
  let s := {s with ep := ipaddr}
  if converted=false then (s,none)
  else
    let (_,sep2) := strtoul (data.drop (length+1))
    if sep2.headD 0≠serialSep then (s,none)
    else (s,some (env.pyroutelib3Status (strtoul (sep2.drop 1)).1))

/-- `process_task_resp1`. There is no result when the target, which is copied
by its own length, leaves no room for a terminator in `uip_buffer`. -/
def processTaskResp1 (env : Env D) (sending : Sending) (s : State) (data : List UInt8) :
    Option (State×Bool) :=
  match strchr data serialSep with
  | none => some (s,false)
  | some length =>
    if uiplibIpv6MaxStrLen≤length then none
    else match parseResp1 env s data length with
      | (s,none) => some (s,false)
      | (s,some status) => some (processTaskRespSendStatus env sending s status)

/-- What a line says about its place: `<i>/<n>|<j>/<m>`. -/
structure Place where
  /-- Number of the packet. -/
  i : ℕ
  /-- Number of packets. -/
  n : ℕ
  /-- Number of the line within the packet. -/
  j : ℕ
  /-- Number of lines of the packet. -/
  m : ℕ
  deriving DecidableEq

/-- A number that has to end at the given character. -/
def numberBefore (c : UInt8) (data : List UInt8) : Option (ℕ×List UInt8) :=
  let (v,sep) := strtoul data
  if sep.headD 0≠c then none else some (v,sep.drop 1)

/-- The first part of `process_task_resp2`: the place, and the encoded bytes. -/
def parseResp2 (data : List UInt8) : Option (Place×List UInt8) := do
  let (i,data) ← numberBefore slash data
  let (n,data) ← numberBefore serialSep data
  let (j,data) ← numberBefore slash data
  let (m,data) ← numberBefore serialSep data
  return (⟨i,n,j,m⟩,data)

/-- The part of a packet that a line carries, decoded behind what there is. -/
def decodePart (s : State) (source : List UInt8) : Decoded :=
  base64Decode source (coapMaxChunkSize-s.msgBufOffset)

/-- `base64_decode` into `msg_buf`, and the offset behind the part. -/
def storePart (s : State) (part : Decoded) : State := {s with
  msgBuf := overwrite s.msgBuf s.msgBufOffset part.stored
  msgBufOffset := if part.ok=true then s.msgBufOffset+part.outLen else s.msgBufOffset}

/-- The line is the last one of its packet. -/
def Place.last (p : Place) : Bool := decide ((p.j+1)%(ulongMax+1)=p.m)

/-- The end of `process_task_resp2`, once the part is stored. -/
def continuePacket (env : Env D) (sending : Sending) (s : State) (place : Place) : State×Bool :=
  if place.last=true then
    let (s,r) := processTaskRespSendSuccess env sending s place.i place.n s.msgBufOffset
    ({s with msgBufOffset := 0},r)
  else (ackSerialInput s,true)

/-- `process_task_resp2`. -/
def processTaskResp2 (env : Env D) (sending : Sending) (s : State) (data : List UInt8) :
    State×Bool :=
  match parseResp2 data with
  | none => (s,false)
  | some (place,source) =>
    let part := decodePart s source
    if part.ok=false then (storePart s part,false)
    else continuePacket env sending (storePart s part) place

/-- "stats". -/
def statsAction : List UInt8 := [0x73,0x74,0x61,0x74,0x73]

/-- "resp1". -/
def resp1Action : List UInt8 := [0x72,0x65,0x73,0x70,0x31]

/-- "resp2". -/
def resp2Action : List UInt8 := [0x72,0x65,0x73,0x70,0x32]

/-- The rest of the data behind an action and a separator. -/
def actionData (action data : List UInt8) : Option (List UInt8) :=
  if matchAction data (action++[serialSep])=true then some (data.drop (action.length+1)) else none

/-- What a line asks for. -/
inductive Action where
  /-- New statistics. -/
  | stats (data : List UInt8)
  /-- A status. -/
  | resp1 (data : List UInt8)
  /-- A part of a packet. -/
  | resp2 (data : List UInt8)
  /-- None of these. -/
  | unknown
  deriving DecidableEq

/-- The action in the data behind the first separator. -/
def actionOf (data : List UInt8) : Action :=
  match actionData statsAction data,actionData resp1Action data,actionData resp2Action data with
  | some data,_,_ => .stats data
  | none,some data,_ => .resp1 data
  | none,none,some data => .resp2 data
  | none,none,none => .unknown

/-- The action of a line, if it begins with the separator. -/
def lineAction (line : List UInt8) : Option Action :=
  let data := cString line
  if matchAction data [serialSep]=true then some (actionOf (data.drop 1)) else none

/-- Ack a line for which no message was sent. -/
def ackUnlessSent : State×Bool → State
  | (s,true) => s
  | (s,false) => ackSerialInput s

/-- What `routing_taskresp_process_serial_input` does with an action. -/
def processAction (env : Env D) (sending : Sending) (s : State) : Action → Option State
  | .stats data => some (ackSerialInput (processTaskStats env s data))
  | .resp1 data => (processTaskResp1 env sending s data).map ackUnlessSent
  | .resp2 data => some (ackUnlessSent (processTaskResp2 env sending s data))
  | .unknown => some (ackSerialInput s)

/-- `routing_taskresp_process_serial_input`. -/
def routingTaskrespProcessSerialInput (env : Env D) (sending : Sending) (s : State)
    (line : List UInt8) : Option State :=
  match lineAction line with
  | none => some s
  | some action => processAction env sending s action

end Lines

section Callback

/-- `coap_callback_request_state_t`, as far as the callback looks at it. -/
inductive RequestStatus where
  /-- `COAP_REQUEST_STATUS_RESPONSE`, with the code of the response. -/
  | response (code : UInt8)
  /-- `COAP_REQUEST_STATUS_FINISHED`. -/
  | finished
  /-- Any other status. -/
  | failed
  deriving DecidableEq

/-- `BAD_REQUEST_4_00`. -/
def badRequest : UInt8 := 128

/-- `send_callback`. -/
def sendCallback (s : State) : RequestStatus → State
  | .response code => if code=badRequest then cancelResponse s else s
  | .finished | .failed =>
    ackSerialInput {s with coapCallbackInUse := timedUnlockUnlock s.coapCallbackInUse}

end Callback

/-- Duration of `coap_callback_in_use`, with the ticks of a second. -/
def responseTimeout (clockSecond : ℕ) : ℕ := 1*60*clockSecond

/-- The data after `routing_taskresp_init`, in zero-initialised memory. -/
def routingTaskrespInit (clockSecond : ℕ) : State where
  ep := .replicate 16 0
  coapCallbackInUse := timedUnlockInit (responseTimeout clockSecond)
  msgBuf := .replicate coapMaxChunkSize 0
  msgBufOffset := 0
  routingStats := ⟨0,0,0,0⟩
  printed := []
  requests := []

end TrustAlloc.TaskResponse
