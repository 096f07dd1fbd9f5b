import TrustAlloc.Decoding
import TrustAlloc.NrfCrypto
import TrustAlloc.Timers
import TrustAlloc.TrustModels

/-!
# The challenge-response application on a node

The process of `challenge-response.c`: the edges with the capability are
challenged in turn, a callback tells what became of the request, the edge
posts its response, and two timers post events that the process takes later.
The CBOR library, the hash function, the random bytes and the trust model are
parameters. A record is kept of every challenge; no function reads it.
-/

namespace TrustAlloc.ChallengeResponse

open Certificates Decoding EdgeInfo NrfCrypto Pools Timers TrustModels

/-- `challenge_t`. -/
structure Challenge where
  /-- Random bytes. -/
  data : Vector UInt8 32
  /-- Zero bytes that the digest has to start with. -/
  difficulty : UInt8
  /-- Seconds within which to answer. -/
  maxDurationSecs : UInt32

/-- `challenge_response_t`, whose prefix carries its length. -/
structure ResponseData where
  /-- `data_prefix` and `data_length`. -/
  dataPrefix : List UInt8
  /-- Seconds that the edge has taken. -/
  durationSecs : UInt32

/-- `edge_challenger_t` without its list link. -/
structure EdgeChallenger (ne : ℕ) where
  /-- The challenged edge. -/
  edge : Fin ne
  /-- The last challenge. -/
  ch : Challenge
  /-- Moment at which the challenge was sent, or zero. -/
  generated : ℕ
  /-- Moment at which the last response arrived, or zero. -/
  received : ℕ

/-- What the application is built against. -/
structure Env (ne : ℕ) (ET CT D : Type) where
  /-- Policy of `memb_alloc` on `challengers_memb`. -/
  challengerAllocator : Allocator ne
  /-- What the trust model does with an outcome that counts. -/
  trust : Bool → ET × Option CT → ET × Option CT
  /-- The CBOR encoder. -/
  encoder : Nanocbor
  /-- The CBOR decoder. -/
  cbor : NanocborDecoder D
  /-- Size of a pointer, which is how long a prefix may be. -/
  sizeofPointer : ℕ
  /-- SHA-256. -/
  sha256 : List UInt8 → Vector UInt8 32
  /-- `CLOCK_SECOND`. -/
  clockSecond : ℕ
  /-- `CHALLENGE_DIFFICULTY`. -/
  challengeDifficulty : UInt8
  /-- `CHALLENGE_DURATION`. -/
  challengeDuration : UInt32
  /-- `CHALLENGE_PERIOD`. -/
  challengePeriod : ℕ
  /-- The static assertion of the source. -/
  duration_lt_period : challengeDuration.toNat*clockSecond<challengePeriod

section Messages

variable {D : Type}

/-- Emit bytes under `NANOCBOR_CHECK`. -/
def emitCheck (N : Nanocbor) (enc : Encoder) (bytes : List UInt8) : Except ℤ Encoder :=
  nanocborCheck (N.result (enc.fits bytes),enc.emit bytes)

/-- `nanocbor_fmt_challenge` into a buffer of the given size. The result of
emitting the head of the byte string is not looked at. -/
def nanocborFmtChallenge (N : Nanocbor) (bufLen : ℕ) (c : Challenge) : ℤ :=
  let done : Except ℤ Encoder := do
    let enc ← emitCheck N (nanocborEncoderInit bufLen) (N.arrayHead 3)
    let enc ← emitCheck N enc (N.uintHead c.difficulty.toNat)
    let enc ← emitCheck N (enc.emit (N.bstrHead 32)) c.data.toList
    emitCheck N enc (N.uintHead c.maxDurationSecs.toNat)
  match done with
  | .ok enc => enc.len
  | .error err => err

/-- `nanocbor_get_challenge_response`. -/
def nanocborGetChallengeResponse (cbor : NanocborDecoder D) (sizeofPointer : ℕ)
    (buf : List UInt8) : Except ℤ ResponseData := do
  let dec := cbor.init buf
  let arr ← nanocborCheck (cbor.enterArray dec)
  let (arr,data) ← nanocborCheck (cbor.getBstr arr)
  if sizeofPointer<data.length then throw nanocborErrOverflow
  let (arr,durationSecs) ← nanocborCheck (cbor.getUint32 arr)
  if cbor.atEnd arr=false then throw (-1)
  if cbor.atEnd (cbor.leaveContainer dec arr)=false then throw (-1)
  return ⟨data,durationSecs⟩

/-- Codes that the four calls of the hash function return. -/
structure Sha256Codes where
  /-- Code of `platform_sha256_init`. -/
  init : UInt32
  /-- Code of `platform_sha256_update` on the prefix. -/
  updatePrefix : UInt32
  /-- Code of `platform_sha256_update` on the challenge. -/
  updateData : UInt32
  /-- Code of `platform_sha256_finalise`. -/
  finalise : UInt32

/-- `sha256_hash_challenge_response`: the code that it returns. -/
def sha256HashChallengeResponse (codes : Sha256Codes) : UInt32 :=
  if platformCryptoSuccess codes.init=false then codes.init
  else if platformCryptoSuccess codes.updatePrefix=false then codes.updatePrefix
  else if platformCryptoSuccess codes.updateData=false then codes.updateData
  else codes.finalise

/-- `check_first_n_zeros`. -/
def checkFirstNZeros (data : List UInt8) (n : ℕ) : Bool :=
  if data.length<n then false else (data.take n).all fun b => decide (b=0)

end Messages

/-- `CHALLENGE_RESPONSE_APPLICATION_NAME`: "cr". -/
def challengeResponseApplicationName : List UInt8 := [0x63,0x72]

/-- Size of `msg_buf`. -/
def msgBufSize : ℕ := 1+(1+4)+(1+32)

/-- What has become of a challenge. -/
structure Record (ne : ℕ) where
  /-- The challenged edge. -/
  edge : Fin ne
  /-- Whether its submission was acknowledged with 2.05. -/
  acked : Bool
  /-- Timeouts and responses that have counted for the trust model. -/
  scores : ℕ

/-- The static data of `challenge-response.c`, the edge store, the posted
events, the clock and the records, newest first. -/
structure State (ne nc : ℕ) (ET CT : Type) where
  /-- The data of `edge-info.c`. -/
  edges : EdgeStore ne nc ET CT
  /-- The flag of `app_state`: some edge offers the application. -/
  running : Bool
  /-- `challengers_memb`. -/
  challengersMemb : Memb ne (EdgeChallenger ne)
  /-- `challengers`. -/
  challengers : List (Fin ne)
  /-- Address of `ep`, the edge that the last challenge was sent to. -/
  ep : IpAddr
  /-- `coap_callback_in_use`. -/
  coapCallbackInUse : TimedUnlock
  /-- `next_challenge`. -/
  nextChallenge : Option (Fin ne)
  /-- `challenge_timer`. -/
  challengeTimer : Timer
  /-- `challenge_response_timer`. -/
  challengeResponseTimer : Timer
  /-- Events of `challenge_timer` that are posted and not yet taken. -/
  challengePending : ℕ
  /-- Events of `challenge_response_timer` that are posted and not yet taken. -/
  responsePending : ℕ
  /-- Reading of the clock. -/
  clock : ℕ
  /-- What has become of the challenges. -/
  records : List (Record ne)

variable {ne nc : ℕ} {ET CT D : Type}

namespace State

variable (s : State ne nc ET CT)

/-- The challenger in a block. -/
abbrev challenger (c : Fin ne) : EdgeChallenger ne := s.challengersMemb.mem c

/-- Change one challenger in place. -/
def setChallenger (c : Fin ne) (v : EdgeChallenger ne) : State ne nc ET CT :=
  {s with challengersMemb := s.challengersMemb.set c v}

end State

/-- Ticks within which the challenge of a challenger is to be answered. -/
def durationTicks (env : Env ne ET CT D) (v : EdgeChallenger ne) : ℕ :=
  v.ch.maxDurationSecs.toNat*env.clockSecond

/-- Count one more outcome for the newest challenge of an edge. -/
def countScore (e : Fin ne) : List (Record ne) → List (Record ne)
  | [] => []
  | r::rs => if r.edge=e then {r with scores := r.scores+1}::rs else r::countScore e rs

/-- A timeout or a response that `tm_challenge_response_good` lets count. -/
def scores : ChallengeResponseInfo → Bool
  | .ack _ _ => false
  | info => (tmChallengeResponseGood info).2

/-- A call of `tm_update_challenge_response`, and the record of it. -/
def report (env : Env ne ET CT D) (e : Fin ne) (info : ChallengeResponseInfo)
    (s : State ne nc ET CT) : State ne nc ET CT := {s with
  edges := tmUpdateChallengeResponse env.trust challengeResponseApplicationName s.edges e info
  records := if scores info=true then countScore e s.records else s.records}

/-- `find_edge_challenger`. -/
def findEdgeChallenger (s : State ne nc ET CT) (e : Fin ne) : Option (Fin ne) :=
  s.challengers.find? fun c => decide ((s.challenger c).edge=e)

/-- `move_to_next_challenge`. -/
def moveToNextChallenge (s : State ne nc ET CT) : State ne nc ET CT := {s with
  nextChallenge := (s.nextChallenge.bind (listItemNext s.challengers)).or s.challengers.head?
  challengeResponseTimer := s.challengeResponseTimer.stop}

/-- `generate_challenge`, from the random bytes. -/
def generateChallenge (data : Vector UInt8 32) (difficulty : UInt8) (maxDurationSecs : UInt32) :
    Challenge := ⟨data,difficulty,maxDurationSecs⟩

/-- The response timer, set for the challenge under the cursor. A null cursor,
which would be dereferenced, leaves it alone. -/
def armResponseTimer (env : Env ne ET CT D) (now : ℕ) (s : State ne nc ET CT) : Timer :=
  match s.nextChallenge with
  | some c => .set now (durationTicks env (s.challenger c))
  | none => s.challengeResponseTimer

/-- What `send_callback` does for a status before it reports it. A response
with 2.05 is about the challenge that was sent the given number of challenges ago. -/
def noteStatus (env : Env ne ET CT D) (now : ℕ) (status : CoapRequestStatus) (code age : ℕ)
    (s : State ne nc ET CT) : State ne nc ET CT :=
  match status with
  | .response =>
    if code=content205 then {s with
      challengeResponseTimer := armResponseTimer env now s
      records := s.records.modify age fun r => {r with acked := true}}
    else s
  | .finished | .more | .timeout | .blockError =>
    {s with coapCallbackInUse := timedUnlockUnlock s.coapCallbackInUse}

/-- `send_callback`; the code is that of a response. -/
def sendCallback (env : Env ne ET CT D) (now : ℕ) (status : CoapRequestStatus) (code age : ℕ)
    (s : State ne nc ET CT) : State ne nc ET CT :=
  let s := noteStatus env now status code age s
  match edgeInfoFindAddr s.edges s.ep with
  | none => s
  | some e => report env e (.ack (if status=.response then code else noError) status) s

/-- No response has come since the challenge was sent. -/
def neverReceived (v : EdgeChallenger ne) : Bool := decide (v.received≤v.generated)

/-- The last response has come after the time for it. -/
def receivedLate (env : Env ne ET CT D) (v : EdgeChallenger ne) : Bool :=
  decide (v.generated+durationTicks env v<v.received)

/-- `challenge_response_timed_out`. -/
def challengeResponseTimedOut (env : Env ne ET CT D) (s : State ne nc ET CT) :
    State ne nc ET CT :=
  match s.nextChallenge with
  | none => s
  | some c =>
    let v := s.challenger c
    if v.generated≠0 ∧ (neverReceived v=true ∨ receivedLate env v=true) then
      (report env v.edge (.timeout (neverReceived v) (receivedLate env v)) s).setChallenger c
        {v with generated := 0,received := 0}
    else s

/-- `periodic_action`, from the random bytes of the challenge; the flag tells
whether the request is accepted. -/
def periodicAction (env : Env ne ET CT D) (now : ℕ) (data : Vector UInt8 32) (accepted : Bool)
    (s : State ne nc ET CT) : State ne nc ET CT :=
  if s.coapCallbackInUse.locked=true then s
  else
    let s := moveToNextChallenge s
    match s.nextChallenge with
    | none => s
    | some c =>
      let v := {s.challenger c with
        ch := generateChallenge data env.challengeDifficulty env.challengeDuration}
      let len := nanocborFmtChallenge env.encoder msgBufSize v.ch
      if len≤0 ∨ msgBufSize<len then s.setChallenger c v
      else
        let s := {s.setChallenger c {v with generated := now} with
          ep := (s.edges.edge v.edge).ep
          records := ⟨v.edge,false,0⟩::s.records}
        if accepted=true then
          {s with coapCallbackInUse := timedUnlockLock now s.coapCallbackInUse}
        else s

/-- A POST to the resource. -/
structure Post where
  /-- Address of `src_ep`. -/
  src : IpAddr
  /-- Payload of the message. -/
  payload : List UInt8
  /-- What the calls of the hash function return, if they are made. -/
  codes : Sha256Codes

/-- What `res_coap_cr_post_handler` finds out about a response that arrives
now at a challenger. -/
def judgeResponse (env : Env ne ET CT D) (received : ℕ) (p : Post) (v : EdgeChallenger ne) :
    ChallengeResponseInfo :=
  match nanocborGetChallengeResponse env.cbor env.sizeofPointer p.payload with
  | .error _ => .resp false false
  | .ok cr =>
    if platformCryptoSuccess (sha256HashChallengeResponse p.codes)=false then .resp false false
    else
      let digest := env.sha256 (cr.dataPrefix++v.ch.data.toList)
      .resp (checkFirstNZeros digest.toList v.ch.difficulty.toNat)
        (decide (durationTicks env v<received-v.generated))

/-- `res_coap_cr_post_handler`. -/
def resCoapCrPostHandler (env : Env ne ET CT D) (received : ℕ) (p : Post)
    (s : State ne nc ET CT) : State ne nc ET CT :=
  match edgeInfoFindAddr s.edges p.src with
  | none => s
  | some e =>
    match findEdgeChallenger s e with
    | none => report env e (.resp false false) s
    | some c =>
      let s := {s with challengeResponseTimer := s.challengeResponseTimer.stop}
      let s := s.setChallenger c {s.challenger c with received := received}
      report env e (judgeResponse env received p (s.challenger c)) s

/-- `app_state_edge_capability_add` and `app_state_edge_capability_remove`:
look again whether some edge offers the application. -/
def updateRunning (s : State ne nc ET CT) : State ne nc ET CT :=
  {s with running := edgeInfoHasActiveCapability s.edges challengeResponseApplicationName}

/-- The start of `edge_capability_add`: the timer is armed when some edge
begins to offer the application. -/
def noteAdd (env : Env ne ET CT D) (now : ℕ) (s : State ne nc ET CT) : State ne nc ET CT :=
  let started := !s.running && (updateRunning s).running
  {updateRunning s with
    challengeTimer := if started=true then .set now env.challengePeriod else s.challengeTimer}

/-- The start of `edge_capability_remove`: the timer is stopped when no edge
offers the application any more. -/
def noteRemove (s : State ne nc ET CT) : State ne nc ET CT :=
  let stopped := s.running && !(updateRunning s).running
  {updateRunning s with
    challengeTimer := if stopped=true then s.challengeTimer.stop else s.challengeTimer}

/-- Take a free block for a challenger of an edge and put it at the front. -/
def linkChallenger (e c : Fin ne) (s : State ne nc ET CT) : State ne nc ET CT :=
  let v := {s.challenger c with
    edge := e
    generated := 0
    received := 0}
  {s with
    challengersMemb := (s.challengersMemb.take c).set c v
    challengers := listPush s.challengers c}

/-- Take a challenger off the list and free its block. -/
def unlinkChallenger (c : Fin ne) (s : State ne nc ET CT) : State ne nc ET CT := {s with
  challengers := s.challengers.erase c
  challengersMemb := s.challengersMemb.free c}

/-- `edge_capability_add`. -/
def edgeCapabilityAdd (env : Env ne ET CT D) (now : ℕ) (e : Fin ne) (s : State ne nc ET CT) :
    State ne nc ET CT :=
  let s := noteAdd env now s
  match findEdgeChallenger s e with
  | some _ => s
  | none =>
    match env.challengerAllocator.pick s.challengersMemb.used with
    | none => s
    | some c =>
      let s := linkChallenger e c s
      if s.nextChallenge=none then moveToNextChallenge s else s

/-- `edge_capability_remove`. -/
def edgeCapabilityRemove (e : Fin ne) (s : State ne nc ET CT) : State ne nc ET CT :=
  let s := noteRemove s
  match findEdgeChallenger s e with
  | none => s
  | some c =>
    let s := if s.nextChallenge=some c then moveToNextChallenge s else s
    unlinkChallenger c s

/-- What can happen next, in any order. -/
inductive Action (ne nc : ℕ) (ET CT : Type) where
  /-- The event `pe_edge_capability_add` is taken. -/
  | capabilityAdd (e : Fin ne)
  /-- The event `pe_edge_capability_remove` is taken. -/
  | capabilityRemove (e : Fin ne)
  /-- `challenge_timer` expires, which posts an event. -/
  | challengeTimerExpires
  /-- `challenge_response_timer` expires, which posts an event. -/
  | responseTimerExpires
  /-- An event of `challenge_timer` is taken. -/
  | challengeEvent (data : Vector UInt8 32) (accepted : Bool)
  /-- An event of `challenge_response_timer` is taken. -/
  | responseEvent
  /-- The CoAP library calls back. -/
  | callback (status : CoapRequestStatus) (code age : ℕ)
  /-- A message arrives. -/
  | post (p : Post)
  /-- The timer of `coap_callback_in_use` expires. -/
  | coapExpires
  /-- Other processes change the edges. -/
  | edges (edges : EdgeStore ne nc ET CT)

/-- An action at a moment. -/
structure Op (ne nc : ℕ) (ET CT : Type) where
  /-- Reading of the clock. -/
  now : ℕ
  /-- What happens. -/
  action : Action ne nc ET CT

/-- An action of the application or of its surroundings. A timer that is not
due does not expire, and an event that was not posted is not taken. -/
def act (env : Env ne ET CT D) (now : ℕ) (s : State ne nc ET CT) :
    Action ne nc ET CT → State ne nc ET CT
  | .capabilityAdd e => edgeCapabilityAdd env now e s
  | .capabilityRemove e => edgeCapabilityRemove e s
  | .challengeTimerExpires =>
    if s.challengeTimer.Expired now then {s with
      challengeTimer := s.challengeTimer.stop
      challengePending := s.challengePending+1}
    else s
  | .responseTimerExpires =>
    if s.challengeResponseTimer.Expired now then {s with
      challengeResponseTimer := s.challengeResponseTimer.stop
      responsePending := s.responsePending+1}
    else s
  | .challengeEvent data accepted =>
    if s.challengePending=0 then s
    else
      let s := periodicAction env now data accepted
        {s with challengePending := s.challengePending-1}
      {s with challengeTimer := s.challengeTimer.reset}
  | .responseEvent =>
    if s.responsePending=0 then s
    else challengeResponseTimedOut env {s with responsePending := s.responsePending-1}
  | .callback status code age => sendCallback env now status code age s
  | .post p => resCoapCrPostHandler env now p s
  | .coapExpires =>
    if s.coapCallbackInUse.timer.Expired now then
      {s with coapCallbackInUse := timedUnlockUnlock s.coapCallbackInUse}
    else s
  | .edges edges => {s with edges := edges}

/-- One step: the clock goes on, and then something happens. -/
def step (env : Env ne ET CT D) (s : State ne nc ET CT) (op : Op ne nc ET CT) :
    State ne nc ET CT := act env op.now {s with clock := op.now} op.action

/-- The application after `init`, on memory that holds the given challengers. -/
def start (env : Env ne ET CT D) (edges : EdgeStore ne nc ET CT)
    (blocks : Fin ne → EdgeChallenger ne) : State ne nc ET CT where
  edges := edges
  running := false
  challengersMemb := ⟨fun _ => false,blocks⟩
  challengers := []
  ep := .replicate 16 0
  coapCallbackInUse := timedUnlockInit (1*60*env.clockSecond)
  nextChallenge := none
  challengeTimer := ⟨0,0,false⟩
  challengeResponseTimer := ⟨0,0,false⟩
  challengePending := 0
  responsePending := 0
  clock := 0
  records := []

section Sample

/-- Heads of CBOR items for values below 256. -/
def sampleEncoder : Nanocbor where
  arrayHead n := [0x80+n.toUInt8]
  uintHead n := if n<24 then [n.toUInt8] else [0x18,n.toUInt8]
  bstrHead n := if n<24 then [0x40+n.toUInt8] else [0x58,n.toUInt8]
  result fits := if fits=true then 0 else -3
  result_fits := by decide

/-- The digest of the prefix 01 64 c4 with a challenge of zeros. -/
def sampleDigest : Vector UInt8 32 := #v[0x00,0x00,0xb2,0xa0,0x96,0xdf,0x03,0x72,
  0xde,0x73,0x8b,0x7b,0x16,0xf7,0x2e,0x11,0x79,0xdd,0x43,0xf5,0x9d,0x94,0x91,0xb4,
  0x94,0x29,0xb5,0x3e,0x08,0xdc,0xaa,0x70]

/-- The defaults of the source with one tick a second; the trust model counts
outcomes, and only the sample digest is known. -/
def sampleEnv : Env 4 ℕ ℕ (List UInt8 × Option ℕ) where
  challengerAllocator := firstFit 4
  trust _ tm := (tm.1+1,tm.2)
  encoder := sampleEncoder
  cbor := sampleDecoder
  sizeofPointer := 4
  sha256 _ := sampleDigest
  clockSecond := 1
  challengeDifficulty := 2
  challengeDuration := 40
  challengePeriod := 120
  duration_lt_period := by decide

/-- No challenger has been in any block. -/
def sampleBlocks : Fin 4 → EdgeChallenger 4 :=
  fun _ => ⟨sampleFirst,⟨.replicate 32 0,0,0⟩,0,0⟩

/-- Both edges are known when the application starts on zeroed memory. -/
def sampleStart : State 4 3 ℕ ℕ :=
  start sampleEnv (sampleStore challengeResponseApplicationName) sampleBlocks

/-- The answer 01 64 c4 to a challenge of zeros, found in five seconds. -/
def sampleAnswer : List UInt8 := [0x82,0x43,0x01,0x64,0xc4,0x05]

/-- A message from the address of a repeated byte. -/
def samplePost (now : ℕ) (src : UInt8) (payload : List UInt8) : Op 4 3 ℕ ℕ :=
  ⟨now,.post ⟨sampleAddr src,payload,⟨0,0,0,0⟩⟩⟩

/-- The timer expires and its event is taken, which sends a challenge of zeros. -/
def sampleChallenge (now : ℕ) : List (Op 4 3 ℕ ℕ) :=
  [⟨now,.challengeTimerExpires⟩,⟨now,.challengeEvent (.replicate 32 0) true⟩]

/-- The challenge is acknowledged with 2.05, and the request is finished. -/
def sampleAck (now : ℕ) : List (Op 4 3 ℕ ℕ) :=
  [⟨now,.callback .response content205 0⟩,⟨now,.callback .finished 0 0⟩]

end Sample

end TrustAlloc.ChallengeResponse
