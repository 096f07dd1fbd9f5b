import TrustAlloc.CborReading
import TrustAlloc.ChallengeSolving
import TrustAlloc.TaskLines

/-!
# The round of a challenge

A challenge goes from a node to an edge, over the serial line to a solver, and
its response comes back to the node, through four programs and as many formats.
The node accepts it exactly if the challenge fits its buffer and the response is
not longer than a pointer.
-/

namespace TrustAlloc.ChallengeRounds

open Base64 Cbor CborCodec CertificateDecoding Certificates ChallengeResponse ChallengeSolving
open ClientLines Decoding EdgeInfo MqttPublish RouteChunks TaskLines
open TaskResponse (Message Sending coapMaxChunkSize serialSep)

variable {C D T : Type}

section Challenge

/-- `nanocbor_fmt_challenge`, with what it leaves in the buffer. -/
def fmtChallenge (N : Nanocbor) (bufLen : ℕ) (c : Challenge) : Except ℤ Encoder := do
  let enc ← emitCheck N (nanocborEncoderInit bufLen) (N.arrayHead 3)
  let enc ← emitCheck N enc (N.uintHead c.difficulty.toNat)
  let enc ← emitCheck N (enc.emit (N.bstrHead 32)) c.data.toList
  emitCheck N enc (N.uintHead c.maxDurationSecs.toNat)

/-- Its result is the length of that. -/
theorem nanocborFmtChallenge_eq (N : Nanocbor) (bufLen : ℕ) (c : Challenge) :
    nanocborFmtChallenge N bufLen c=match fmtChallenge N bufLen c with
      | .ok enc => (enc.len : ℤ)
      | .error err => err := rfl

/-- The payload of the request of `periodic_action`, if it makes one. -/
def challengePayload (N : Nanocbor) (c : Challenge) : Option (List UInt8) :=
  match fmtChallenge N msgBufSize c with
  | .ok enc =>
    if enc.len=0 ∨ msgBufSize < enc.len then none else some (enc.stored.take enc.len)
  | .error _ => none

/-- A challenge as an item. -/
def challengeItem (c : Challenge) : Item :=
  .array [.uint c.difficulty.toNat,.bytes c.data.toList,.uint c.maxDurationSecs.toNat]

/-- Its numbers fit. -/
theorem fits_challengeItem (c : Challenge) : Fits (challengeItem c) := by
  have hdifficulty := c.difficulty.toNat_lt
  have hduration := c.maxDurationSecs.toNat_lt
  have hdata : c.data.toList.length < 2^64 := by
    rw [Vector.length_toList]
    decide
  exact .row (show 3 < 2^64 by decide) ⟨.uint (by omega),.bytes hdata,.uint (by omega)⟩

/-- Its length depends on the two numbers. -/
theorem length_challengeItem (c : Challenge) : (encode (challengeItem c)).length=
    35+headLength c.difficulty.toNat+headLength c.maxDurationSecs.toNat := by
  have hthree : headLength 3=1 := rfl
  have hdata : headLength 32=2 := rfl
  simp only [challengeItem,encode,encodeItems,uintHead,bytesHead,arrayHead,List.length_append,
    length_head,Vector.length_toList,List.length_cons,List.length_nil,hthree,hdata]
  omega

/-- The challenge is written as that item. -/
theorem fmtChallenge_eq {N : Nanocbor} (hN : StandardHeads N) (c : Challenge) (bufLen : ℕ) :
    ((encode (challengeItem c)).length≤ bufLen → fmtChallenge N bufLen c=
      .ok ⟨bufLen,(encode (challengeItem c)).length,encode (challengeItem c)⟩) ∧
    (bufLen < (encode (challengeItem c)).length → ∃ e, e<0 ∧ fmtChallenge N bufLen c=.error e) := by
  have hlast := writes_emit hN (N.uintHead c.maxDurationSecs.toNat)
  have hdata := writes_put hN (N.bstrHead 32) c.data.toList hlast (by
    have hlong : (N.bstrHead 32).length=2 := by
      rw [hN.bstrHead,bytesHead,length_head]
      rfl
    rw [hlong,Vector.length_toList]
    omega)
  have hall := (writes_emit hN (N.arrayHead 3)).bind
    ((writes_emit hN (N.uintHead c.difficulty.toNat)).bind hdata)
  have hbytes : N.arrayHead 3++(N.uintHead c.difficulty.toNat++(N.bstrHead 32++(c.data.toList++
      N.uintHead c.maxDurationSecs.toNat)))=encode (challengeItem c) := by
    simp only [hN.arrayHead,hN.uintHead,hN.bstrHead,challengeItem,encode,encodeItems,
      Vector.length_toList,List.append_assoc,List.append_nil]
    rfl
  rw [hbytes] at hall
  have hstart := hall (nanocborEncoderInit bufLen) (Nat.zero_le _)
  simp only [nanocborEncoderInit,List.length_nil,Nat.zero_add,List.nil_append] at hstart
  exact hstart

/-- A challenge is posted as that item if its two numbers leave room for it. -/
theorem challengePayload_eq {N : Nanocbor} (hN : StandardHeads N) (c : Challenge) :
    challengePayload N c=
      if headLength c.difficulty.toNat+headLength c.maxDurationSecs.toNat≤4 then
        some (encode (challengeItem c))
      else none := by
  have hsize : msgBufSize=39 := rfl
  have hlength := length_challengeItem c
  obtain ⟨hfits,hmisfit⟩ := fmtChallenge_eq hN c msgBufSize
  unfold challengePayload
  split_ifs with hroom
  · rw [hfits (by omega)]
    dsimp only
    rw [if_neg (by omega),List.take_length]
  · obtain ⟨e,_,he⟩ := hmisfit (by omega)
    rw [he]

end Challenge

section Edge

open ChallengeTaskResponse (State crTaskrespProcessSerialInput processTaskResp)

variable {env : ChallengeTaskResponse.Env D} {sending : Sending} {s : State} {a : IpAddr}
  {dest : AddressText} {bytes : List UInt8}

/-- `process_serial_message` for a line, as far as the application is concerned. -/
def edgeTakes (env : ChallengeTaskResponse.Env D) (names : List (List UInt8)) (sending : Sending)
    (s : State) (line : List UInt8) : Option State :=
  match processSerialMessage names line with
  | .app name data =>
    if name=challengeResponseApplicationName then crTaskrespProcessSerialInput env sending s data
    else some s
  | _ => some s

/-- The edge can send: its lock is free, its buffer has its size and the next
request is accepted. -/
structure CanSend (sending : Sending) (s : State) : Prop where
  /-- The lock. -/
  free : s.coapCallbackInUse.locked=false
  /-- The buffer. -/
  size : s.msgBuf.length=coapMaxChunkSize
  /-- The request. -/
  accepts : sending.accepts=true

/-- A result is sent to its destination as it is, if there is room for it and
its padding. -/
theorem processTaskResp_result (h : CanSend sending s)
    (haddress : env.uiplibIp6addrconv dest.text s.ep=(true,a)) (hbytes : bytes≠[]) :
    ∃ s' r, processTaskResp env sending s (dest.text++serialSep::b64encode bytes)=some (s',r) ∧
      s'.requests=s.requests++
        if (bytes.length+2)/3*3≤ coapMaxChunkSize then [⟨a,bytes,none⟩] else [] := by
  have htarget : ChallengeTaskResponse.parseTarget env s dest.text=({s with ep := a},true) := by
    rw [ChallengeTaskResponse.parseTarget,haddress]
  unfold processTaskResp
  rw [strchr_plain dest.plain]
  dsimp only
  rw [if_neg (Nat.not_le.mpr dest.short),List.take_left,drop_plain,htarget]
  dsimp only [ChallengeTaskResponse.decodeResult]
  by_cases hroom : (bytes.length+2)/3*3≤ coapMaxChunkSize
  · obtain ⟨hok,hdecoded,hlen⟩ := base64Decode_b64encode hbytes hroom
    have hstored : (base64Decode (b64encode bytes) coapMaxChunkSize).outLen≤
        (base64Decode (b64encode bytes) coapMaxChunkSize).stored.length := by
      have htake := congrArg List.length hdecoded
      rw [Decoded.bytes,List.length_take] at htake
      omega
    have hpayload : (Keystore.overwrite s.msgBuf 0
        (base64Decode (b64encode bytes) coapMaxChunkSize).stored).take bytes.length=bytes := by
      have htake := TaskPackets.take_overwrite (Nat.zero_le s.msgBuf.length) hstored
      rw [Nat.zero_add,List.take_zero,List.nil_append,hlen] at htake
      rw [htake,←hlen]
      exact hdecoded
    rw [if_pos hroom,if_pos hok,hlen]
    dsimp only [ChallengeTaskResponse.processTaskRespSendResult]
    rw [if_neg (by rw [h.free]; decide),if_pos h.accepts,hpayload]
    exact ⟨_,_,rfl,rfl⟩
  · rw [if_neg hroom,base64Decode_b64encode_full (Nat.not_le.mp hroom),if_neg (by decide)]
    exact ⟨_,_,rfl,(List.append_nil _).symm⟩

/-- So is the result in a line of the client. -/
theorem edgeTakes_result {names : List (List UInt8)}
    (hname : Offered names challengeResponseApplicationName) (h : CanSend sending s)
    (haddress : env.uiplibIp6addrconv dest.text s.ep=(true,a)) (hbytes : bytes≠[]) :
    ∃ s', edgeTakes env names sending s (applicationLine challengeResponseApplicationName
        (applicationSerialApp++(ChallengeMessage.result dest bytes).data))=some s' ∧
      s'.requests=s.requests++
        if (bytes.length+2)/3*3≤ coapMaxChunkSize then [⟨a,bytes,none⟩] else [] := by
  obtain ⟨s',r,hresp,hrequests⟩ := processTaskResp_result h haddress hbytes
  unfold edgeTakes
  rw [processSerialMessage_app hname]
  dsimp only
  rw [if_pos rfl,crTaskrespProcessSerialInput,lineAction_challenge]
  dsimp only [ChallengeTaskResponse.processAction]
  rw [hresp]
  cases r with
  | true => exact ⟨_,rfl,hrequests⟩
  | false => exact ⟨_,rfl,hrequests⟩

end Edge

section Round

/-- The programs that a challenge goes through. -/
structure Programs (D C T : Type) where
  /-- The CBOR emitter of the node. -/
  nanocbor : Nanocbor
  /-- Its CBOR decoder. -/
  cbor : PublishDecoder D
  /-- Its SHA-256. -/
  sha : Sha256 C
  /-- `hashlib.sha256`. -/
  sha256 : List UInt8 → Vector UInt8 32
  /-- Texts of addresses and times. -/
  texts : TextEnv T
  /-- `str` of an address. -/
  str : IpAddr → AddressText
  /-- `cbor2.loads`. -/
  loads : List UInt8 → Option Item
  /-- `cbor2.encoder.dumps`. -/
  dumps : Item → Option (List UInt8)
  /-- What the edge is built against. -/
  edge : ChallengeTaskResponse.Env D

/-- What a round meets. -/
structure Meeting (T : Type) where
  /-- The applications of the edge. -/
  names : List (List UInt8)
  /-- The names that are registered at the bridge. -/
  registered : List UInt8 → Bool
  /-- When the bridge reads the task. -/
  now : T
  /-- The seconds that the solver has taken at the beginning of a round. -/
  elapsed : ℕ → ℚ
  /-- How many rounds are looked at. -/
  fuel : ℕ
  /-- The seconds in the end, rounded up. -/
  duration : ℕ
  /-- What the request of the edge meets. -/
  sending : Sending
  /-- The edge. -/
  edge : ChallengeTaskResponse.State

variable (p : Programs D C T) (w : Meeting T)

/-- `(difficulty, data, max_duration)` of a payload. -/
def taskOf : Item → Option (ℕ×List UInt8×ℕ)
  | .array [.uint difficulty,.bytes data,.uint maxDuration] => some (difficulty,data,maxDuration)
  | _ => none

/-- `_task_runner` on these. -/
def runTask (task : ℕ×List UInt8×ℕ) : Option (List UInt8×ℕ) :=
  (search (fun k => decide ((task.2.2 : ℚ)≤w.elapsed k)) (suitable p.sha256 task.1 task.2.1)
    w.fuel 0).map fun out => (if out.1=true then [] else prefixBytes out.2,w.duration)

/-- The client from `receive` to `_write_task_result`: the line with the result. -/
def respond (task : TaskLines.Task T) : Option (List UInt8) := do
  let payload ← p.loads task.payload
  let numbers ← taskOf payload
  let response ← runTask p w numbers
  let bytes ← p.dumps (responseItem response)
  return applicationLine challengeResponseApplicationName
    (applicationSerialApp++(ChallengeMessage.result (p.str task.src) bytes).data)

/-- A round: the request with which the edge answers the challenge of a node. -/
def round (c : Challenge) (a : IpAddr) : Option Message := do
  let payload ← challengePayload p.nanocbor c
  let (name,task) ← delivered p.texts w.registered w.now
    (taskLine p.texts challengeResponseApplicationName a payload)
  if name≠challengeResponseApplicationName then none
  else do
    let line ← respond p w task
    let edge ← edgeTakes p.edge w.names w.sending w.edge line
    (edge.requests.drop w.edge.requests.length).head?

/-- The node gets a response, and accepts it. -/
def Answered (c : Challenge) (a : IpAddr) : Prop :=
  ∃ m, round p w c a=some m ∧ m.target=a ∧ Accepted p.cbor p.sha c m.payload

/-- The programs do what they are documented to do. -/
structure Programs.Lawful (p : Programs D C T) (At : D → Option ℕ → List UInt8 → Prop)
    (Absorbed : C → List UInt8 → Prop) : Prop where
  /-- Items are emitted in the shortest form. -/
  heads : StandardHeads p.nanocbor
  /-- They are decoded. -/
  decoder : LawfulResponseDecoder p.cbor At
  /-- Both sides have the same hash function. -/
  hash : LawfulSha256 p.sha p.sha256 Absorbed
  /-- It succeeds. -/
  succeeds : Succeeds p.sha
  /-- Addresses and times are read as they were printed. -/
  texts : p.texts.Lawful
  /-- So are addresses on the way back. -/
  addresses : ∀ a old, p.edge.uiplibIp6addrconv (p.str a).text old=(true,a)
  /-- Items are loaded. -/
  loads : ReadsBack p.loads
  /-- They are dumped. -/
  dumps : CanonicalDumps p.dumps

/-- Nothing stands in the way of a round: application and client are there, the
edge can send, and the search of the solver ends. -/
structure Meeting.Ready (p : Programs D C T) (w : Meeting T) (c : Challenge) (out : Bool×ℕ) :
    Prop where
  /-- The edge has the application. -/
  offered : Offered w.names challengeResponseApplicationName
  /-- The bridge has its client. -/
  registered : w.registered challengeResponseApplicationName=true
  /-- The edge can send. -/
  canSend : CanSend w.sending w.edge
  /-- The search has given up or not, with this number. -/
  ended : search (fun k => decide ((c.maxDurationSecs.toNat : ℚ)≤w.elapsed k))
    (suitable p.sha256 c.difficulty.toNat c.data.toList) w.fuel 0=some out
  /-- The duration is a number of 32 bits. -/
  duration : w.duration < 2^32

/-- The number whose bytes are sent. After giving up there are none, as for zero. -/
def answerNumber (out : Bool×ℕ) : ℕ := if out.1=true then 0 else out.2

variable {p : Programs D C T} {w : Meeting T} {At : D → Option ℕ → List UInt8 → Prop}
  {Absorbed : C → List UInt8 → Prop} {c : Challenge} {out : Bool×ℕ}

/-- The solver answers with that number. -/
theorem runTask_eq (hw : w.Ready p c out) :
    runTask p w (c.difficulty.toNat,c.data.toList,c.maxDurationSecs.toNat)=
      some (prefixBytes (answerNumber out),w.duration) := by
  have hzero : prefixBytes 0=[] := List.eq_nil_of_length_eq_zero (by simp)
  unfold runTask
  dsimp only
  rw [hw.ended,Option.map_some,answerNumber]
  split_ifs
  · rw [hzero]
  · rfl

/-- The line with which the client answers. -/
theorem respond_eq (hp : p.Lawful At Absorbed) (hw : w.Ready p c out) (now : T)
    (a : IpAddr) : respond p w ⟨now,a,encode (challengeItem c)⟩=
      (p.dumps (responseItem (prefixBytes (answerNumber out),w.duration))).map fun bytes =>
        applicationLine challengeResponseApplicationName
          (applicationSerialApp++(ChallengeMessage.result (p.str a) bytes).data) := by
  unfold respond
  dsimp only
  rw [hp.loads _ (fits_challengeItem c)]
  simp only [challengeItem,taskOf,Option.bind_eq_bind,Option.bind_some,runTask_eq hw]
  cases p.dumps (responseItem (prefixBytes (answerNumber out),w.duration)) <;> rfl

/-- A response is not empty. -/
theorem ne_nil_of_dumps (hp : p.Lawful At Absorbed) {response : List UInt8×ℕ}
    {bytes : List UInt8} (hduration : response.2 < 2^64)
    (h : p.dumps (responseItem response)=some bytes) : bytes≠[] := by
  rw [dumps_eq hp.dumps (length_of_dumps hp.dumps h) hduration] at h
  cases h
  exact List.append_ne_nil_of_left_ne_nil (List.ne_nil_of_length_pos (by
    rw [arrayHead,length_head]
    exact headLength_pos 2)) _

/-- What the request of a round carries. -/
theorem round_eq (hp : p.Lawful At Absorbed) (hw : w.Ready p c out) (a : IpAddr) :
    round p w c a=
      if headLength c.difficulty.toNat+headLength c.maxDurationSecs.toNat≤4 then
        (p.dumps (responseItem (prefixBytes (answerNumber out),w.duration))).bind fun bytes =>
          if (bytes.length+2)/3*3≤ coapMaxChunkSize then some ⟨a,bytes,none⟩ else none
      else none := by
  have hword : Word challengeResponseApplicationName := by decide
  have hdelivered := delivered_taskLine hp.texts hword hw.registered w.now a
    (encode (challengeItem c))
  unfold round
  rw [challengePayload_eq hp.heads]
  split_ifs with hroom
  · simp only [Option.bind_eq_bind,Option.bind_some,hdelivered,respond_eq hp hw]
    rw [if_neg (by simp)]
    cases hdumps : p.dumps (responseItem (prefixBytes (answerNumber out),w.duration)) with
    | none => rfl
    | some bytes =>
      obtain ⟨s',hs',hrequests⟩ := edgeTakes_result hw.offered hw.canSend
        (hp.addresses a w.edge.ep) (ne_nil_of_dumps hp (hw.duration.trans (by decide)) hdumps)
      simp only [Option.map_some,Option.bind_some,hs',hrequests,List.drop_left]
      split_ifs <;> rfl
  · rfl

/-- A number that the search has gone past was not suitable. -/
theorem search_skipped {expired found : ℕ → Bool} {fuel start : ℕ}
    (h : search expired found fuel start=some out) : ∀ k, start≤k → k < out.2 → found k=false := by
  induction fuel generalizing start with
  | zero => cases h
  | succ fuel ih =>
    rw [search] at h
    split_ifs at h with hexpired hfound
    · cases h
      exact fun k hstart hk => absurd hk (Nat.not_lt.mpr hstart)
    · cases h
      exact fun k hstart hk => absurd hk (Nat.not_lt.mpr hstart)
    · intro k hstart hk
      obtain rfl | hlater := Nat.eq_or_lt_of_le hstart
      · exact Bool.eq_false_iff.mpr hfound
      · exact ih h k hlater hk

/-- When the number that is sent is suitable: if the search has not given up, or
has given up before it has looked at zero. -/
theorem suitable_answerNumber_iff (hw : w.Ready p c out) :
    suitable p.sha256 c.difficulty.toNat c.data.toList (answerNumber out)=true ↔
      (out.1=true → out.2=0 ∧ suitable p.sha256 c.difficulty.toNat c.data.toList 0=true) := by
  have hended := hw.ended
  obtain ⟨gaveUp,n⟩ := out
  cases gaveUp with
  | false => exact iff_of_true (search_found hended).1 fun h => Bool.noConfusion h
  | true =>
    refine ⟨fun hzero _ => ⟨?_,hzero⟩,fun h => (h rfl).2⟩
    by_contra hpos
    have hskipped := search_skipped hended 0 (Nat.zero_le _) (Nat.pos_of_ne_zero hpos)
    exact Bool.false_ne_true (hskipped.symm.trans hzero)

/-- No digest has more zeros than bytes. -/
theorem le_of_checkResponse {P : Sha256 C} {cr : ResponseData} (h : checkResponse P c cr=true) :
    c.difficulty.toNat≤32 := by
  have hzeros := (Bool.and_eq_true_iff.mp h).2
  by_contra hmore
  rw [checkFirstNZeros,if_pos (by rw [Vector.length_toList]; omega)] at hzeros
  exact Bool.false_ne_true hzeros

/-- The node accepts the bytes of a number if it can hold them and they are suitable. -/
theorem accepted_dumps_iff (hp : p.Lawful At Absorbed) {n duration : ℕ}
    (hduration : duration < 2^32) {bytes : List UInt8}
    (hbytes : p.dumps (responseItem (prefixBytes n,duration))=some bytes) :
    Accepted p.cbor p.sha c bytes ↔ n < 2^32 ∧ c.difficulty.toNat≤32 ∧
      suitable p.sha256 c.difficulty.toNat c.data.toList n=true := by
  constructor
  · rintro ⟨cr,hcr,haccepted⟩
    have hdifficulty := le_of_checkResponse haccepted
    have hlong : duration < 2^64 := hduration.trans (by decide)
    have hword := lt_of_accepted hp.decoder hp.dumps hlong ⟨bytes,hbytes,cr,hcr,haccepted⟩
    have hsame := dataPrefix_eq hp.decoder hp.dumps hlong hbytes hcr
    have hshort := length_dataPrefix_le hcr
    rw [checkResponse_eq hp.hash hp.succeeds hdifficulty
      (Nat.lt_of_le_of_lt hshort (by decide)),hsame] at haccepted
    exact ⟨hword,hdifficulty,haccepted⟩
  · rintro ⟨hword,hdifficulty,hsuitable⟩
    have hshort := (length_prefixBytes_le_four_iff n).mpr hword
    obtain ⟨payload,hdumps,hcr⟩ := nanocborGetChallengeResponse_dumps hp.decoder hp.dumps
      (prefixBytes n,duration) (by dsimp only; omega) hshort hduration
    obtain rfl := Option.some.inj (hbytes.symm.trans hdumps)
    refine ⟨_,hcr,?_⟩
    rw [checkResponse_eq hp.hash hp.succeeds hdifficulty (by dsimp only; omega)]
    exact hsuitable

/-- The bytes of a number of 32 bits fit in the buffer of the edge. -/
theorem length_dumps_le (hp : p.Lawful At Absorbed) {n duration : ℕ} (hn : n < 2^32)
    (hduration : duration < 2^32) {bytes : List UInt8}
    (hbytes : p.dumps (responseItem (prefixBytes n,duration))=some bytes) :
    bytes.length≤15 := by
  have hshort := (length_prefixBytes_le_four_iff n).mpr hn
  rw [dumps_eq hp.dumps (by dsimp only; omega) (by dsimp only; omega)] at hbytes
  obtain rfl := Option.some.inj hbytes
  have htwo : headLength 2=1 := rfl
  have hhead := headLength_le_succ (prefixBytes n).length
  have hlast := headLength_le hduration
  simp only [arrayHead,bytesHead,uintHead,List.length_append,length_head,List.length_nil,htwo]
  omega

/-- **The round of a challenge.** Whenever nothing stands in its way, the node
gets an answer that it accepts just if the numbers of its challenge fit in its
buffer, no more zeros are asked for than a digest has, and the number that the
solver has found is one of 32 bits. An answer after giving up is only accepted
when the solver has not looked at anything, and no bytes are suitable. -/
theorem answered_iff (hp : p.Lawful At Absorbed) (hw : w.Ready p c out) (a : IpAddr) :
    Answered p w c a ↔ (headLength c.difficulty.toNat+headLength c.maxDurationSecs.toNat≤4 ∧
      c.difficulty.toNat≤32) ∧ out.2 < 2^32 ∧
      (out.1=true → out.2=0 ∧ suitable p.sha256 c.difficulty.toNat c.data.toList 0=true) := by
  have hsuitable := suitable_answerNumber_iff hw
  constructor
  · rintro ⟨m,hround,_,haccepted⟩
    rw [round_eq hp hw] at hround
    obtain ⟨hroom,hround⟩ := Option.ite_none_right_eq_some.mp hround
    obtain ⟨bytes,hbytes,hround⟩ := Option.bind_eq_some_iff.mp hround
    obtain ⟨_,hm⟩ := Option.ite_none_right_eq_some.mp hround
    obtain rfl := Option.some.inj hm
    obtain ⟨hword,hdifficulty,hfound⟩ := (accepted_dumps_iff hp hw.duration hbytes).mp haccepted
    have hearly := hsuitable.mp hfound
    refine ⟨⟨hroom,hdifficulty⟩,?_,hearly⟩
    by_cases hgaveUp : out.1=true
    · rw [(hearly hgaveUp).1]
      decide
    · rwa [answerNumber,if_neg hgaveUp] at hword
  · rintro ⟨⟨hroom,hdifficulty⟩,hnumber,hearly⟩
    have hword : answerNumber out < 2^32 := by
      rw [answerNumber]
      split_ifs
      · decide
      · exact hnumber
    have hshort := (length_prefixBytes_le_four_iff _).mpr hword
    obtain ⟨bytes,hbytes,_⟩ := nanocborGetChallengeResponse_dumps hp.decoder hp.dumps
      (prefixBytes (answerNumber out),w.duration) (by dsimp only; omega) hshort hw.duration
    have hlength := length_dumps_le hp hword hw.duration hbytes
    have hsize : coapMaxChunkSize=256 := rfl
    refine ⟨⟨a,bytes,none⟩,?_,rfl,?_⟩
    · rw [round_eq hp hw,if_pos hroom,hbytes,Option.bind_some,if_pos (by omega)]
    · exact (accepted_dumps_iff hp hw.duration hbytes).mpr
        ⟨hword,hdifficulty,hsuitable.mpr hearly⟩

end Round

section Sample

/-- SHA-256, as far as it is known here, has no zeros for a smaller number. -/
theorem not_suitable_zeros {k : ℕ} (hk : k < 0x0164c4) :
    suitable sampleSha256 2 zerosChallenge.data.toList k=false := by
  have hfirst : prefixBytes k++zerosChallenge.data.toList≠
      [0x01,0x64,0xc4]++zerosChallenge.data.toList := by
    intro heq
    have hnumber := ofBigEndian_prefixBytes k
    rw [List.append_cancel_right heq] at hnumber
    exact hk.ne (hnumber.symm.trans (by decide))
  have hsecond : prefixBytes k++zerosChallenge.data.toList≠
      [0x01,0xf6,0x8a,0xad,0x30]++onesChallenge.data.toList := by
    intro heq
    have hlength := congrArg List.length heq
    have hshort := (length_prefixBytes_le_four_iff k).mpr (by omega)
    simp only [List.length_append,Vector.length_toList,List.length_cons,List.length_nil] at hlength
    omega
  rw [suitable,sampleSha256,if_neg hfirst,if_neg hsecond]
  decide

/-- How long an address is in such a text. -/
theorem length_colonHex_lt {bytes : List UInt8} (h : bytes≠[]) :
    (colonHex bytes).length < 2*bytes.length+(bytes.length+1)/2 := by
  induction bytes using colonHex.induct with
  | case1 a b c rest ih =>
    have hrest := ih (List.cons_ne_nil c rest)
    simp only [colonHex,List.length_append,List.length_cons,length_printHex] at hrest ⊢
    simp only [List.length_nil]
    omega
  | case2 bytes hshort =>
    have hpos := List.length_pos_of_ne_nil h
    rw [colonHex,length_printHex]
    · omega
    · exact hshort

/-- The text of an address. -/
def colonText (a : IpAddr) : AddressText where
  text := colonHex a.toList
  plain :=
    ⟨fun hsep => addressChar_ne (addressChar_colonHex _ _ hsep) rfl,
      fun hzero => absurd (addressChar_colonHex _ _ hzero) (by decide)⟩
  short := by
    have hne : a.toList≠[] :=
      List.ne_nil_of_length_pos (by rw [Vector.length_toList]; decide)
    have hlength := length_colonHex_lt hne
    rwa [Vector.length_toList] at hlength

/-- Programs that do what they are documented to do. -/
def samplePrograms : Programs Position (List UInt8) Unit where
  nanocbor := standardNanocbor.toNanocbor
  cbor := byteDecoder.toPublishDecoder
  sha := listSha256 sampleSha256
  sha256 := sampleSha256
  texts := sampleTextEnv
  str := colonText
  loads := readItem
  dumps := checkedEncode
  edge := ⟨byteDecoder.toNanocborDecoder,fun text old =>
    ((readColonHex text).isSome,(readColonHex text).getD old)⟩

/-- They do. -/
theorem samplePrograms_lawful :
    samplePrograms.Lawful Stands (fun ctx seen => ctx=seen) where
  heads := standardNanocbor_heads.toStandardHeads
  decoder := byteDecoder_response
  hash := listSha256_lawful sampleSha256
  succeeds := listSha256_succeeds sampleSha256
  texts := sampleTextEnv_lawful
  addresses a old := by
    change ((readColonHex (colonHex a.toList)).isSome,
      (readColonHex (colonHex a.toList)).getD old)=_
    rw [readColonHex_colonHex]
    rfl
  loads := readsBack_readItem
  dumps := checkedEncode_canonical

/-- Twenty seconds, and an edge with the application. -/
def sampleMeeting : Meeting Unit where
  names := [challengeResponseApplicationName]
  registered _ := true
  now := ()
  elapsed _ := 20
  fuel := 0x0164c5
  duration := 20
  sending := ⟨true,1⟩
  edge := ChallengeTaskResponse.crTaskrespInit 128

/-- The search in that time. -/
theorem search_zeros :
    search (fun k => decide ((zerosChallenge.maxDurationSecs.toNat : ℚ)≤ sampleMeeting.elapsed k))
      (suitable samplePrograms.sha256 zerosChallenge.difficulty.toNat zerosChallenge.data.toList)
      sampleMeeting.fuel 0=some (false,0x0164c4) := by
  have htime : ∀ k, k≤0x0164c4 →
      decide ((zerosChallenge.maxDurationSecs.toNat : ℚ)≤ sampleMeeting.elapsed k)=false := by
    intro k _
    refine decide_eq_false ?_
    change ¬((40 : ℕ) : ℚ)≤20
    norm_num
  have hfuel : 0x0164c4 < 0+sampleMeeting.fuel := by norm_num [sampleMeeting]
  exact search_eq (Nat.zero_le _) hfuel htime suitable_zeros fun k => not_suitable_zeros

/-- The solver finds three bytes for the challenge of zeros. -/
theorem sampleMeeting_ready :
    sampleMeeting.Ready samplePrograms zerosChallenge (false,0x0164c4) where
  offered := offered_challengeResponse
  registered := rfl
  canSend := ⟨rfl,List.length_replicate,rfl⟩
  ended := search_zeros
  duration := (by decide : 20 < 2^32)

/-- The node accepts its answer. -/
theorem answered_iff_zeros :
    Answered samplePrograms sampleMeeting zerosChallenge sampleSource :=
  (answered_iff samplePrograms_lawful sampleMeeting_ready sampleSource).mpr
    ⟨by decide,by decide,fun h => Bool.noConfusion h⟩

end Sample

end TrustAlloc.ChallengeRounds
