import Mathlib.Data.List.TakeWhile
import TrustAlloc.CertificateCodec
import TrustAlloc.MqttOverCoap
import TrustAlloc.MqttTopics

/-!
# The topics that an edge publishes

The publishing side of `capability.c`. One buffer begins with the namespace and
the identity of the edge, written once, and each publish prints its action
behind them and hands the whole text on. Names of any length are printed, so a
text may be cut off; then nothing is published. The stack's addresses and what
becomes of a request are chosen by the run.
-/

namespace TrustAlloc.CapabilityTopics

open Certificates CertificateCodec EdgeInfo MqttOverCoap MqttPublish MqttTopics Runs

section Printing

/-- The bytes of a C string, up to its terminator. -/
def cString (mem : List UInt8) : List UInt8 := mem.takeWhile fun b => decide (b≠0)

/-- `snprintf` of a text into a buffer, from an offset on and with some room:
what fits in front of the terminator is written, and the result counts it all. -/
def snprintf (mem : List UInt8) (offset room : ℕ) (text : List UInt8) : List UInt8×ℕ :=
  if room=0 then (mem,text.length)
  else
    let written := text.take (room-1)++[0]
    (mem.take offset++(written++mem.drop (offset+written.length)),text.length)

/-- A lowercase hex digit. -/
def hexDigit (v : UInt8) : UInt8 := if v < 10 then 0x30+v else 0x61+(v-10)

/-- `"%02x"` on a byte. -/
def hexByte (b : UInt8) : List UInt8 := [hexDigit (b>>>4),hexDigit (b&&&0xF)]

/-- `"%02x"` on the eight bytes of an identity. -/
def identityText (eui64 : Eui64) : List UInt8 := eui64.toList.flatMap hexByte

/-- `snprintf` stays in a buffer with the room that it is given. -/
theorem length_snprintf {mem : List UInt8} {offset room : ℕ} (h : offset+room≤ mem.length)
    (text : List UInt8) : (snprintf mem offset room text).1.length=mem.length := by
  unfold snprintf
  split
  · rfl
  · simp only [List.length_append,List.length_take,List.length_drop,List.length_singleton]
    omega

/-- `snprintf` leaves what is in front of its offset. -/
theorem take_snprintf {mem : List UInt8} {offset room : ℕ} (h : offset≤ mem.length)
    (text : List UInt8) : (snprintf mem offset room text).1.take offset=mem.take offset := by
  unfold snprintf
  split
  · rfl
  · exact List.take_left' (List.length_take_of_le h)

/-- The value of a digit is read back. -/
theorem hexChar_hexDigit {v : UInt8} (h : v < 16) : hexChar (hexDigit v)=some v := by
  obtain ⟨n,hn,rfl⟩ : ∃ n, n < 16 ∧ v=UInt8.ofNat n :=
    ⟨v.toNat,UInt8.lt_iff_toNat_lt.mp h,by simp⟩
  have hall : ∀ n < 16, hexChar (hexDigit (UInt8.ofNat n))=some (UInt8.ofNat n) := by decide
  exact hall n hn

/-- The high half of a byte is a digit. -/
theorem shiftRight_lt (b : UInt8) : b>>>4 < 16 := by
  have hb := b.toNat_lt
  have hhalf : b.toNat>>>4 < 16 := by
    rw [Nat.shiftRight_eq_div_pow]
    omega
  exact UInt8.lt_iff_toNat_lt.mpr (by simpa using hhalf)

/-- The low half of a byte is a digit. -/
theorem and_lt (b : UInt8) : b&&&0xF < 16 := by
  have hhalf := Nat.and_lt_two_pow b.toNat (show 0xF < 2^4 by decide)
  exact UInt8.lt_iff_toNat_lt.mpr (by simpa using hhalf)

/-- A byte is put together from its halves. -/
theorem halves (b : UInt8) :
    (((0xF : UInt8)&&&(b>>>4))<<<4)|||((0xF : UInt8)&&&(b&&&0xF))=b := by
  have hall : ∀ x : BitVec 8, (((0xF : BitVec 8)&&&(x>>>(4 : BitVec 8)))<<<(4 : BitVec 8))|||
      ((0xF : BitVec 8)&&&(x&&&0xF))=x := by decide +kernel
  exact UInt8.eq_of_toBitVec_eq (hall b.toBitVec)

/-- A byte is read back from its digits. -/
theorem pairValue_hexByte (b : UInt8) :
    pairValue (hexDigit (b>>>4)) (hexDigit (b&&&0xF))=b := by
  have hhigh := hexChar_hexDigit (shiftRight_lt b)
  have hlow := hexChar_hexDigit (and_lt b)
  rw [pairValue,digitValue,digitValue,hhigh,hlow]
  exact halves b

/-- Digits are hex digits. -/
theorem isxdigit_of_mem_hexByte {b c : UInt8} (h : c∈hexByte b) : isxdigit c=true := by
  simp only [hexByte,List.mem_cons,List.not_mem_nil,or_false] at h
  obtain rfl | rfl := h
  · rw [isxdigit,hexChar_hexDigit (shiftRight_lt b)]
    rfl
  · rw [isxdigit,hexChar_hexDigit (and_lt b)]
    rfl

/-- There are two digits for each byte. -/
theorem length_flatMap_hexByte (l : List UInt8) : (l.flatMap hexByte).length=2*l.length := by
  induction l with
  | nil => rfl
  | cons b l ih =>
    rw [List.flatMap_cons,List.length_append,ih,List.length_cons]
    simp only [hexByte,List.length_cons,List.length_nil]
    omega

/-- The digits of a byte stand at twice its position. -/
theorem getD_flatMap_hexByte {l : List UInt8} {i : ℕ} (h : i < l.length) :
    (l.flatMap hexByte).getD (2*i) 0=hexDigit (l[i]>>>4) ∧
      (l.flatMap hexByte).getD (2*i+1) 0=hexDigit (l[i]&&&0xF) := by
  induction l generalizing i with
  | nil => simp at h
  | cons b l ih =>
    cases i with
    | zero => exact ⟨rfl,rfl⟩
    | succ i =>
      have hrest := ih (i:=i) (by simpa using h)
      simpa [hexByte,Nat.mul_succ] using hrest

/-- The digits of an identity. -/
theorem identityDigits_text (eui64 : Eui64) : IdentityDigits (identityText eui64) where
  length := by
    rw [identityText,length_flatMap_hexByte,Vector.length_toList]
    rfl
  hex c hc := by
    obtain ⟨b,_,hb⟩ := List.mem_flatMap.mp hc
    exact isxdigit_of_mem_hexByte hb

/-- An identity is read back from its digits. -/
theorem identityOf_text (eui64 : Eui64) : identityOf (identityText eui64)=eui64 := by
  refine Vector.ext fun i hi => ?_
  have hlen : i < eui64.toList.length := by simpa using hi
  obtain ⟨hhigh,hlow⟩ := getD_flatMap_hexByte hlen
  rw [identityOf,Vector.getElem_ofFn,identityText,hhigh,hlow,pairValue_hexByte,
    Vector.getElem_toList]

end Printing

section Publishing

/-- `BASE_PUBLISH_TOPIC_LEN`. -/
def basePublishTopicLen : ℕ := mqttEdgeNamespace.length+1+mqttIdentityLen+1

/-- `MAX_PUBLISH_TOPIC_LEN`. -/
def maxPublishTopicLen : ℕ := basePublishTopicLen+64

/-- `IPV6ADDR_CBOR_MAX_LEN`. -/
def ipv6addrCborMaxLen : ℕ := 1+16

/-- An entry of `uip_ds6_if.addr_list`. -/
structure DsAddr where
  /-- The entry is in use. -/
  isused : Bool
  /-- Its state is `ADDR_TENTATIVE` or `ADDR_PREFERRED`. -/
  usable : Bool
  /-- The address. -/
  ipaddr : IpAddr

/-- `get_global_address`. -/
def getGlobalAddress (addrList : List DsAddr) : Option IpAddr :=
  (addrList.find? fun a => a.isused && a.usable).map DsAddr.ipaddr

/-- What the edge is built with. -/
structure CapabilityEnv extends Nanocbor where
  /-- What `nanocbor_fmt_bool` emits. -/
  fmtBool : Bool → List UInt8
  /-- What `nanocbor_fmt_null` emits. -/
  fmtNull : List UInt8
  /-- `our_cert`. -/
  ourCert : Certificate
  /-- `linkaddr_node_addr`. -/
  linkaddrNodeAddr : Eui64

/-- `pub_topic`, a buffer of fixed size. -/
structure TopicBuffer where
  /-- The bytes of the buffer. -/
  mem : List UInt8
  /-- There are `MAX_PUBLISH_TOPIC_LEN`. -/
  sized : mem.length=maxPublishTopicLen

/-- Print a text at an offset of the buffer. -/
def TopicBuffer.print (b : TopicBuffer) (offset room : ℕ) (h : offset+room≤ maxPublishTopicLen)
    (text : List UInt8) : TopicBuffer×ℕ :=
  let printed := snprintf b.mem offset room text
  (⟨printed.1,(length_snprintf (b.sized ▸ h) text).trans b.sized⟩,printed.2)

/-- What is handed to `mqtt_over_coap_publish`. -/
structure Handed where
  /-- The C string at `topic`. -/
  topic : List UInt8
  /-- The payload. -/
  data : List UInt8

/-- The data of `capability.c` and of the client, and a record of the publishes
handed on, oldest first. -/
structure State where
  /-- `pub_topic`. -/
  pubTopic : TopicBuffer
  /-- The data of `mqtt-over-coap.c`. -/
  mqtt : MqttOverCoap.State
  /-- The publishes handed to the client. -/
  handed : List Handed

/-- What a publish meets: the clock, the addresses of the edge, and what
becomes of the request. -/
structure Occasion where
  /-- Reading of the clock. -/
  now : ℕ
  /-- `uip_ds6_if.addr_list`. -/
  addrList : List DsAddr
  /-- Whether `root_ep` is connected. -/
  connected : Bool
  /-- Whether `coap_send_request` accepts the request. -/
  accepted : Bool

/-- `NANOCBOR_CHECK` on an emission, in a function whose error codes are taken
for `true`. -/
def checkedEmit (N : Nanocbor) (enc : Encoder) (bytes : List UInt8) : Except Bool Encoder :=
  if N.result (enc.fits bytes)<0 then .error true else .ok (enc.emit bytes)

/-- `certificate_encode` of `our_cert`, which reports no error. -/
def encodeOurCert (env : CapabilityEnv) (enc : Encoder) : Encoder :=
  (certificateEncode env.toNanocbor enc env.ourCert).1

/-- The payload of `publish_announce`. -/
def announcePayload (env : CapabilityEnv) : Except Bool (List UInt8) :=
  .ok (encodeOurCert env (nanocborEncoderInit certificateCborLength)).stored

/-- The payload of `publish_unannounce`. -/
def unannouncePayload (env : CapabilityEnv) (addrList : List DsAddr) :
    Except Bool (List UInt8) := do
  match getGlobalAddress addrList with
  | none => throw false
  | some addr =>
    let enc := nanocborEncoderInit (1+ipv6addrCborMaxLen)
    let enc ← checkedEmit env.toNanocbor enc (env.arrayHead 1)
    let enc ← checkedEmit env.toNanocbor (enc.emit (env.bstrHead 16)) addr.toList
    return enc.stored

/-- The payload of `publish_add_capability` and of `publish_remove_capability`. -/
def capabilityPayload (env : CapabilityEnv) (includeCertificate : Bool) :
    Except Bool (List UInt8) := do
  let enc := nanocborEncoderInit (1+1+certificateCborLength)
  let enc ← checkedEmit env.toNanocbor enc (env.arrayHead 2)
  let enc ← checkedEmit env.toNanocbor enc (env.fmtBool includeCertificate)
  if includeCertificate=true then
    return (encodeOurCert env enc).stored
  else
    let enc ← checkedEmit env.toNanocbor enc env.fmtNull
    return enc.stored

/-- The four publishes: an action is printed behind the base of the topic, the
payload is encoded, and both are handed on. -/
def publishAction (action : List UInt8) (payload : Except Bool (List UInt8)) (o : Occasion)
    (s : State) : State×Bool :=
  let (pubTopic,ret) := s.pubTopic.print basePublishTopicLen
    (maxPublishTopicLen-basePublishTopicLen) (by decide) action
  let s := {s with pubTopic := pubTopic}
  if ret=0 ∨ maxPublishTopicLen-basePublishTopicLen≤ ret then (s,false)
  else match payload with
    | .error ret => (s,ret)
    | .ok data =>
      let topic := cString pubTopic.mem
      let (mqtt,ret) := mqttOverCoapPublish o.now topic o.connected o.accepted s.mqtt
      ({s with mqtt := mqtt,handed := s.handed++[⟨topic,data⟩]},ret)

/-- `publish_announce`. -/
def publishAnnounce (env : CapabilityEnv) : Occasion → State → State×Bool :=
  publishAction mqttEdgeActionAnnounce (announcePayload env)

/-- `publish_unannounce`. -/
def publishUnannounce (env : CapabilityEnv) (o : Occasion) : State → State×Bool :=
  publishAction mqttEdgeActionUnannounce (unannouncePayload env o.addrList) o

/-- `publish_add_capability`. -/
def publishAddCapability (env : CapabilityEnv) (name : List UInt8) (includeCertificate : Bool) :
    Occasion → State → State×Bool :=
  publishAction
    (mqttEdgeActionCapability++slash::(cString name++slash::mqttEdgeActionCapabilityAdd))
    (capabilityPayload env includeCertificate)

/-- `publish_remove_capability`. -/
def publishRemoveCapability (env : CapabilityEnv) (name : List UInt8) (includeCertificate : Bool) :
    Occasion → State → State×Bool :=
  publishAction
    (mqttEdgeActionCapability++slash::(cString name++slash::mqttEdgeActionCapabilityRemove))
    (capabilityPayload env includeCertificate)

/-- `init` on zero-initialised memory, with its result. -/
def init (env : CapabilityEnv) (clockSecond : ℕ) : State×Bool :=
  let memory : TopicBuffer := ⟨List.replicate maxPublishTopicLen 0,List.length_replicate⟩
  let (pubTopic,len) := memory.print 0 (basePublishTopicLen+1) (by decide)
    (topicPrefix (identityText env.linkaddrNodeAddr))
  (⟨pubTopic,MqttOverCoap.start clockSecond,[]⟩,decide (len=basePublishTopicLen))

/-- What can happen next, in any order. -/
inductive Op where
  /-- `publish_announce`. -/
  | announce (o : Occasion)
  /-- `publish_unannounce`. -/
  | unannounce (o : Occasion)
  /-- `publish_add_capability`, for any name. -/
  | addCapability (name : List UInt8) (includeCertificate : Bool) (o : Occasion)
  /-- `publish_remove_capability`, for any name. -/
  | removeCapability (name : List UInt8) (includeCertificate : Bool) (o : Occasion)
  /-- The client goes on. -/
  | client (op : MqttOverCoap.Op)

/-- One step of the edge or of its client. -/
def step (env : CapabilityEnv) (clockSecond : ℕ) (s : State) : Op → State
  | .announce o => (publishAnnounce env o s).1
  | .unannounce o => (publishUnannounce env o s).1
  | .addCapability name includeCertificate o =>
    (publishAddCapability env name includeCertificate o s).1
  | .removeCapability name includeCertificate o =>
    (publishRemoveCapability env name includeCertificate o s).1
  | .client op => {s with mqtt := MqttOverCoap.step clockSecond s.mqtt op}

end Publishing

section Topics

variable {env : CapabilityEnv} {clockSecond : ℕ} {s : State}

/-- The buffer begins with the namespace and the identity of the edge. -/
def Based (env : CapabilityEnv) (s : State) : Prop :=
  s.pubTopic.mem.take basePublishTopicLen=topicPrefix (identityText env.linkaddrNodeAddr)

/-- The text of the topic. -/
def State.topicText (s : State) : List UInt8 := cString s.pubTopic.mem

/-- What a topic begins with has a fixed length. -/
theorem length_topicPrefix {digits : List UInt8} (h : digits.length=mqttIdentityLen) :
    (topicPrefix digits).length=basePublishTopicLen := by
  simp only [topicPrefix,basePublishTopicLen,List.length_append,List.length_cons,
    List.length_nil,h]
  omega

/-- `init` succeeds. -/
theorem init_result (env : CapabilityEnv) (clockSecond : ℕ) : (init env clockSecond).2=true :=
  decide_eq_true (length_topicPrefix (identityDigits_text env.linkaddrNodeAddr).length)

/-- A publish prints its action, whatever becomes of it. -/
theorem publishAction_pubTopic (action : List UInt8) (payload : Except Bool (List UInt8))
    (o : Occasion) (s : State) :
    (publishAction action payload o s).1.pubTopic=(s.pubTopic.print basePublishTopicLen
      (maxPublishTopicLen-basePublishTopicLen) (by decide) action).1 := by
  unfold publishAction
  dsimp only
  split
  · rfl
  · split <;> rfl

/-- A publish leaves the base of the topic. -/
theorem Based.publishAction (h : Based env s) (action : List UInt8)
    (payload : Except Bool (List UInt8)) (o : Occasion) :
    Based env (publishAction action payload o s).1 := by
  have hle : basePublishTopicLen≤ s.pubTopic.mem.length := by
    rw [s.pubTopic.sized]
    decide
  unfold Based
  rw [publishAction_pubTopic]
  exact (take_snprintf hle action).trans h

/-- No step writes to the base of the topic. -/
theorem Based.step (h : Based env s) (op : Op) : Based env (step env clockSecond s op) := by
  cases op with
  | announce o => exact h.publishAction _ _ _
  | unannounce o => exact h.publishAction _ _ _
  | addCapability name includeCertificate o => exact h.publishAction _ _ _
  | removeCapability name includeCertificate o => exact h.publishAction _ _ _
  | client op => exact h

/-- A name without terminator is printed as a whole. -/
theorem cString_of_plain {name : List UInt8} (h : 0∉name) : cString name=name :=
  List.takeWhile_eq_self_iff.mpr fun _ hb => decide_eq_true fun hzero => h (hzero ▸ hb)

/-- A publish for a handler reaches it: the topic fits its buffer and the
query, and a receiver that is given this topic, with any bytes behind it,
dispatches to that handler with the identity of the edge. -/
structure RoundTrips (env : CapabilityEnv) (before after : State) (handler : Handler) : Prop where
  /-- The topic and its terminator fit in `pub_topic`. -/
  fits : after.topicText.length < maxPublishTopicLen
  /-- The topic fits in the query, with its terminator. -/
  query : (uriQuery after.topicText).length < maxQueryLen
  /-- The topic is what is handed on, if anything is. -/
  handed : ∀ m∈after.handed, m∈before.handed ∨ m.topic=after.topicText
  /-- A receiver with another identity finds the identity and the handler. -/
  dispatched : ∀ (currentEui64 : Eui64) (p : Publish), p.topic=after.topicText →
    env.linkaddrNodeAddr≠currentEui64 →
    parseTopic currentEui64 p=some (env.linkaddrNodeAddr,handler)
  /-- It runs that handler. -/
  handled : ∀ {ne nc n : ℕ} {ET CT D A : Type} (receiver : PublishEnv ne nc n ET CT D A)
    (r : MqttPublish.State ne nc n ET CT A) (p : Publish), p.topic=after.topicText →
    env.linkaddrNodeAddr≠receiver.currentEui64 →
    mqttPublishHandler receiver r p=(runHandler receiver p r env.linkaddrNodeAddr handler).1

/-- The topic of the grammar is parsed, whatever is behind it. -/
theorem parseTopic_text {eui64 currentEui64 : Eui64} (hown : eui64≠currentEui64)
    {handler : Handler} (hname : ∀ name∈capabilityName handler, PlainName name) {p : Publish}
    (htopic : p.topic=topicPrefix (identityText eui64)++actionText handler) :
    parseTopic currentEui64 p=some (eui64,handler) := by
  have haction : actionHandler (actionText handler++p.behind)=some handler :=
    actionHandler_iff.mpr ⟨hname,List.prefix_append _ _⟩
  exact parseTopic_iff.mpr ⟨identityText eui64,actionText handler,htopic,identityDigits_text eui64,
    identityOf_text eui64,hown,haction⟩

/-- An edge with the identity of all eights. -/
def sampleCapabilityEnv : CapabilityEnv where
  toNanocbor := CborCodec.standardNanocbor.toNanocbor
  fmtBool b := [if b=true then 0xF5 else 0xF4]
  fmtNull := [0xF6]
  ourCert := sampleCertificate
  linkaddrNodeAddr := .replicate 8 0x88

end Topics

end TrustAlloc.CapabilityTopics
