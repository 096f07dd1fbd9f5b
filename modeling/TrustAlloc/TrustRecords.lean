import TrustAlloc.DistributionCodec
import TrustAlloc.EdgeChoice
import TrustAlloc.Throughput

/-!
# The records of the trust models

What the continuous model, the one of throughput and the one of challenges
keep of an edge and of a capability, and how they send it, beside the model
with reputation and the one that keeps nothing. The deserialisers work on what
the memory held before, of which a field that is not sent stays. Every record
is one item, of whatever distributions it is made up, and what is sent of it
is restored.
-/

namespace TrustAlloc.TrustRecords

open Cbor CborCodec CborRecords CertificateDecoding Certificates Decoding DistributionCodec
  TrustAlloc.Distributions HmmCodec ReputationModel

variable {D F ET CT : Type}

/-- The emitter with the null value. -/
structure RecordNanocbor (F : Type) extends FloatNanocbor F where
  /-- `nanocbor_fmt_null`. -/
  nullItem : List UInt8

/-- What a trust model provides to the code that sends its records. -/
structure RecordCodec (D ET CT : Type) where
  /-- `TRUST_MODEL_TAG`. -/
  trustModelTag : UInt32
  /-- `serialise_trust_edge_resource`. -/
  serialiseTrustEdgeResource : Encoder → ET → Except ℤ Encoder
  /-- `serialise_trust_edge_capability`. -/
  serialiseTrustEdgeCapability : Encoder → CT → Except ℤ Encoder
  /-- `deserialise_trust_edge_resource`, on what the memory held before. -/
  deserialiseTrustEdgeResource : D → ET → Except ℤ (D×ET)
  /-- `deserialise_trust_edge_capability`, on what the memory held before. -/
  deserialiseTrustEdgeCapability : D → CT → Except ℤ (D×CT)

namespace NoneModel

/-- `edge_resource_tm_t`, which has no fields. -/
structure EdgeResourceTm where
  deriving DecidableEq

/-- `edge_capability_tm_t`, which has no fields. -/
structure EdgeCapabilityTm where
  deriving DecidableEq

variable (N : RecordNanocbor F) (cbor : FloatDecoder D F)

/-- `serialise_trust_edge_resource`. -/
def serialiseTrustEdgeResource (enc : Encoder) (_edge : EdgeResourceTm) : Except ℤ Encoder :=
  emitChecked N.toNanocbor N.nullItem enc

/-- `serialise_trust_edge_capability`. -/
def serialiseTrustEdgeCapability (enc : Encoder) (_cap : EdgeCapabilityTm) : Except ℤ Encoder :=
  emitChecked N.toNanocbor N.nullItem enc

/-- `deserialise_trust_edge_resource`. -/
def deserialiseTrustEdgeResource (dec : D) (edge : EdgeResourceTm) :
    Except ℤ (D×EdgeResourceTm) := do
  let dec ← nanocborCheck (cbor.getNull dec)
  return (dec,edge)

/-- `deserialise_trust_edge_capability`. -/
def deserialiseTrustEdgeCapability (dec : D) (cap : EdgeCapabilityTm) :
    Except ℤ (D×EdgeCapabilityTm) := do
  let dec ← nanocborCheck (cbor.getNull dec)
  return (dec,cap)

/-- What the model provides. -/
def codec : RecordCodec D EdgeResourceTm EdgeCapabilityTm where
  trustModelTag := 0
  serialiseTrustEdgeResource := serialiseTrustEdgeResource N
  serialiseTrustEdgeCapability := serialiseTrustEdgeCapability N
  deserialiseTrustEdgeResource := deserialiseTrustEdgeResource cbor
  deserialiseTrustEdgeCapability := deserialiseTrustEdgeCapability cbor

end NoneModel

/-- What the model with reputation provides. -/
def reputationCodec (N : Nanocbor) (cbor : PublishDecoder D) :
    RecordCodec D ReputationModel.EdgeResourceTm ReputationModel.EdgeCapabilityTm where
  trustModelTag := 1
  serialiseTrustEdgeResource := serialiseTrustEdgeResource N
  serialiseTrustEdgeCapability := serialiseTrustEdgeCapability N
  deserialiseTrustEdgeResource dec _ := deserialiseTrustEdgeResource cbor dec
  deserialiseTrustEdgeCapability dec _ := deserialiseTrustEdgeCapability cbor dec

namespace ContinuousModel

/-- `edge_resource_tm_t`. -/
structure EdgeResourceTm where
  /-- Whether the edge accepted the tasks that were submitted. -/
  taskSubmission : BetaDist
  /-- Whether results were received. -/
  taskResult : BetaDist
  /-- Announces of the edge. -/
  announce : PoissonObservation
  deriving DecidableEq

/-- `edge_capability_tm_t`. -/
structure EdgeCapabilityTm (F : Type) where
  /-- Whether results were correct. -/
  resultQuality : BetaDist
  /-- How long responses took. -/
  latency : GaussianDist F
  deriving DecidableEq

variable (N : RecordNanocbor F) (cbor : FloatDecoder D F)

/-- `serialise_trust_edge_resource`. -/
def serialiseTrustEdgeResource (enc : Encoder) (edge : EdgeResourceTm) : Except ℤ Encoder := do
  let enc ← emitChecked N.toNanocbor (N.arrayHead 3) enc
  let enc ← distSerialise N.toFloatNanocbor enc edge.taskSubmission
  let enc ← distSerialise N.toFloatNanocbor enc edge.taskResult
  distSerialise N.toFloatNanocbor enc edge.announce

/-- `serialise_trust_edge_capability`. -/
def serialiseTrustEdgeCapability (enc : Encoder) (cap : EdgeCapabilityTm F) :
    Except ℤ Encoder := do
  let enc ← emitChecked N.toNanocbor (N.arrayHead 2) enc
  let enc ← distSerialise N.toFloatNanocbor enc cap.resultQuality
  distSerialise N.toFloatNanocbor enc cap.latency

/-- `deserialise_trust_edge_resource`. -/
def deserialiseTrustEdgeResource (dec : D) (edge : EdgeResourceTm) :
    Except ℤ (D×EdgeResourceTm) :=
  readArray cbor.toPublishDecoder (fun arr => do
    let (arr,taskSubmission) ← distDeserialise BetaDist cbor arr
    let (arr,taskResult) ← distDeserialise BetaDist cbor arr
    let (arr,announce) ← distDeserialise PoissonObservation cbor arr
    return (arr,{edge with taskSubmission,taskResult,announce})) dec

/-- `deserialise_trust_edge_capability`. -/
def deserialiseTrustEdgeCapability (dec : D) (cap : EdgeCapabilityTm F) :
    Except ℤ (D×EdgeCapabilityTm F) :=
  readArray cbor.toPublishDecoder (fun arr => do
    let (arr,resultQuality) ← distDeserialise BetaDist cbor arr
    let (arr,latency) ← distDeserialise (GaussianDist F) cbor arr
    return (arr,{cap with resultQuality,latency})) dec

/-- What the model provides. -/
def codec : RecordCodec D EdgeResourceTm (EdgeCapabilityTm F) where
  trustModelTag := 2
  serialiseTrustEdgeResource := serialiseTrustEdgeResource N
  serialiseTrustEdgeCapability := serialiseTrustEdgeCapability N
  deserialiseTrustEdgeResource := deserialiseTrustEdgeResource cbor
  deserialiseTrustEdgeCapability := deserialiseTrustEdgeCapability cbor

end ContinuousModel

namespace ThroughputModel

/-- `edge_resource_tm_t`. -/
structure EdgeResourceTm where
  /-- Whether the edge accepted the tasks that were submitted. -/
  taskSubmission : BetaDist
  /-- Whether results were received. -/
  taskResult : BetaDist
  /-- Reading of the clock when a ping was answered, which is not sent. -/
  lastPingResponse : ℕ
  deriving DecidableEq

variable (N : RecordNanocbor F) (cbor : FloatDecoder D F)

/-- `serialise_trust_edge_resource`. -/
def serialiseTrustEdgeResource (enc : Encoder) (edge : EdgeResourceTm) : Except ℤ Encoder := do
  let enc ← emitChecked N.toNanocbor (N.arrayHead 2) enc
  let enc ← distSerialise N.toFloatNanocbor enc edge.taskSubmission
  distSerialise N.toFloatNanocbor enc edge.taskResult

/-- `serialise_trust_edge_capability`. -/
def serialiseTrustEdgeCapability (enc : Encoder) (cap : Throughput.EdgeCapabilityTm F) :
    Except ℤ Encoder := do
  let enc ← emitChecked N.toNanocbor (N.arrayHead 3) enc
  let enc ← distSerialise N.toFloatNanocbor enc cap.resultQuality
  let enc ← distSerialise N.toFloatNanocbor enc cap.throughputIn
  distSerialise N.toFloatNanocbor enc cap.throughputOut

/-- `deserialise_trust_edge_resource`. -/
def deserialiseTrustEdgeResource (dec : D) (edge : EdgeResourceTm) :
    Except ℤ (D×EdgeResourceTm) :=
  readArray cbor.toPublishDecoder (fun arr => do
    let (arr,taskSubmission) ← distDeserialise BetaDist cbor arr
    let (arr,taskResult) ← distDeserialise BetaDist cbor arr
    return (arr,{edge with taskSubmission,taskResult})) dec

/-- `deserialise_trust_edge_capability`. -/
def deserialiseTrustEdgeCapability (dec : D) (cap : Throughput.EdgeCapabilityTm F) :
    Except ℤ (D×Throughput.EdgeCapabilityTm F) :=
  readArray cbor.toPublishDecoder (fun arr => do
    let (arr,resultQuality) ← distDeserialise BetaDist cbor arr
    let (arr,throughputIn) ← distDeserialise (GaussianDist F) cbor arr
    let (arr,throughputOut) ← distDeserialise (GaussianDist F) cbor arr
    return (arr,{cap with resultQuality,throughputIn,throughputOut})) dec

/-- What the model provides. -/
def codec : RecordCodec D EdgeResourceTm (Throughput.EdgeCapabilityTm F) where
  trustModelTag := 8
  serialiseTrustEdgeResource := serialiseTrustEdgeResource N
  serialiseTrustEdgeCapability := serialiseTrustEdgeCapability N
  deserialiseTrustEdgeResource := deserialiseTrustEdgeResource cbor
  deserialiseTrustEdgeCapability := deserialiseTrustEdgeCapability cbor

end ThroughputModel

namespace ChallengeResponseModel

/-- `edge_capability_tm_t`, which has no fields. -/
structure EdgeCapabilityTm where
  deriving DecidableEq

variable (N : RecordNanocbor F) (cbor : FloatDecoder D F)

/-- `serialise_trust_edge_resource`. -/
def serialiseTrustEdgeResource (enc : Encoder) (edge : EdgeChoice.EdgeResourceTm) :
    Except ℤ Encoder := do
  let enc ← emitChecked N.toNanocbor (N.arrayHead 2) enc
  let enc ← emitChecked N.toNanocbor (N.uintHead edge.epochNumber.toNat) enc
  emitChecked N.toNanocbor (N.boolItem edge.bad) enc

/-- `serialise_trust_edge_capability`. -/
def serialiseTrustEdgeCapability (enc : Encoder) (_cap : EdgeCapabilityTm) : Except ℤ Encoder :=
  emitChecked N.toNanocbor N.nullItem enc

/-- `deserialise_trust_edge_resource`. -/
def deserialiseTrustEdgeResource (dec : D) (edge : EdgeChoice.EdgeResourceTm) :
    Except ℤ (D×EdgeChoice.EdgeResourceTm) :=
  readArray cbor.toPublishDecoder (fun arr => do
    let (arr,epochNumber) ← nanocborCheck (cbor.getUint32 arr)
    let (arr,bad) ← nanocborCheck (cbor.getBool arr)
    return (arr,{edge with epochNumber,bad})) dec

/-- `deserialise_trust_edge_capability`. -/
def deserialiseTrustEdgeCapability (dec : D) (cap : EdgeCapabilityTm) :
    Except ℤ (D×EdgeCapabilityTm) := do
  let dec ← nanocborCheck (cbor.getNull dec)
  return (dec,cap)

/-- What the model provides. -/
def codec : RecordCodec D EdgeChoice.EdgeResourceTm EdgeCapabilityTm where
  trustModelTag := 3
  serialiseTrustEdgeResource := serialiseTrustEdgeResource N
  serialiseTrustEdgeCapability := serialiseTrustEdgeCapability N
  deserialiseTrustEdgeResource := deserialiseTrustEdgeResource cbor
  deserialiseTrustEdgeCapability := deserialiseTrustEdgeCapability cbor

end ChallengeResponseModel

section Laws

/-- Truth values and the null value are in the shortest form, as heads are. -/
structure StandardRecordHeads (N : RecordNanocbor F) : Prop extends StandardHeads N.toNanocbor where
  /-- Truth values. -/
  boolItem : ∀ b, N.boolItem b=encode (.bool b)
  /-- The null value. -/
  nullItem : N.nullItem=encode .null

/-- They are read, as floating point numbers are. -/
structure ReadsRecords (N : RecordNanocbor F) (cbor : FloatDecoder D F)
    (At : D → Option ℕ → List UInt8 → Prop) : Prop
    extends ReadsFloats N.toFloatNanocbor cbor At where
  /-- Truth values. -/
  getBool : ∀ dec left b rest, At dec left (encode (.bool b)++rest) → left≠some 0 →
    Reads At left rest b (cbor.getBool dec)
  /-- The null value. -/
  getNull : ∀ dec left rest, At dec left (encode .null++rest) → left≠some 0 →
    0≤(cbor.getNull dec).1 ∧ At (cbor.getNull dec).2 (left.map (·-1)) rest

end Laws

section Sent

/-- A trust model sends each record as one item. What the memory of a
deserialiser holds behind is given by the record and by what was there before. -/
structure SendsRecords (At : D → Option ℕ → List UInt8 → Prop) (Number : List UInt8 → Prop)
    (m : RecordCodec D ET CT) (restoreEdge : ET → ET → ET) (restoreCapability : CT → CT → CT) :
    Prop where
  /-- Edges. -/
  edge : ∀ tm, ∃ bytes, ∀ old, SentAsItem At Number
    (fun enc => m.serialiseTrustEdgeResource enc tm)
    (fun dec => m.deserialiseTrustEdgeResource dec old) (restoreEdge tm old) bytes
  /-- Capabilities. -/
  capability : ∀ tm, ∃ bytes, ∀ old, SentAsItem At Number
    (fun enc => m.serialiseTrustEdgeCapability enc tm)
    (fun dec => m.deserialiseTrustEdgeCapability dec old) (restoreCapability tm old) bytes

/-- The record of a capability that a receiver does not know is skipped. -/
theorem SendsRecords.skipped {At : D → Option ℕ → List UInt8 → Prop} {Number : List UInt8 → Prop}
    {cbor : PublishDecoder D} {m : RecordCodec D ET CT} {restoreEdge : ET → ET → ET}
    {restoreCapability : CT → CT → CT} (h : SendsRecords At Number m restoreEdge restoreCapability)
    (hskips : SkipsItems At Number cbor) (tm : CT) :
    ∃ bytes, Writes (fun enc => m.serialiseTrustEdgeCapability enc tm) bytes ∧
      ∀ dec left rest, left≠some 0 → At dec left (bytes++rest) →
        0≤(cbor.skip dec).1 ∧ At (cbor.skip dec).2 (left.map (·-1)) rest := by
  obtain ⟨bytes,hsent⟩ := h.capability tm
  have hrecord := hsent tm
  exact ⟨bytes,hrecord.writes,fun dec left rest hleft hdec =>
    hskips dec left bytes rest hrecord.item hdec hleft⟩

variable {N : RecordNanocbor F} {cbor : FloatDecoder D F} {At : D → Option ℕ → List UInt8 → Prop}
  (hN : StandardRecordHeads N) (hcbor : ReadsRecords N cbor At)

include hN hcbor

/-- A truth value is sent as one item. -/
theorem sent_bool (b : Bool) :
    SentAsItem At (IsNumber N.toFloatNanocbor) (emitChecked N.toNanocbor (N.boolItem b))
      (fun dec => nanocborCheck (cbor.getBool dec)) b (encode (.bool b)) := by
  refine ⟨.bool b,?_,fun dec left rest hleft hdec =>
    (hcbor.getBool dec left b rest hdec hleft).check⟩
  rw [←hN.boolItem]
  exact writes_emit hN.toStandardHeads _

/-- The null value is sent as one item, for anything that is there before. -/
theorem sent_null {α : Type} (x : α) :
    SentAsItem At (IsNumber N.toFloatNanocbor) (emitChecked N.toNanocbor N.nullItem)
      (fun dec => do
        let dec ← nanocborCheck (cbor.getNull dec)
        return (dec,x)) x (encode .null) := by
  refine ⟨.null,?_,fun dec left rest hleft hdec => ?_⟩
  · rw [←hN.nullItem]
    exact writes_emit hN.toStandardHeads _
  · obtain ⟨hok,hdec'⟩ := hcbor.getNull dec left rest hdec hleft
    have hcheck : nanocborCheck (cbor.getNull dec)=.ok (cbor.getNull dec).2 :=
      if_neg (not_lt.mpr hok)
    refine ⟨(cbor.getNull dec).2,?_,hdec'⟩
    rw [hcheck]
    rfl

/-- Without a model there is nothing in a record. -/
theorem sendsRecords_none :
    SendsRecords At (IsNumber N.toFloatNanocbor) (NoneModel.codec N cbor)
      (fun tm _ => tm) (fun tm _ => tm) :=
  ⟨fun tm => ⟨_,fun _ => sent_null hN hcbor tm⟩,fun tm => ⟨_,fun _ => sent_null hN hcbor tm⟩⟩

/-- The model with reputation sends its records. -/
theorem sendsRecords_reputation :
    SendsRecords At (IsNumber N.toFloatNanocbor)
      (reputationCodec N.toNanocbor cbor.toPublishDecoder) (fun tm _ => tm) (fun tm _ => tm) := by
  have hheads := hN.toStandardHeads
  have hlaws := hcbor.toLawfulDecoder
  exact ⟨fun tm => ⟨_,fun _ => sent_edgeTm _ hheads hlaws tm⟩,
    fun tm => ⟨_,fun _ => sent_capabilityTm _ hheads hlaws tm⟩⟩

/-- The continuous model sends its records. -/
theorem sendsRecords_continuous :
    SendsRecords At (IsNumber N.toFloatNanocbor) (ContinuousModel.codec N cbor)
      (fun tm _ => tm) (fun tm _ => tm) := by
  have hheads := hN.toStandardHeads
  have hfloats := hcbor.toReadsFloats
  have hlaws := hfloats.toLawfulDecoder
  refine ⟨fun tm => ?_,fun tm => ?_⟩
  · have hsubmission := sent_beta hheads hlaws tm.taskSubmission
    have hresult := sent_beta hheads hlaws tm.taskResult
    have hannounce := sent_observation hheads hlaws tm.announce
    exact ⟨_,fun old => SentInRow.array
      (hsubmission.cons (hresult.cons (hannounce.last fun _ => rfl))) hheads hlaws (by decide)⟩
  · have hquality := sent_beta hheads hlaws tm.resultQuality
    have hlatency := sent_gaussian hheads hfloats tm.latency
    exact ⟨_,fun old => SentInRow.array
      (hquality.cons (hlatency.last fun _ => rfl)) hheads hlaws (by decide)⟩

/-- In the model of throughput an edge is sent as in the one with reputation.
What was there before stays of the time of the last ping. -/
theorem sent_throughputEdge (tm old : ThroughputModel.EdgeResourceTm) :
    SentAsItem At (IsNumber N.toFloatNanocbor)
      (fun enc => ThroughputModel.serialiseTrustEdgeResource N enc tm)
      (fun dec => ThroughputModel.deserialiseTrustEdgeResource cbor dec old)
      {tm with lastPingResponse := old.lastPingResponse}
      (encode (edgeTmItem ⟨tm.taskSubmission,tm.taskResult⟩)) := by
  have hheads := hN.toStandardHeads
  have hlaws := hcbor.toLawfulDecoder
  have hsubmission := sent_beta hheads hlaws tm.taskSubmission
  have hresult := sent_beta hheads hlaws tm.taskResult
  rw [encode_edgeTmItem]
  exact SentInRow.array (hsubmission.cons (hresult.last fun _ => rfl)) hheads hlaws (by decide)

/-- The model of throughput sends its records, but for the time of the last ping. -/
theorem sendsRecords_throughput :
    SendsRecords At (IsNumber N.toFloatNanocbor) (ThroughputModel.codec N cbor)
      (fun tm old => {tm with lastPingResponse := old.lastPingResponse}) (fun tm _ => tm) := by
  have hheads := hN.toStandardHeads
  have hfloats := hcbor.toReadsFloats
  have hlaws := hfloats.toLawfulDecoder
  refine ⟨fun tm => ⟨_,sent_throughputEdge hN hcbor tm⟩,fun tm => ?_⟩
  have hquality := sent_beta hheads hlaws tm.resultQuality
  have hin := sent_gaussian hheads hfloats tm.throughputIn
  have hout := sent_gaussian hheads hfloats tm.throughputOut
  exact ⟨_,fun old => SentInRow.array
    (hquality.cons (hin.cons (hout.last fun _ => rfl))) hheads hlaws (by decide)⟩

/-- In the model of challenges an edge is its epoch and whether it is bad. -/
theorem sent_challengedEdge (tm old : EdgeChoice.EdgeResourceTm) :
    SentAsItem At (IsNumber N.toFloatNanocbor)
      (fun enc => ChallengeResponseModel.serialiseTrustEdgeResource N enc tm)
      (fun dec => ChallengeResponseModel.deserialiseTrustEdgeResource cbor dec old) tm
      (encode (.array [.uint tm.epochNumber.toNat,.bool tm.bad])) := by
  have hheads := hN.toStandardHeads
  have hlaws := hcbor.toLawfulDecoder
  have hepoch := sent_uint32 (IsNumber N.toFloatNanocbor) hheads hlaws tm.epochNumber
  have hbad := sent_bool hN hcbor tm.bad
  have hbytes : encode (.array [.uint tm.epochNumber.toNat,.bool tm.bad])=
      arrayHead 2++(uintHead tm.epochNumber.toNat++encode (.bool tm.bad)) := by
    simp [encode,encodeItems]
  rw [hbytes]
  exact SentInRow.array (hepoch.cons (hbad.last fun _ => rfl)) hheads hlaws (by decide)

/-- The model of challenges sends its records. That of a capability has nothing in it. -/
theorem sendsRecords_challengeResponse :
    SendsRecords At (IsNumber N.toFloatNanocbor) (ChallengeResponseModel.codec N cbor)
      (fun tm _ => tm) (fun tm _ => tm) :=
  ⟨fun tm => ⟨_,sent_challengedEdge hN hcbor tm⟩,fun tm => ⟨_,fun _ => sent_null hN hcbor tm⟩⟩

/-- **The records of the other trust models.** Whatever the continuous model,
the model of throughput and the model of challenges keep of an edge or of a
capability is sent as one item, and all that is sent of it is restored. -/
theorem sendsRecords_others :
    SendsRecords At (IsNumber N.toFloatNanocbor) (ContinuousModel.codec N cbor)
      (fun tm _ => tm) (fun tm _ => tm) ∧
    SendsRecords At (IsNumber N.toFloatNanocbor) (ThroughputModel.codec N cbor)
      (fun tm old => {tm with lastPingResponse := old.lastPingResponse}) (fun tm _ => tm) ∧
    SendsRecords At (IsNumber N.toFloatNanocbor) (ChallengeResponseModel.codec N cbor)
      (fun tm _ => tm) (fun tm _ => tm) :=
  ⟨sendsRecords_continuous hN hcbor,sendsRecords_throughput hN hcbor,
    sendsRecords_challengeResponse hN hcbor⟩

end Sent

section Bytes

/-- The emitter of numbers that are kept as their bits, with the null value. -/
def bitsRecordNanocbor : RecordNanocbor UInt32 := {bitsNanocbor with nullItem := [0xF6]}

/-- It obeys the laws. -/
theorem bitsRecordNanocbor_heads : StandardRecordHeads bitsRecordNanocbor where
  toStandardHeads := standardNanocbor_heads.toStandardHeads
  boolItem b := by cases b <;> rfl
  nullItem := rfl

/-- So does the decoder on bytes. -/
theorem bitsDecoder_readsRecords : ReadsRecords bitsRecordNanocbor bitsDecoder Stands where
  toLawfulDecoder := byteDecoder_lawful.toLawfulDecoder
  getFloat := bitsDecoder_lawful.getFloat
  getBool dec left b rest hdec := by
    rw [←bitsRecordNanocbor_heads.boolItem] at hdec
    exact bitsDecoder_lawful.getBool dec left b rest hdec
  getNull p left rest hp hleft := by
    have hread := readArgument_head (v:=22) 7 (by decide) (by decide) hleft rest
    rw [hp]
    simp only [bitsDecoder,byteDecoder,encode,hread]
    exact ⟨le_refl _,rfl⟩

/-- On bytes, with numbers that are kept as their bits, records are sent. -/
theorem sendsRecords_others_bits :
    SendsRecords Stands (IsNumber bitsNanocbor)
      (ContinuousModel.codec bitsRecordNanocbor bitsDecoder)
      (fun tm _ => tm) (fun tm _ => tm) ∧
    SendsRecords Stands (IsNumber bitsNanocbor)
      (ThroughputModel.codec bitsRecordNanocbor bitsDecoder)
      (fun tm old => {tm with lastPingResponse := old.lastPingResponse}) (fun tm _ => tm) ∧
    SendsRecords Stands (IsNumber bitsNanocbor)
      (ChallengeResponseModel.codec bitsRecordNanocbor bitsDecoder)
      (fun tm _ => tm) (fun tm _ => tm) :=
  sendsRecords_others bitsRecordNanocbor_heads bitsDecoder_readsRecords

/-- The bits of numbers are passed over. -/
theorem passed_bits {bytes : List UInt8} (h : IsNumber bitsNanocbor bytes) : Passed bytes := by
  obtain ⟨x,rfl⟩ := h
  have hmajor : 7 < 8 := by decide
  have hinfo : 26 < 32 := by decide
  exact passed_of_readHead (Or.inr rfl) (Nat.succ_pos _)
    (readHead_bigEndian hmajor hinfo rfl x.toNat_lt)

/-- So is every item that they occur in. -/
theorem bitsDecoder_skips :
    SkipsItems Stands (IsNumber bitsNanocbor) bitsDecoder.toPublishDecoder :=
  byteDecoder_skips fun _ => passed_bits

end Bytes

end TrustAlloc.TrustRecords
