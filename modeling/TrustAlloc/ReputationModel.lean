import TrustAlloc.CborRecords

/-!
# The trust values of the model with reputation

The data of `basic_with_reputation` and their encoding. An edge has the counts
of its accepted tasks and of its results, a capability those of the quality of
its results. All counts are of 32 bits and start at one. What is serialised is
the encoding of an item, and it is read back from that.
-/

namespace TrustAlloc.ReputationModel

open Cbor CborCodec CborRecords Certificates CertificateDecoding Decoding

/-- `beta_dist_t`. -/
structure BetaDist where
  /-- Number of good events. -/
  alpha : UInt32
  /-- Number of bad events. -/
  beta : UInt32
  deriving DecidableEq

/-- `edge_resource_tm_t`. -/
structure EdgeResourceTm where
  /-- Whether the edge accepted the tasks that were submitted. -/
  taskSubmission : BetaDist
  /-- Whether results were received. -/
  taskResult : BetaDist
  deriving DecidableEq

/-- `edge_capability_tm_t`. -/
structure EdgeCapabilityTm where
  /-- Whether results were correct. -/
  resultQuality : BetaDist
  deriving DecidableEq

/-- `beta_dist_add_good`. -/
def betaDistAddGood (dist : BetaDist) : BetaDist := {dist with alpha := dist.alpha+1}

/-- `beta_dist_add_bad`. -/
def betaDistAddBad (dist : BetaDist) : BetaDist := {dist with beta := dist.beta+1}

/-- `edge_resource_tm_init`, whatever the block held before. -/
def edgeResourceTmInit : EdgeResourceTm := ⟨⟨1,1⟩,⟨1,1⟩⟩

/-- `edge_capability_tm_init`, whatever the block held before. -/
def edgeCapabilityTmInit : EdgeCapabilityTm := ⟨⟨1,1⟩⟩

section Items

/-- A distribution as an item. -/
def distItem (dist : BetaDist) : Item := .array [.uint dist.alpha.toNat,.uint dist.beta.toNat]

/-- The values of an edge as an item. -/
def edgeTmItem (tm : EdgeResourceTm) : Item :=
  .array [distItem tm.taskSubmission,distItem tm.taskResult]

/-- The values of a capability as an item. -/
def capabilityTmItem (tm : EdgeCapabilityTm) : Item := .array [distItem tm.resultQuality]

/-- The numbers of a distribution fit their heads. -/
theorem distItem_fits (dist : BetaDist) : Fits (distItem dist) := by
  have halpha := dist.alpha.toNat_lt
  have hbeta := dist.beta.toNat_lt
  refine .array (by simp) fun i hi => ?_
  simp only [List.mem_cons,List.not_mem_nil,or_false] at hi
  rcases hi with rfl | rfl
  · exact .uint (by omega)
  · exact .uint (by omega)

/-- So do those of an edge. -/
theorem edgeTmItem_fits (tm : EdgeResourceTm) : Fits (edgeTmItem tm) := by
  refine .array (by simp) fun i hi => ?_
  simp only [List.mem_cons,List.not_mem_nil,or_false] at hi
  rcases hi with rfl | rfl
  · exact distItem_fits _
  · exact distItem_fits _

/-- And those of a capability. -/
theorem capabilityTmItem_fits (tm : EdgeCapabilityTm) : Fits (capabilityTmItem tm) := by
  refine .array (by simp) fun i hi => ?_
  rw [List.mem_singleton.mp hi]
  exact distItem_fits _

/-- The encoding of a distribution. -/
theorem encode_distItem (dist : BetaDist) :
    encode (distItem dist)=
      arrayHead 2++(uintHead dist.alpha.toNat++uintHead dist.beta.toNat) := by
  simp [distItem,encode,encodeItems]

/-- The encoding of the values of an edge. -/
theorem encode_edgeTmItem (tm : EdgeResourceTm) :
    encode (edgeTmItem tm)=
      arrayHead 2++(encode (distItem tm.taskSubmission)++encode (distItem tm.taskResult)) := by
  simp [edgeTmItem,encode,encodeItems]

/-- The encoding of the values of a capability. -/
theorem encode_capabilityTmItem (tm : EdgeCapabilityTm) :
    encode (capabilityTmItem tm)=arrayHead 1++encode (distItem tm.resultQuality) := by
  simp [capabilityTmItem,encode,encodeItems]

end Items

section Lengths

/-- The bytes of the two counts of a distribution. -/
def countsWidth (dist : BetaDist) : ℕ :=
  headLength dist.alpha.toNat+headLength dist.beta.toNat

/-- A distribution takes a head and its counts. -/
theorem length_distItem (dist : BetaDist) :
    (encode (distItem dist)).length=1+countsWidth dist := by
  have hhead : headLength 2=1 := rfl
  rw [encode_distItem]
  simp only [List.length_append,arrayHead,uintHead,length_head,hhead,countsWidth]

/-- The values of an edge take three heads and their counts. -/
theorem length_edgeTmItem (tm : EdgeResourceTm) :
    (encode (edgeTmItem tm)).length=
      3+countsWidth tm.taskSubmission+countsWidth tm.taskResult := by
  have hhead : headLength 2=1 := rfl
  rw [encode_edgeTmItem]
  simp only [List.length_append,arrayHead,length_head,length_distItem,hhead]
  omega

/-- The values of a capability take two heads and their counts. -/
theorem length_capabilityTmItem (tm : EdgeCapabilityTm) :
    (encode (capabilityTmItem tm)).length=2+countsWidth tm.resultQuality := by
  have hhead : headLength 1=1 := rfl
  rw [encode_capabilityTmItem]
  simp only [List.length_append,arrayHead,length_head,length_distItem,hhead]
  omega

end Lengths

section Serialising

/-- `beta_dist_serialise`. -/
def betaDistSerialise (N : Nanocbor) (enc : Encoder) (dist : BetaDist) : Except ℤ Encoder := do
  let enc ← emitChecked N (N.arrayHead 2) enc
  let enc ← emitChecked N (N.uintHead dist.alpha.toNat) enc
  emitChecked N (N.uintHead dist.beta.toNat) enc

/-- `serialise_trust_edge_resource`. -/
def serialiseTrustEdgeResource (N : Nanocbor) (enc : Encoder) (edge : EdgeResourceTm) :
    Except ℤ Encoder := do
  let enc ← emitChecked N (N.arrayHead 2) enc
  let enc ← betaDistSerialise N enc edge.taskSubmission
  betaDistSerialise N enc edge.taskResult

/-- `serialise_trust_edge_capability`. -/
def serialiseTrustEdgeCapability (N : Nanocbor) (enc : Encoder) (cap : EdgeCapabilityTm) :
    Except ℤ Encoder := do
  let enc ← emitChecked N (N.arrayHead 1) enc
  betaDistSerialise N enc cap.resultQuality

end Serialising

section Deserialising

variable {D : Type}

/-- `beta_dist_deserialise`. -/
def betaDistDeserialise (cbor : PublishDecoder D) (dec : D) : Except ℤ (D×BetaDist) := do
  let arr ← nanocborCheck (cbor.enterArray dec)
  let (arr,alpha) ← nanocborCheck (cbor.getUint32 arr)
  let (arr,beta) ← nanocborCheck (cbor.getUint32 arr)
  if cbor.atEnd arr=false then throw cbor.errEnd
  return (cbor.leaveContainer dec arr,⟨alpha,beta⟩)

/-- `deserialise_trust_edge_resource`. -/
def deserialiseTrustEdgeResource (cbor : PublishDecoder D) (dec : D) :
    Except ℤ (D×EdgeResourceTm) := do
  let arr ← nanocborCheck (cbor.enterArray dec)
  let (arr,taskSubmission) ← betaDistDeserialise cbor arr
  let (arr,taskResult) ← betaDistDeserialise cbor arr
  if cbor.atEnd arr=false then throw cbor.errEnd
  return (cbor.leaveContainer dec arr,⟨taskSubmission,taskResult⟩)

/-- `deserialise_trust_edge_capability`. -/
def deserialiseTrustEdgeCapability (cbor : PublishDecoder D) (dec : D) :
    Except ℤ (D×EdgeCapabilityTm) := do
  let arr ← nanocborCheck (cbor.enterArray dec)
  let (arr,resultQuality) ← betaDistDeserialise cbor arr
  if cbor.atEnd arr=false then throw cbor.errEnd
  return (cbor.leaveContainer dec arr,⟨resultQuality⟩)

end Deserialising

section Sent

variable {D : Type} {N : Nanocbor} {cbor : PublishDecoder D}
  {At : D → Option ℕ → List UInt8 → Prop} (Number : List UInt8 → Prop)

/-- A distribution is read as an array. -/
theorem betaDistDeserialise_eq (cbor : PublishDecoder D) :
    betaDistDeserialise cbor=readArray cbor fun arr => do
      let (arr,alpha) ← nanocborCheck (cbor.getUint32 arr)
      let (arr,beta) ← nanocborCheck (cbor.getUint32 arr)
      return (arr,⟨alpha,beta⟩) := by
  funext dec
  simp only [betaDistDeserialise,readArray,bind_assoc,pure_bind]

/-- So are the values of an edge. -/
theorem deserialiseTrustEdgeResource_eq (cbor : PublishDecoder D) :
    deserialiseTrustEdgeResource cbor=readArray cbor fun arr => do
      let (arr,taskSubmission) ← betaDistDeserialise cbor arr
      let (arr,taskResult) ← betaDistDeserialise cbor arr
      return (arr,⟨taskSubmission,taskResult⟩) := by
  funext dec
  simp only [deserialiseTrustEdgeResource,readArray,bind_assoc,pure_bind]

/-- So are those of a capability. -/
theorem deserialiseTrustEdgeCapability_eq (cbor : PublishDecoder D) :
    deserialiseTrustEdgeCapability cbor=readArray cbor fun arr => do
      let (arr,resultQuality) ← betaDistDeserialise cbor arr
      return (arr,⟨resultQuality⟩) := by
  funext dec
  simp only [deserialiseTrustEdgeCapability,readArray,bind_assoc,pure_bind]

/-- A distribution is sent as one item. -/
theorem sent_dist (hN : StandardHeads N) (hcbor : LawfulDecoder cbor At) (dist : BetaDist) :
    SentAsItem At Number (fun enc => betaDistSerialise N enc dist) (betaDistDeserialise cbor) dist
      (encode (distItem dist)) := by
  have halpha := sent_uint32 Number hN hcbor dist.alpha
  have hbeta := sent_uint32 Number hN hcbor dist.beta
  rw [encode_distItem,betaDistDeserialise_eq]
  exact SentInRow.array (halpha.cons (hbeta.last fun _ => rfl)) hN hcbor (by decide)

/-- So are the values of an edge. -/
theorem sent_edgeTm (hN : StandardHeads N) (hcbor : LawfulDecoder cbor At) (tm : EdgeResourceTm) :
    SentAsItem At Number (fun enc => serialiseTrustEdgeResource N enc tm)
      (deserialiseTrustEdgeResource cbor) tm (encode (edgeTmItem tm)) := by
  have hsubmission := sent_dist Number hN hcbor tm.taskSubmission
  have hresult := sent_dist Number hN hcbor tm.taskResult
  rw [encode_edgeTmItem,deserialiseTrustEdgeResource_eq]
  exact SentInRow.array (hsubmission.cons (hresult.last fun _ => rfl)) hN hcbor (by decide)

/-- So are those of a capability. -/
theorem sent_capabilityTm (hN : StandardHeads N) (hcbor : LawfulDecoder cbor At)
    (tm : EdgeCapabilityTm) :
    SentAsItem At Number (fun enc => serialiseTrustEdgeCapability N enc tm)
      (deserialiseTrustEdgeCapability cbor) tm (encode (capabilityTmItem tm)) := by
  have hquality := sent_dist Number hN hcbor tm.resultQuality
  rw [encode_capabilityTmItem,deserialiseTrustEdgeCapability_eq]
  exact SentInRow.array (hquality.last fun _ => rfl) hN hcbor (by decide)

end Sent

section Halves

variable {D : Type} {N : Nanocbor} {cbor : PublishDecoder D}
  {At : D → Option ℕ → List UInt8 → Prop} {dec : D} {left : Option ℕ} {rest : List UInt8}

/-- The values of an edge are written as their item. What reads them has no bearing on it. -/
theorem writes_edgeTm (hN : StandardHeads N) (tm : EdgeResourceTm) :
    Writes (fun enc => serialiseTrustEdgeResource N enc tm) (encode (edgeTmItem tm)) :=
  (sent_edgeTm (fun _ => False) hN byteDecoder_lawful.toLawfulDecoder tm).writes

/-- The values of a capability are written as their item. -/
theorem writes_capabilityTm (hN : StandardHeads N) (tm : EdgeCapabilityTm) :
    Writes (fun enc => serialiseTrustEdgeCapability N enc tm)
      (encode (capabilityTmItem tm)) :=
  (sent_capabilityTm (fun _ => False) hN byteDecoder_lawful.toLawfulDecoder tm).writes

/-- The values of an edge are read back. What has written them has no bearing on it. -/
theorem decodes_edgeTm (hcbor : LawfulDecoder cbor At) (tm : EdgeResourceTm)
    (hdec : At dec left (encode (edgeTmItem tm)++rest)) (hleft : left≠some 0) :
    Decodes At left rest tm (deserialiseTrustEdgeResource cbor dec) :=
  (sent_edgeTm (fun _ => False) standardNanocbor_heads.toStandardHeads hcbor tm).reads dec left
    rest hleft hdec

/-- The values of a capability are read back. -/
theorem decodes_capabilityTm (hcbor : LawfulDecoder cbor At) (tm : EdgeCapabilityTm)
    (hdec : At dec left (encode (capabilityTmItem tm)++rest)) (hleft : left≠some 0) :
    Decodes At left rest tm (deserialiseTrustEdgeCapability cbor dec) :=
  (sent_capabilityTm (fun _ => False) standardNanocbor_heads.toStandardHeads hcbor tm).reads dec
    left rest hleft hdec

end Halves

end TrustAlloc.ReputationModel
