import TrustAlloc.CborRecords
import TrustAlloc.Distributions
import TrustAlloc.HmmCodec

/-!
# Sending distributions

The serialisers and deserialisers of `distributions.c`. Distributions of
events and of values are arrays, of two and of three items; those of
occurrences are bare integers. The macros `dist_serialise` and
`dist_deserialise` select among them by the type of the distribution. Floating
point numbers are whatever the CBOR library takes them for.
-/

namespace TrustAlloc.DistributionCodec

open Cbor CborCodec CborRecords Certificates Decoding HmmCodec TrustAlloc.Distributions
  ReputationModel

variable {D F : Type}

/-- `poisson_dist_t`. -/
structure PoissonDist where
  /-- The rate of occurrences that is expected over a period. -/
  lambda : UInt32
  deriving DecidableEq

/-- `poisson_observation_t`. -/
structure PoissonObservation where
  /-- Number of occurrences over a period. -/
  observations : UInt32
  deriving DecidableEq

section Source

/-- `gaussian_dist_serialise`. -/
def gaussianDistSerialise (N : FloatNanocbor F) (enc : Encoder) (dist : GaussianDist F) :
    Except ℤ Encoder := do
  let enc ← emitChecked N.toNanocbor (N.arrayHead 3) enc
  let enc ← emitChecked N.toNanocbor (N.floatItem dist.mean) enc
  let enc ← emitChecked N.toNanocbor (N.floatItem dist.variance) enc
  emitChecked N.toNanocbor (N.uintHead dist.count.toNat) enc

/-- `gaussian_dist_deserialise`. -/
def gaussianDistDeserialise (cbor : FloatDecoder D F) (dec : D) : Except ℤ (D×GaussianDist F) :=
  readArray cbor.toPublishDecoder (fun arr => do
    let (arr,mean) ← nanocborCheck (cbor.getFloat arr)
    let (arr,variance) ← nanocborCheck (cbor.getFloat arr)
    let (arr,count) ← nanocborCheck (cbor.getUint32 arr)
    return (arr,⟨mean,variance,count⟩)) dec

/-- `poisson_dist_serialise`. -/
def poissonDistSerialise (N : FloatNanocbor F) (enc : Encoder) (dist : PoissonDist) :
    Except ℤ Encoder :=
  emitChecked N.toNanocbor (N.uintHead dist.lambda.toNat) enc

/-- `poisson_dist_deserialise`. -/
def poissonDistDeserialise (cbor : FloatDecoder D F) (dec : D) : Except ℤ (D×PoissonDist) := do
  let (dec,lambda) ← nanocborCheck (cbor.getUint32 dec)
  return (dec,⟨lambda⟩)

/-- `poisson_observation_serialise`. -/
def poissonObservationSerialise (N : FloatNanocbor F) (enc : Encoder) (dist : PoissonObservation) :
    Except ℤ Encoder :=
  emitChecked N.toNanocbor (N.uintHead dist.observations.toNat) enc

/-- `poisson_observation_deserialise`. -/
def poissonObservationDeserialise (cbor : FloatDecoder D F) (dec : D) :
    Except ℤ (D×PoissonObservation) := do
  let (dec,observations) ← nanocborCheck (cbor.getUint32 dec)
  return (dec,⟨observations⟩)

/-- The types of distributions that the macros select among. -/
class Dist (F α : Type) where
  /-- The serialiser of the type. -/
  serialise : FloatNanocbor F → Encoder → α → Except ℤ Encoder
  /-- The deserialiser of the type. -/
  deserialise {D : Type} : FloatDecoder D F → D → Except ℤ (D×α)

/-- `beta_dist_t` is one of them. -/
instance distBetaDist : Dist F BetaDist where
  serialise N := betaDistSerialise N.toNanocbor
  deserialise cbor := betaDistDeserialise cbor.toPublishDecoder

/-- `gaussian_dist_t` is one of them. -/
instance distGaussianDist : Dist F (GaussianDist F) where
  serialise := gaussianDistSerialise
  deserialise := gaussianDistDeserialise

/-- `poisson_dist_t` is one of them. -/
instance distPoissonDist : Dist F PoissonDist where
  serialise := poissonDistSerialise
  deserialise := poissonDistDeserialise

/-- `poisson_observation_t` is one of them. -/
instance distPoissonObservation : Dist F PoissonObservation where
  serialise := poissonObservationSerialise
  deserialise := poissonObservationDeserialise

/-- `dist_serialise`. -/
def distSerialise {α : Type} [Dist F α] (N : FloatNanocbor F) (enc : Encoder) (x : α) :
    Except ℤ Encoder := Dist.serialise N enc x

/-- `dist_deserialise`, into a distribution of the given type. -/
def distDeserialise (α : Type) [Dist F α] (cbor : FloatDecoder D F) (dec : D) :
    Except ℤ (D×α) := Dist.deserialise cbor dec

end Source

section Laws

/-- Numbers that were written are read, whatever they are written as. -/
structure ReadsFloats (N : FloatNanocbor F) (cbor : FloatDecoder D F)
    (At : D → Option ℕ → List UInt8 → Prop) : Prop
    extends LawfulDecoder cbor.toPublishDecoder At where
  /-- Floating point numbers. -/
  getFloat : ∀ dec left x rest, At dec left (N.floatItem x++rest) → left≠some 0 →
    Reads At left rest x (cbor.getFloat dec)

/-- Bytes are those of a floating point number. -/
def IsNumber (N : FloatNanocbor F) (bytes : List UInt8) : Prop := ∃ x, bytes=N.floatItem x

end Laws

section Sent

variable {N : FloatNanocbor F} {cbor : FloatDecoder D F} {At : D → Option ℕ → List UInt8 → Prop}
  (hN : StandardHeads N.toNanocbor)

include hN

/-- A floating point number is sent as one item. -/
theorem sent_float (hcbor : ReadsFloats N cbor At) (x : F) :
    SentAsItem At (IsNumber N) (emitChecked N.toNanocbor (N.floatItem x))
      (fun dec => nanocborCheck (cbor.getFloat dec)) x (N.floatItem x) :=
  ⟨.number ⟨x,rfl⟩,writes_emit hN _,fun dec left rest hleft hdec =>
    (hcbor.getFloat dec left x rest hdec hleft).check⟩

/-- A distribution of events is sent as one item. -/
theorem sent_beta (hcbor : LawfulDecoder cbor.toPublishDecoder At) (dist : BetaDist) :
    SentAsItem At (IsNumber N) (fun enc => distSerialise N enc dist)
      (distDeserialise BetaDist cbor) dist (encode (distItem dist)) :=
  sent_dist (IsNumber N) hN hcbor dist

/-- So is one of values. -/
theorem sent_gaussian (hcbor : ReadsFloats N cbor At) (dist : GaussianDist F) :
    SentAsItem At (IsNumber N) (fun enc => distSerialise N enc dist)
      (distDeserialise (GaussianDist F) cbor) dist (arrayHead 3++(N.floatItem dist.mean++
        (N.floatItem dist.variance++uintHead dist.count.toNat))) := by
  have hlaws := hcbor.toLawfulDecoder
  have hmean := sent_float hN hcbor dist.mean
  have hvariance := sent_float hN hcbor dist.variance
  have hcount := sent_uint32 (IsNumber N) hN hlaws dist.count
  exact SentInRow.array (hmean.cons (hvariance.cons (hcount.last fun _ => rfl))) hN hlaws
    (by decide)

/-- So is one of occurrences, as a bare integer. -/
theorem sent_poisson (hcbor : LawfulDecoder cbor.toPublishDecoder At) (dist : PoissonDist) :
    SentAsItem At (IsNumber N) (fun enc => distSerialise N enc dist)
      (distDeserialise PoissonDist cbor) dist (uintHead dist.lambda.toNat) :=
  (sent_uint32 (IsNumber N) hN hcbor dist.lambda).into fun _ => rfl

/-- And so is a count of occurrences. -/
theorem sent_observation (hcbor : LawfulDecoder cbor.toPublishDecoder At)
    (dist : PoissonObservation) :
    SentAsItem At (IsNumber N) (fun enc => distSerialise N enc dist)
      (distDeserialise PoissonObservation cbor) dist (uintHead dist.observations.toNat) :=
  (sent_uint32 (IsNumber N) hN hcbor dist.observations).into fun _ => rfl

end Sent

end TrustAlloc.DistributionCodec
