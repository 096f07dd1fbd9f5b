import Mathlib.Data.List.Basic
import Mathlib.Data.Int.Notation

/-!
# Certificates and the encoding of their signed part

The record of a certificate and `certificate_encode_tbs`, the encoding that
root signatures are checked over. The CBOR emitter is a library outside the
repository: the heads it emits and the value it returns are parameters. An
emission that does not fit leaves the buffer alone but still counts, so the
counted length tells whether the whole encoding is in the buffer.
-/

namespace TrustAlloc.Certificates

/-- An EUI-64 identity, `uint8_t[EUI64_LENGTH]`. -/
abbrev Eui64 := Vector UInt8 8

/-- `ecdsa_secp256r1_pubkey_t`: the two big-endian coordinates of a point. -/
structure PublicKey where
  /-- The x coordinate. -/
  x : Vector UInt8 32
  /-- The y coordinate. -/
  y : Vector UInt8 32
  deriving DecidableEq

/-- The key as the struct lies in memory, `x` before `y`. -/
def PublicKey.bytes (key : PublicKey) : List UInt8 := key.x.toList++key.y.toList

/-- `ecdsa_secp256r1_sig_t`: the two halves of a signature. -/
structure Signature where
  /-- The r half. -/
  r : Vector UInt8 32
  /-- The s half. -/
  s : Vector UInt8 32
  deriving DecidableEq

/-- The signature as the struct lies in memory, `r` before `s`. -/
def Signature.bytes (sig : Signature) : List UInt8 := sig.r.toList++sig.s.toList

/-- `DTLS_EC_SIG_SIZE`: the bytes of a stored signature. -/
def dtlsEcSigSize : ℕ := 64

/-- A signature always has `DTLS_EC_SIG_SIZE` bytes. -/
@[simp] theorem Signature.bytes_length (sig : Signature) :
    sig.bytes.length=dtlsEcSigSize := by
  simp [Signature.bytes,dtlsEcSigSize]

/-- `stereotype_tags_t`: what a stereotype is requested by. -/
structure StereotypeTags where
  /-- Class of the device the certificate is issued to. -/
  deviceClass : UInt8
  deriving DecidableEq

/-- `certificate_t`, with every field in the order of the struct. -/
structure Certificate where
  /-- Serial number given by the issuer. -/
  serialNumber : UInt32
  /-- Identity of the issuer. -/
  issuer : Eui64
  /-- Identity the certificate is about. -/
  subject : Eui64
  /-- Start of validity in Unix time. -/
  validityNotBefore : UInt32
  /-- End of validity in Unix time. -/
  validityNotAfter : UInt32
  /-- Stereotype tags of the subject. -/
  tags : StereotypeTags
  /-- Public key of the subject. -/
  publicKey : PublicKey
  /-- The issuer's signature over the signed part. -/
  signature : Signature
  deriving DecidableEq

/-- What the CBOR library emits for the heads that certificates use, and the
value it returns for an emission that did, or did not, fit. -/
structure Nanocbor where
  /-- Head of an array of the given length. -/
  arrayHead : ℕ → List UInt8
  /-- An unsigned integer. -/
  uintHead : ℕ → List UInt8
  /-- Head of a byte string of the given length. -/
  bstrHead : ℕ → List UInt8
  /-- Returned value, by whether the bytes fitted in the buffer. -/
  result : Bool → ℤ
  /-- An emission that fits is not reported as an error. -/
  result_fits : 0≤ result true

/-- `nanocbor_encoder_t`: room in the buffer, counted bytes and stored bytes. -/
structure Encoder where
  /-- Size of the buffer. -/
  space : ℕ
  /-- Length counted over all emissions, `nanocbor_encoded_len`. -/
  len : ℕ
  /-- Bytes stored from the start of the buffer. -/
  stored : List UInt8

/-- `nanocbor_encoder_init` on a buffer of the given size. -/
def nanocborEncoderInit (space : ℕ) : Encoder := ⟨space,0,[]⟩

/-- Emit bytes: they are always counted and stored only when they fit. -/
def Encoder.emit (enc : Encoder) (bytes : List UInt8) : Encoder :=
  if enc.stored.length+bytes.length≤enc.space then
    {enc with len := enc.len+bytes.length,stored := enc.stored++bytes}
  else {enc with len := enc.len+bytes.length}

/-- Whether the next emission fits, which is what its result reports. -/
def Encoder.fits (enc : Encoder) (bytes : List UInt8) : Bool :=
  decide (enc.stored.length+bytes.length≤enc.space)

/-- Several emissions in order. -/
def Encoder.emitAll (enc : Encoder) (chunks : List (List UInt8)) : Encoder :=
  chunks.foldl Encoder.emit enc

/-- Emission never changes the size of the buffer. -/
@[simp] theorem Encoder.emit_space (enc : Encoder) (bytes : List UInt8) :
    (enc.emit bytes).space=enc.space := by
  unfold Encoder.emit
  split <;> rfl

/-- Every emission is counted, stored or not. -/
@[simp] theorem Encoder.emit_len (enc : Encoder) (bytes : List UInt8) :
    (enc.emit bytes).len=enc.len+bytes.length := by
  unfold Encoder.emit
  split <;> rfl

/-- The counted length of several emissions is the sum of their lengths. -/
theorem Encoder.emitAll_len (enc : Encoder) (chunks : List (List UInt8)) :
    (enc.emitAll chunks).len=enc.len+chunks.flatten.length := by
  induction chunks generalizing enc with
  | nil => simp [Encoder.emitAll]
  | cons chunk chunks ih =>
    have hi := ih (enc.emit chunk)
    rw [Encoder.emit_len] at hi
    simpa only [Encoder.emitAll,List.foldl_cons,List.flatten_cons,List.length_append,
      Nat.add_assoc] using hi

/-- When the counted length stays within the buffer, everything emitted is
in the buffer, in order. -/
theorem Encoder.emitAll_stored {enc : Encoder} {chunks : List (List UInt8)}
    (hlen : enc.stored.length=enc.len) (hfit : (enc.emitAll chunks).len≤enc.space) :
    (enc.emitAll chunks).stored=enc.stored++chunks.flatten := by
  induction chunks generalizing enc with
  | nil => simp [Encoder.emitAll]
  | cons chunk chunks ih =>
    have htotal := enc.emitAll_len (chunk::chunks)
    simp only [List.flatten_cons,List.length_append] at htotal
    have hstep : enc.emit chunk=⟨enc.space,enc.len+chunk.length,enc.stored++chunk⟩ := by
      rw [Encoder.emit,if_pos (by omega)]
    have hi := @ih (enc.emit chunk) (by rw [hstep]; simp [hlen])
      (by rw [Encoder.emit_space]; exact hfit)
    rw [hstep] at hi
    rw [Encoder.emitAll,List.foldl_cons,hstep]
    simpa only [Encoder.emitAll,List.flatten_cons,List.append_assoc] using hi

/-- The parts of the signed encoding up to the stereotype tags, whose results
`certificate_encode_tbs` does not look at. -/
def tbsChunksBefore (N : Nanocbor) (c : Certificate) : List (List UInt8) :=
  [N.arrayHead 6,N.uintHead c.serialNumber.toNat,N.bstrHead 8,c.issuer.toList,
    N.arrayHead 2,N.uintHead c.validityNotBefore.toNat,N.uintHead c.validityNotAfter.toNat,
    N.bstrHead 8,c.subject.toList]

/-- The public key, emitted after the stereotype tags. -/
def tbsChunksAfter (N : Nanocbor) (c : Certificate) : List (List UInt8) :=
  [N.bstrHead 64,c.publicKey.bytes]

/-- `serialise_stereotype_tags`: both results are checked, and the first
negative one ends the encoding. -/
def serialiseStereotypeTags (N : Nanocbor) (enc : Encoder) (tags : StereotypeTags) :
    Encoder × ℤ :=
  let arr := N.arrayHead 1
  let dev := N.uintHead tags.deviceClass.toNat
  if N.result (enc.fits arr)<0 then (enc.emit arr,N.result (enc.fits arr))
  else if N.result ((enc.emit arr).fits dev)<0 then
    ((enc.emit arr).emit dev,N.result ((enc.emit arr).fits dev))
  else ((enc.emit arr).emit dev,0)

/-- `certificate_encode_tbs`: only the tags are encoded under a check. -/
def certificateEncodeTbs (N : Nanocbor) (enc : Encoder) (c : Certificate) : Encoder × ℤ :=
  let tags := serialiseStereotypeTags N (enc.emitAll (tbsChunksBefore N c)) c.tags
  if tags.2<0 then tags else (tags.1.emitAll (tbsChunksAfter N c),0)

/-- The signed bytes of a certificate: what `certificate_encode_tbs` emits
into a buffer that is large enough. -/
def tbsBytes (N : Nanocbor) (c : Certificate) : List UInt8 :=
  (tbsChunksBefore N c++[N.arrayHead 1,N.uintHead c.tags.deviceClass.toNat]++
    tbsChunksAfter N c).flatten

/-- An encoding that reports success has emitted all parts of the signed part. -/
theorem certificateEncodeTbs_emitAll {N : Nanocbor} {enc : Encoder} {c : Certificate}
    (hok : (certificateEncodeTbs N enc c).2=0) :
    (certificateEncodeTbs N enc c).1=enc.emitAll (tbsChunksBefore N c++
      [N.arrayHead 1,N.uintHead c.tags.deviceClass.toNat]++tbsChunksAfter N c) := by
  have htags : ¬(serialiseStereotypeTags N (enc.emitAll (tbsChunksBefore N c)) c.tags).2<0 := by
    intro hneg
    rw [certificateEncodeTbs,if_pos hneg] at hok
    omega
  rw [certificateEncodeTbs,if_neg htags]
  unfold serialiseStereotypeTags at htags ⊢
  dsimp only at htags ⊢
  split at htags
  · next h => exact absurd h htags
  · next hfirst =>
    split at htags
    · next h => exact absurd h htags
    · next hsecond =>
      rw [if_neg hfirst,if_neg hsecond]
      simp only [Encoder.emitAll,List.foldl_append,List.foldl_cons,List.foldl_nil]

/-- The counted length of a successful encoding is that of the signed bytes. -/
theorem certificateEncodeTbs_len {N : Nanocbor} {space : ℕ} {c : Certificate}
    (hok : (certificateEncodeTbs N (nanocborEncoderInit space) c).2=0) :
    (certificateEncodeTbs N (nanocborEncoderInit space) c).1.len=(tbsBytes N c).length := by
  rw [certificateEncodeTbs_emitAll hok,Encoder.emitAll_len]
  exact Nat.zero_add _

/-- A successful encoding whose counted length is within the buffer has left
exactly the signed bytes there. -/
theorem certificateEncodeTbs_stored {N : Nanocbor} {space : ℕ} {c : Certificate}
    (hok : (certificateEncodeTbs N (nanocborEncoderInit space) c).2=0)
    (hlen : (certificateEncodeTbs N (nanocborEncoderInit space) c).1.len ≤ space) :
    (certificateEncodeTbs N (nanocborEncoderInit space) c).1.stored=tbsBytes N c := by
  rw [certificateEncodeTbs_emitAll hok] at hlen ⊢
  rw [Encoder.emitAll_stored rfl hlen]
  rfl

end TrustAlloc.Certificates
