import TrustAlloc.Certificates
import TrustAlloc.Decoding

/-!
# Decoding certificates

`certificate_decode` and what it is made of. The CBOR decoder is a parameter,
with the calls that only certificates and publishes need. The result of
entering the outer array is not looked at, as in the source.
-/

namespace TrustAlloc.CertificateDecoding

open Certificates Decoding

/-- The decoder with the calls that publishes need, and two error codes. -/
structure PublishDecoder (D : Type) extends NanocborDecoder D where
  /-- `nanocbor_get_uint8`. -/
  getUint8 : D → ℤ×D×UInt8
  /-- `nanocbor_get_bool`. -/
  getBool : D → ℤ×D×Bool
  /-- `nanocbor_get_null`. -/
  getNull : D → ℤ×D
  /-- `NANOCBOR_ERR_END`. -/
  errEnd : ℤ
  /-- `NANOCBOR_ERR_TOO_SMALL`. -/
  errTooSmall : ℤ
  /-- Both codes are errors. -/
  err_neg : errEnd<0 ∧ errTooSmall<0

variable {D : Type}

/-- Some bytes of a list, from a position on. -/
def bytesAt (k : ℕ) (bytes : List UInt8) (offset : ℕ) : Vector UInt8 k :=
  Vector.ofFn fun i => bytes.getD (offset+i) 0

/-- `nanocbor_get_bstr_of_len`. -/
def nanocborGetBstrOfLen (cbor : PublishDecoder D) (dec : D) (len : ℕ) :
    Except ℤ (D×Vector UInt8 len) := do
  let (dec,bytes) ← nanocborCheck (cbor.getBstr dec)
  if len<bytes.length then throw nanocborErrOverflow
  if bytes.length<len then throw cbor.errTooSmall
  return (dec,bytesAt len bytes 0)

/-- `NANOCBOR_GET_OBJECT` for an object of a given size. -/
def nanocborGetObject (cbor : PublishDecoder D) (dec : D) (size : ℕ) :
    Except ℤ (D×List UInt8) := do
  let (dec,bytes) ← nanocborCheck (cbor.getBstr dec)
  if bytes.length≠size then throw (-1)
  return (dec,bytes)

/-- `nanocbor_get_ipaddr`. -/
def nanocborGetIpaddr (cbor : PublishDecoder D) (dec : D) : Except ℤ (D×Vector UInt8 16) := do
  let (dec,bytes) ← nanocborGetObject cbor dec 16
  return (dec,bytesAt 16 bytes 0)

/-- `DEVICE_CLASS_MINIMUM`. -/
def deviceClassMinimum : UInt8 := 1

/-- `DEVICE_CLASS_MAXIMUM`. -/
def deviceClassMaximum : UInt8 := 8

/-- `deserialise_stereotype_tags`. -/
def deserialiseStereotypeTags (cbor : PublishDecoder D) (dec : D) :
    Except ℤ (D×StereotypeTags) := do
  let arr ← nanocborCheck (cbor.enterArray dec)
  let (arr,deviceClass) ← nanocborCheck (cbor.getUint8 arr)
  if deviceClass<deviceClassMinimum ∨ deviceClassMaximum<deviceClass then throw (-1)
  if cbor.atEnd arr=false then throw (-1)
  return (cbor.leaveContainer dec arr,⟨deviceClass⟩)

/-- A public key from its 64 bytes. -/
def publicKeyOfBytes (bytes : List UInt8) : PublicKey := ⟨bytesAt 32 bytes 0,bytesAt 32 bytes 32⟩

/-- A signature from its 64 bytes. -/
def signatureOfBytes (bytes : List UInt8) : Signature := ⟨bytesAt 32 bytes 0,bytesAt 32 bytes 32⟩

/-- `certificate_decode_tbs`; the signature is filled in by the caller. -/
def certificateDecodeTbs (cbor : PublishDecoder D) (dec : D) :
    Except ℤ (D×(Signature → Certificate)) := do
  let arr ← nanocborCheck (cbor.enterArray dec)
  let (arr,serialNumber) ← nanocborCheck (cbor.getUint32 arr)
  let (arr,issuer) ← nanocborGetBstrOfLen cbor arr 8
  let validityArr ← nanocborCheck (cbor.enterArray arr)
  let (validityArr,notBefore) ← nanocborCheck (cbor.getUint32 validityArr)
  let (validityArr,notAfter) ← nanocborCheck (cbor.getUint32 validityArr)
  if cbor.atEnd validityArr=false then throw cbor.errEnd
  let arr := cbor.leaveContainer arr validityArr
  let (arr,subject) ← nanocborGetBstrOfLen cbor arr 8
  let (arr,tags) ← deserialiseStereotypeTags cbor arr
  let (arr,publicKey) ← nanocborGetObject cbor arr 64
  if cbor.atEnd arr=false then throw cbor.errEnd
  return (cbor.leaveContainer dec arr,fun signature =>
    ⟨serialNumber,issuer,subject,notBefore,notAfter,tags,publicKeyOfBytes publicKey,signature⟩)

/-- `certificate_decode`, with the decoder after the certificate. -/
def certificateDecode (cbor : PublishDecoder D) (dec : D) : Except ℤ (D×Certificate) := do
  -- whether there is an array to enter is not checked
  let arr := (cbor.enterArray dec).2
  let (arr,certificate) ← certificateDecodeTbs cbor arr
  let (arr,signature) ← nanocborGetObject cbor arr 64
  if cbor.atEnd arr=false then throw cbor.errEnd
  return (cbor.leaveContainer dec arr,certificate (signatureOfBytes signature))

/-- The sample decoder, which also reads long byte strings, small device
classes, truth values and null. -/
def samplePublishDecoder : PublishDecoder (List UInt8×Option ℕ) where
  toNanocborDecoder := {sampleDecoder with
    getBstr := fun dec => match dec.1 with
      | 0x58::len::rest =>
        if len.toNat ≤ rest.length then
          (0,(rest.drop len.toNat,dec.2.map (·-1)),rest.take len.toNat)
        else (-2,dec,[])
      | _ => sampleDecoder.getBstr dec}
  getUint8 dec := match dec.1 with
    | b::rest => if b<0x18 then (0,(rest,dec.2.map (·-1)),b) else (-2,dec,0)
    | [] => (-3,dec,0)
  getBool dec := match dec.1 with
    | 0xF4::rest => (0,(rest,dec.2.map (·-1)),false)
    | 0xF5::rest => (0,(rest,dec.2.map (·-1)),true)
    | _ => (-2,dec,false)
  getNull dec := match dec.1 with
    | 0xF6::rest => (0,(rest,dec.2.map (·-1)))
    | _ => (-2,dec)
  errEnd := -3
  errTooSmall := -6
  err_neg := by decide

end TrustAlloc.CertificateDecoding
