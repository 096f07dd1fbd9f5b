import Mathlib.Data.Int.Notation
import Mathlib.Data.Nat.Notation
import Mathlib.Data.UInt

/-!
# Reading CBOR

The decoder of the CBOR library, as the functions of it that are used. Every
call returns its result and the decoder after it; a negative result is an
error. What a decoder consists of is left open.
-/

namespace TrustAlloc.Decoding

/-- `NANOCBOR_OK`. -/
def nanocborOk : ℤ := 0

/-- `NANOCBOR_ERR_OVERFLOW`. -/
def nanocborErrOverflow : ℤ := -1

/-- `NANOCBOR_CHECK`: a negative result is returned at once. -/
def nanocborCheck {α : Type} (result : ℤ × α) : Except ℤ α :=
  if result.1<0 then .error result.1 else .ok result.2

/-- The functions of the decoder that read anything but floating point numbers. -/
structure NanocborDecoder (D : Type) where
  /-- `nanocbor_decoder_init`. -/
  init : List UInt8 → D
  /-- `nanocbor_enter_array`, with the decoder of the items. -/
  enterArray : D → ℤ × D
  /-- `nanocbor_leave_container`, on the outer decoder and that of the items. -/
  leaveContainer : D → D → D
  /-- `nanocbor_get_uint32`. -/
  getUint32 : D → ℤ × D × UInt32
  /-- `nanocbor_get_bstr`. -/
  getBstr : D → ℤ × D × List UInt8
  /-- `nanocbor_skip`. -/
  skip : D → ℤ × D
  /-- `nanocbor_at_end`. -/
  atEnd : D → Bool
  /-- Items that are left in a container. -/
  remaining : D → UInt32

/-- A decoder for short arrays and byte strings and for small integers, which
skips arrays of single floats; it consists of the bytes ahead and, within an
array, the items that are left. -/
def sampleDecoder : NanocborDecoder (List UInt8 × Option ℕ) where
  init bytes := (bytes,none)
  enterArray dec := match dec.1 with
    | b::rest => if 0x80≤b ∧ b<0x98 then (0,rest,some (b-0x80).toNat) else (-2,dec)
    | [] => (-3,dec)
  leaveContainer dec arr := (arr.1,dec.2.map (·-1))
  getUint32 dec := match dec.1 with
    | b::rest => if b<0x18 then (0,(rest,dec.2.map (·-1)),b.toUInt32) else (-2,dec,0)
    | [] => (-3,dec,0)
  getBstr dec := match dec.1 with
    | b::rest =>
      let len := (b-0x40).toNat
      if 0x40≤b ∧ b<0x58 ∧ len≤ rest.length then
        (0,(rest.drop len,dec.2.map (·-1)),rest.take len)
      else (-2,dec,[])
    | [] => (-3,dec,[])
  skip dec := match dec.1 with
    | b::rest =>
      if 0x80≤b ∧ b<0x98 then (0,rest.drop (5*(b-0x80).toNat),dec.2.map (·-1)) else (-2,dec)
    | [] => (-3,dec)
  atEnd dec := match dec.2 with
    | none => decide (dec.1=[])
    | some left => decide (left=0)
  remaining dec := (dec.2.getD 0).toUInt32

end TrustAlloc.Decoding
