import Mathlib.Data.List.Basic
import Mathlib.Data.UInt
import Mathlib.Tactic.IntervalCases

/-!
# Base64

`base64_decode` of `base64.c`, which skips characters that are not in its
table and stops behind the first padding, and the encoder of the applications,
which pads the last group. What the decoder has stored in its buffer may be
more than what it reports, and it stores bytes before it refuses a padding.
-/

namespace TrustAlloc.Base64

section Tables

/-- `base64_table`. -/
def base64Table : List UInt8 :=
  ((List.range 26).map fun k => UInt8.ofNat (0x41+k))++
    ((List.range 26).map fun k => UInt8.ofNat (0x61+k))++
      ((List.range 10).map fun k => UInt8.ofNat (0x30+k))++[0x2B,0x2F]

/-- `'='`. -/
def padding : UInt8 := 0x3D

/-- Characters without a value are marked with this one in `dtable`. -/
def skipped : UInt8 := 0x80

/-- `dtable`. -/
def dtable (c : UInt8) : UInt8 :=
  if c=padding then 0
  else match base64Table.idxOf? c with
    | some i => UInt8.ofNat i
    | none => skipped

/-- The character of a group of six bits. -/
def symbol (v : UInt8) : UInt8 := base64Table.getD v.toNat 0

/-- Characters of the table have their values, and are no padding. -/
theorem dtable_symbol {v : UInt8} (h : v < 64) :
    dtable (symbol v)=v ∧ symbol v≠padding ∧ v≠skipped := by
  obtain ⟨n,hn,rfl⟩ : ∃ n, n < 64 ∧ v=UInt8.ofNat n :=
    ⟨v.toNat,UInt8.lt_iff_toNat_lt.mp h,by simp⟩
  have hall : ∀ n < 64, dtable (symbol (UInt8.ofNat n))=UInt8.ofNat n ∧
      symbol (UInt8.ofNat n)≠padding ∧ UInt8.ofNat n≠skipped := by decide
  exact hall n hn

end Tables

section Decoder

/-- What a call of `base64_decode` leaves behind. -/
structure Decoded where
  /-- The result. -/
  ok : Bool
  /-- The bytes that were stored, from the beginning of `out` on. -/
  stored : List UInt8
  /-- `*out_len`. -/
  outLen : ℕ
  deriving DecidableEq

/-- The bytes that are reported. -/
def Decoded.bytes (d : Decoded) : List UInt8 := d.stored.take d.outLen

/-- How many characters have a value, the padding included. -/
def countValues (source : List UInt8) : ℕ :=
  (source.filter fun c => decide (dtable c≠skipped)).length

/-- The bytes of a full block. -/
def blockBytes (b0 b1 b2 b3 : UInt8) : List UInt8 :=
  [(b0<<<2)|||(b1>>>4),(b1<<<4)|||(b2>>>2),(b2<<<6)|||b3]

/-- The second loop of `base64_decode`, on the block and the padding so far
and on the bytes that were stored. -/
def decodeLoop : List UInt8 → List UInt8 → ℕ → List UInt8 → ℕ → Decoded
  | [],_,_,out,_ => ⟨true,out,out.length⟩
  | c::source,block,pad,out,outLen =>
    if dtable c=skipped then decodeLoop source block pad out outLen
    else
      let pad := if c=padding then pad+1 else pad
      match block with
      | [b0,b1,b2] =>
        let out := out++blockBytes b0 b1 b2 (dtable c)
        if pad=0 then decodeLoop source [] pad out outLen
        else if pad=1 then ⟨true,out,out.length-1⟩
        else if pad=2 then ⟨true,out,out.length-2⟩
        -- refused, with the bytes stored and `*out_len` as it was
        else ⟨false,out,outLen⟩
      | _ => decodeLoop source (block++[dtable c]) pad out outLen

/-- `base64_decode` into a buffer with the given room. -/
def base64Decode (source : List UInt8) (outLen : ℕ) : Decoded :=
  if countValues source=0 ∨ countValues source%4≠0 then ⟨false,[],outLen⟩
  else if outLen < countValues source/4*3 then ⟨false,[],outLen⟩
  else decodeLoop source [] 0 [] outLen

/-- The loop stores three bytes for each full block, and reports one of them
at least once it has stored any. -/
theorem decodeLoop_bounds (source block : List UInt8) (pad : ℕ) (out : List UInt8) (outLen : ℕ)
    (hblock : block.length < 4) :
    let d := decodeLoop source block pad out outLen
    d.stored.length≤out.length+(block.length+countValues source)/4*3 ∧
      (d.ok=true → d.outLen≤d.stored.length ∧
        (out.length≠0 ∨ 4≤block.length+countValues source → 0 < d.outLen)) := by
  induction source generalizing block pad out with
  | nil =>
    refine ⟨Nat.le_add_right _ _,fun _ => ⟨le_refl _,fun h => ?_⟩⟩
    exact Nat.pos_of_ne_zero (h.resolve_right (by simp [countValues,hblock]))
  | cons c source ih =>
    unfold decodeLoop
    by_cases hc : dtable c=skipped
    · have hcount : countValues (c::source)=countValues source := by simp [countValues,hc]
      rw [if_pos hc,hcount]
      exact ih block pad out hblock
    · have hcount : countValues (c::source)=countValues source+1 := by simp [countValues,hc]
      rw [if_neg hc,hcount]
      generalize (if c=padding then pad+1 else pad)=pad'
      split
      · next b0 b1 b2 =>
        have hout : (out++blockBytes b0 b1 b2 (dtable c)).length=out.length+3 := by
          rw [List.length_append]
          rfl
        have hthree : [b0,b1,b2].length=3 := rfl
        have hrest := ih [] pad' (out++blockBytes b0 b1 b2 (dtable c)) (by decide)
        dsimp only at hrest ⊢
        rw [hout,List.length_nil] at hrest
        rw [hthree]
        split_ifs
        · exact ⟨by omega,fun hok => ⟨(hrest.2 hok).1,fun _ => (hrest.2 hok).2 (by omega)⟩⟩
        · exact ⟨by rw [hout]; omega,fun _ => ⟨Nat.sub_le _ _,fun _ => by dsimp only; omega⟩⟩
        · exact ⟨by rw [hout]; omega,fun _ => ⟨Nat.sub_le _ _,fun _ => by dsimp only; omega⟩⟩
        · exact ⟨by rw [hout]; omega,fun h => nomatch h⟩
      · next hshort =>
        have hlen : (block++[dtable c]).length=block.length+1 := by simp
        have hlt : block.length≠3 := fun h3 => by
          obtain ⟨b0,b1,b2,rfl⟩ := List.length_eq_three.mp h3
          exact hshort b0 b1 b2 rfl
        have hrest := ih (block++[dtable c]) pad' out (by omega)
        rw [hlen] at hrest
        dsimp only at hrest ⊢
        exact ⟨by omega,fun hok => ⟨(hrest.2 hok).1,fun h => (hrest.2 hok).2 (by omega)⟩⟩

/-- Nothing is stored behind the room, and what is reported was stored and is
not empty. -/
theorem base64Decode_bounds (source : List UInt8) (outLen : ℕ) :
    (base64Decode source outLen).stored.length≤outLen ∧
      ((base64Decode source outLen).ok=true →
        (base64Decode source outLen).bytes.length=(base64Decode source outLen).outLen ∧
          0 < (base64Decode source outLen).outLen) := by
  unfold base64Decode
  split_ifs with hcount hroom
  · exact ⟨Nat.zero_le _,fun h => nomatch h⟩
  · exact ⟨Nat.zero_le _,fun h => nomatch h⟩
  · have hloop := decodeLoop_bounds source [] 0 [] outLen (by decide)
    dsimp only at hloop
    rw [List.length_nil,Nat.zero_add,Nat.zero_add] at hloop
    refine ⟨by omega,fun hok => ⟨List.length_take_of_le (hloop.2 hok).1,(hloop.2 hok).2 ?_⟩⟩
    omega

end Decoder

section Encoder

/-- `b64encode`, with the last group padded. -/
def b64encode : List UInt8 → List UInt8
  | a::b::c::rest =>
    symbol (a>>>2)::symbol (((a&&&0x03)<<<4)|||(b>>>4))::
      symbol (((b&&&0x0F)<<<2)|||(c>>>6))::symbol (c&&&0x3F)::b64encode rest
  | [a,b] => [symbol (a>>>2),symbol (((a&&&0x03)<<<4)|||(b>>>4)),symbol ((b&&&0x0F)<<<2),padding]
  | [a] => [symbol (a>>>2),symbol ((a&&&0x03)<<<4),padding,padding]
  | [] => []

/-- There are four characters for every three bytes or fewer. -/
theorem length_b64encode (bytes : List UInt8) :
    (b64encode bytes).length=4*((bytes.length+2)/3) := by
  induction bytes using b64encode.induct with
  | case1 a b c rest ih =>
    simp only [b64encode,List.length_cons,ih]
    omega
  | case2 a b => simp [b64encode]
  | case3 a => simp [b64encode]
  | case4 => simp [b64encode]

/-- The lower six bits of a byte. -/
theorem lt_of_shiftRight {v : UInt8} (h : v>>>6=0) : v < 64 := by
  have hall : ∀ x : BitVec 8, x>>>(6 : BitVec 8)=0 → x < 64#8 := by decide +kernel
  exact hall v.toBitVec (congrArg UInt8.toBitVec h)

/-- The four groups of six bits of three bytes. -/
theorem groups_lt (a b c : UInt8) : a>>>2 < 64 ∧ ((a&&&0x03)<<<4)|||(b>>>4) < 64 ∧
    ((b&&&0x0F)<<<2)|||(c>>>6) < 64 ∧ c&&&0x3F < 64 := by
  refine ⟨lt_of_shiftRight ?_,lt_of_shiftRight ?_,lt_of_shiftRight ?_,lt_of_shiftRight ?_⟩ <;>
    · apply UInt8.eq_of_toBitVec_eq
      ext i hi
      interval_cases i <;> simp

/-- Three bytes are put together from their groups. -/
theorem blockBytes_groups (a b c : UInt8) : blockBytes (a>>>2) (((a&&&0x03)<<<4)|||(b>>>4))
    (((b&&&0x0F)<<<2)|||(c>>>6)) (c&&&0x3F)=[a,b,c] := by
  unfold blockBytes
  congr 1
  · apply UInt8.eq_of_toBitVec_eq
    ext i hi
    interval_cases i <;> simp
  · congr 1
    · apply UInt8.eq_of_toBitVec_eq
      ext i hi
      interval_cases i <;> simp
    · congr 1
      apply UInt8.eq_of_toBitVec_eq
      ext i hi
      interval_cases i <;> simp

end Encoder

section RoundTrip

variable {v0 v1 v2 v3 : UInt8}

/-- One character of the table inside a block. -/
theorem decodeLoop_symbol {v : UInt8} (hv : v < 64) (source : List UInt8) {block : List UInt8}
    (hblock : block.length < 3) (out : List UInt8) (outLen : ℕ) :
    decodeLoop (symbol v::source) block 0 out outLen=
      decodeLoop source (block++[v]) 0 out outLen := by
  obtain ⟨hvalue,hpadding,hskipped⟩ := dtable_symbol hv
  rw [decodeLoop,hvalue,if_neg hskipped,if_neg hpadding]
  split
  · exact absurd hblock (by simp)
  · rfl

/-- A block of four characters of the table. -/
theorem decodeLoop_group (h0 : v0 < 64) (h1 : v1 < 64) (h2 : v2 < 64) (h3 : v3 < 64)
    (source out : List UInt8) (outLen : ℕ) :
    decodeLoop (symbol v0::symbol v1::symbol v2::symbol v3::source) [] 0 out outLen=
      decodeLoop source [] 0 (out++blockBytes v0 v1 v2 v3) outLen := by
  obtain ⟨hvalue,hpadding,hskipped⟩ := dtable_symbol h3
  rw [decodeLoop_symbol h0 _ (by decide),decodeLoop_symbol h1 _ (by simp),
    decodeLoop_symbol h2 _ (by simp)]
  rw [decodeLoop,hvalue,if_neg hskipped,if_neg hpadding]
  rfl

/-- The padding has the value zero, which is not that of skipped characters. -/
theorem dtable_padding : dtable padding=0 ∧ (0 : UInt8)≠skipped := by decide

/-- A last block with one padding. -/
theorem decodeLoop_padded (h0 : v0 < 64) (h1 : v1 < 64) (h2 : v2 < 64) (out : List UInt8)
    (outLen : ℕ) : decodeLoop [symbol v0,symbol v1,symbol v2,padding] [] 0 out outLen=
      ⟨true,out++blockBytes v0 v1 v2 0,out.length+2⟩ := by
  rw [decodeLoop_symbol h0 _ (by decide),decodeLoop_symbol h1 _ (by simp),
    decodeLoop_symbol h2 _ (by simp)]
  rw [decodeLoop,dtable_padding.1,if_neg dtable_padding.2,if_pos rfl]
  simp [blockBytes]

/-- A last block with two of them. -/
theorem decodeLoop_paddedTwice (h0 : v0 < 64) (h1 : v1 < 64) (out : List UInt8) (outLen : ℕ) :
    decodeLoop [symbol v0,symbol v1,padding,padding] [] 0 out outLen=
      ⟨true,out++blockBytes v0 v1 0 0,out.length+1⟩ := by
  rw [decodeLoop_symbol h0 _ (by decide),decodeLoop_symbol h1 _ (by simp)]
  rw [decodeLoop,dtable_padding.1,if_neg dtable_padding.2,if_pos rfl]
  dsimp only [List.nil_append,List.cons_append]
  rw [decodeLoop,dtable_padding.1,if_neg dtable_padding.2,if_pos rfl]
  simp [blockBytes]

/-- The loop reads back what was encoded. -/
theorem decodeLoop_b64encode (bytes out : List UInt8) (outLen : ℕ) :
    let d := decodeLoop (b64encode bytes) [] 0 out outLen
    d.ok=true ∧ d.bytes=out++bytes ∧ d.outLen=out.length+bytes.length := by
  induction bytes using b64encode.induct generalizing out with
  | case1 a b c rest ih =>
    obtain ⟨h0,h1,h2,h3⟩ := groups_lt a b c
    have hgroup := ih (out++[a,b,c])
    rw [b64encode,decodeLoop_group h0 h1 h2 h3,blockBytes_groups]
    dsimp only at hgroup ⊢
    refine ⟨hgroup.1,hgroup.2.1.trans (by simp),hgroup.2.2.trans ?_⟩
    simp only [List.length_append,List.length_cons,List.length_nil]
    omega
  | case2 a b =>
    obtain ⟨h0,h1,h2,_⟩ := groups_lt a b 0
    have hbytes := blockBytes_groups a b 0
    simp only [UInt8.zero_shiftRight,UInt8.or_zero,UInt8.zero_and] at h2 hbytes
    rw [b64encode,decodeLoop_padded h0 h1 h2,hbytes]
    exact ⟨rfl,by simp [Decoded.bytes,List.take_append],rfl⟩
  | case3 a =>
    obtain ⟨h0,h1,_,_⟩ := groups_lt a 0 0
    have hbytes := blockBytes_groups a 0 0
    simp only [UInt8.zero_shiftRight,UInt8.or_zero,UInt8.zero_and,UInt8.zero_shiftLeft] at h1 hbytes
    rw [b64encode,decodeLoop_paddedTwice h0 h1,hbytes]
    exact ⟨rfl,by simp [Decoded.bytes,List.take_append],rfl⟩
  | case4 => exact ⟨rfl,by simp [b64encode,decodeLoop,Decoded.bytes],rfl⟩

/-- All characters of an encoding have a value. -/
theorem dtable_of_mem_b64encode (bytes : List UInt8) : ∀ c∈b64encode bytes, dtable c≠skipped := by
  have hsymbol : ∀ {v : UInt8}, v < 64 → dtable (symbol v)≠skipped := fun hv => by
    obtain ⟨hvalue,_,hskipped⟩ := dtable_symbol hv
    rwa [hvalue]
  have hpadding : dtable padding≠skipped := by decide
  induction bytes using b64encode.induct with
  | case1 a b c rest ih =>
    obtain ⟨h0,h1,h2,h3⟩ := groups_lt a b c
    rw [b64encode]
    intro x hx
    simp only [List.mem_cons] at hx
    rcases hx with rfl | rfl | rfl | rfl | hx
    · exact hsymbol h0
    · exact hsymbol h1
    · exact hsymbol h2
    · exact hsymbol h3
    · exact ih x hx
  | case2 a b =>
    obtain ⟨h0,h1,h2,_⟩ := groups_lt a b 0
    simp only [UInt8.zero_shiftRight,UInt8.or_zero] at h2
    simp [b64encode,hsymbol h0,hsymbol h1,hsymbol h2,hpadding]
  | case3 a =>
    obtain ⟨h0,h1,_,_⟩ := groups_lt a 0 0
    simp only [UInt8.zero_shiftRight,UInt8.or_zero] at h1
    simp [b64encode,hsymbol h0,hsymbol h1,hpadding]
  | case4 => simp [b64encode]

/-- They are counted. -/
theorem countValues_b64encode (bytes : List UInt8) :
    countValues (b64encode bytes)=4*((bytes.length+2)/3) := by
  have hall := dtable_of_mem_b64encode bytes
  rw [countValues,List.filter_eq_self.mpr fun c hc => decide_eq_true (hall c hc),length_b64encode]

/-- **Base64.** What was encoded is read back if the padded bytes have room. -/
theorem base64Decode_b64encode {bytes : List UInt8} {outLen : ℕ} (hbytes : bytes≠[])
    (hroom : (bytes.length+2)/3*3≤outLen) :
    let d := base64Decode (b64encode bytes) outLen
    d.ok=true ∧ d.bytes=bytes ∧ d.outLen=bytes.length := by
  have hpos : 0 < bytes.length := List.length_pos_of_ne_nil hbytes
  have hcount := countValues_b64encode bytes
  unfold base64Decode
  rw [if_neg (by omega),if_neg (by omega)]
  simpa using decodeLoop_b64encode bytes [] outLen

/-- Without that room it is refused, and nothing is stored. -/
theorem base64Decode_b64encode_full {bytes : List UInt8} {outLen : ℕ}
    (hroom : outLen < (bytes.length+2)/3*3) :
    base64Decode (b64encode bytes) outLen=⟨false,[],outLen⟩ := by
  have hcount := countValues_b64encode bytes
  unfold base64Decode
  rw [if_neg (by omega),if_pos (by omega)]

end RoundTrip

end TrustAlloc.Base64
