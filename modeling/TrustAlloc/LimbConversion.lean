import Mathlib.Data.Nat.Digits.Defs
import Mathlib.Data.UInt
import TrustAlloc.LocalArrays

/-!
# Bytes and limbs of the public key accelerator

The conversions of the zoul `platform-crypto-support.c`. Keys and signatures
are big-endian bytes, and the accelerator takes limbs of 32 bits with the least
significant one first. Seen as words, both conversions reverse the order of the
words, so that each of them undoes the other.
-/

namespace TrustAlloc.LimbConversion

open LocalArrays LocalArray

variable {m n : ℕ}

section Source

/-- `ec_uint8x4_to_uint32_left`, at a place in an array. -/
def ecUint8x4ToUint32Left (data : LocalArray n UInt8) (field : ℤ) : Checked UInt32 := do
  let b₀ ← data.read field
  let b₁ ← data.read (field+1)
  let b₂ ← data.read (field+2)
  let b₃ ← data.read (field+3)
  return b₀.toUInt32 <<< 24 ||| b₁.toUInt32 <<< 16 ||| b₂.toUInt32 <<< 8 ||| b₃.toUInt32

/-- The loop body of `ec_uint8v_to_uint32v`, with the array and the place that
`result` points to. -/
def limbTurn (data : LocalArray n UInt8) (state : LocalArray m UInt32×ℤ) (i : ℕ) :
    Checked (LocalArray m UInt32×ℤ) := do
  let limb ← ecUint8x4ToUint32Left data (i*4)
  let result ← state.1.write state.2 limb
  return (result,state.2+1)

/-- `ec_uint8v_to_uint32v`. The loop goes down from the last word, and the
place that is written goes up. -/
def ecUint8vToUint32v (data : LocalArray n UInt8) (sizeInBytes : ℕ)
    (result : LocalArray m UInt32) : Checked (LocalArray m UInt32) := do
  let (result,_) ← (List.range (sizeInBytes/4)).reverse.foldlM (limbTurn data) (result,0)
  return result

/-- `ec_uint8x4_from_uint32_left`, at a place in an array. -/
def ecUint8x4FromUint32Left (result : LocalArray m UInt8) (field : ℤ) (data : UInt32) :
    Checked (LocalArray m UInt8) := do
  let result ← result.write field ((data &&& 0xFF000000) >>> 24).toUInt8
  let result ← result.write (field+1) ((data &&& 0x00FF0000) >>> 16).toUInt8
  let result ← result.write (field+2) ((data &&& 0x0000FF00) >>> 8).toUInt8
  result.write (field+3) (data &&& 0x000000FF).toUInt8

/-- The loop body of `ec_uint32v_to_uint8v`. -/
def bytesTurn (data : LocalArray n UInt32) (state : LocalArray m UInt8×ℤ) (i : ℕ) :
    Checked (LocalArray m UInt8×ℤ) := do
  let limb ← data.read i
  let result ← ecUint8x4FromUint32Left state.1 state.2 limb
  return (result,state.2+4)

/-- `ec_uint32v_to_uint8v`. -/
def ecUint32vToUint8v (data : LocalArray n UInt32) (sizeInBytes : ℕ)
    (result : LocalArray m UInt8) : Checked (LocalArray m UInt8) := do
  let (result,_) ← (List.range (sizeInBytes/4)).reverse.foldlM (bytesTurn data) (result,0)
  return result

/-- `(size_in_bytes / sizeof(uint32_t)) - 1` with a `size_t` of 32 bits, as an `int`. -/
def firstIndex (sizeInBytes : UInt32) : ℤ := (sizeInBytes/4-1).toInt32.toInt

/-- The first index is the last word's for every size, also for none at all. -/
theorem firstIndex_eq (sizeInBytes : UInt32) :
    firstIndex sizeInBytes=(sizeInBytes.toNat/4 : ℕ)-1 := by
  have hlt := sizeInBytes.toNat_lt
  have hsub : (sizeInBytes/4-1).toNat=(2^32-1+sizeInBytes.toNat/4)%2^32 := by
    rw [UInt32.toNat_sub,UInt32.toNat_div]
    rfl
  rw [firstIndex,←Int32.toInt_toBitVec,UInt32.toBitVec_toInt32,BitVec.toInt_eq_toNat_cond,
    UInt32.toNat_toBitVec,hsub]
  split <;> omega

end Source

section Words

/-- The word of four bytes, the most significant first. -/
def wordOf (b₀ b₁ b₂ b₃ : UInt8) : UInt32 :=
  b₀.toUInt32 <<< 24 ||| b₁.toUInt32 <<< 16 ||| b₂.toUInt32 <<< 8 ||| b₃.toUInt32

/-- The bytes of a word, the most significant first. -/
def bytesOf (w : UInt32) : List UInt8 :=
  [((w &&& 0xFF000000) >>> 24).toUInt8,((w &&& 0x00FF0000) >>> 16).toUInt8,
    ((w &&& 0x0000FF00) >>> 8).toUInt8,(w &&& 0x000000FF).toUInt8]

/-- A word has four bytes. -/
@[simp] theorem length_bytesOf (w : UInt32) : (bytesOf w).length=4 := rfl

/-- A byte that is moved up loses nothing. -/
theorem toNat_shifted (b : UInt8) {shift : UInt32} {k : ℕ} (hshift : shift.toNat%32=k)
    (hk : k ≤ 24) : (b.toUInt32 <<< shift).toNat=2^k*b.toNat := by
  have hpow : 2^k ≤ 2^24 := Nat.pow_le_pow_right (by decide) hk
  have hb : b.toNat ≤ 255 := Nat.le_of_lt_succ b.toNat_lt
  have hmul : 2^k*b.toNat ≤ 2^24*255 := Nat.mul_le_mul hpow hb
  rw [UInt32.toNat_shiftLeft,UInt8.toNat_toUInt32,hshift,Nat.shiftLeft_eq,Nat.mul_comm]
  exact Nat.mod_eq_of_lt (by omega)

/-- The value of a word by its bytes. -/
theorem toNat_wordOf (b₀ b₁ b₂ b₃ : UInt8) :
    (wordOf b₀ b₁ b₂ b₃).toNat=2^24*b₀.toNat+(2^16*b₁.toNat+(2^8*b₂.toNat+b₃.toNat)) := by
  have h₀ := b₀.toNat_lt
  have h₁ := b₁.toNat_lt
  have h₂ := b₂.toNat_lt
  have h₃ := b₃.toNat_lt
  rw [Nat.two_pow_add_eq_or_of_lt (i:=8) (by omega) b₂.toNat,
    Nat.two_pow_add_eq_or_of_lt (i:=16)
      (by rw [←Nat.two_pow_add_eq_or_of_lt (i:=8) (by omega)]; omega) b₁.toNat,
    Nat.two_pow_add_eq_or_of_lt (i:=24) (by
      rw [←Nat.two_pow_add_eq_or_of_lt (i:=8) (by omega),
        ←Nat.two_pow_add_eq_or_of_lt (i:=16) (by omega)]
      omega) b₀.toNat]
  rw [wordOf,UInt32.toNat_or,UInt32.toNat_or,UInt32.toNat_or,Nat.or_assoc,Nat.or_assoc,
    toNat_shifted b₀ (k:=24) rfl (by decide),toNat_shifted b₁ (k:=16) rfl (by decide),
    toNat_shifted b₂ (k:=8) rfl (by decide),UInt8.toNat_toUInt32]

/-- One byte of a word is a digit of its value. -/
theorem toNat_digit (w : UInt32) {mask shift : UInt32} {k : ℕ} (hshift : shift.toNat%32=k)
    (hmask : mask.toNat >>> k=2^8-1) :
    ((w &&& mask) >>> shift).toUInt8.toNat=w.toNat/2^k%2^8 := by
  rw [UInt32.toNat_toUInt8,UInt32.toNat_shiftRight,UInt32.toNat_and,hshift,
    Nat.shiftRight_and_distrib,hmask,Nat.and_two_pow_sub_one_eq_mod,Nat.mod_mod,
    Nat.shiftRight_eq_div_pow]

/-- The values of a word's bytes are the digits of its value. -/
theorem map_toNat_bytesOf (w : UInt32) :
    (bytesOf w).map UInt8.toNat=
      [w.toNat/2^24%2^8,w.toNat/2^16%2^8,w.toNat/2^8%2^8,w.toNat/2^0%2^8] := by
  have hlast : (w &&& 0x000000FF).toUInt8=((w &&& 0x000000FF) >>> 0).toUInt8 := by
    rw [UInt32.shiftRight_zero]
  rw [bytesOf,hlast,List.map_cons,List.map_cons,List.map_cons,List.map_cons,List.map_nil,
    toNat_digit w (k:=24) rfl rfl,toNat_digit w (k:=16) rfl rfl,toNat_digit w (k:=8) rfl rfl,
    toNat_digit w (k:=0) rfl rfl]

/-- Bytes are read back from their word. -/
theorem bytesOf_wordOf (b₀ b₁ b₂ b₃ : UInt8) : bytesOf (wordOf b₀ b₁ b₂ b₃)=[b₀,b₁,b₂,b₃] := by
  have h₀ := b₀.toNat_lt
  have h₁ := b₁.toNat_lt
  have h₂ := b₂.toNat_lt
  have h₃ := b₃.toNat_lt
  refine List.map_injective_iff.mpr (fun a b h => UInt8.toNat_inj.mp h) ?_
  rw [map_toNat_bytesOf,toNat_wordOf]
  simp only [List.map_cons,List.map_nil,List.cons.injEq,and_true]
  omega

/-- The value of a word is that of its bytes. -/
theorem toNat_eq_bytesOf (w : UInt32) :
    Nat.ofDigits 256 ((bytesOf w).reverse.map UInt8.toNat)=w.toNat := by
  have hlt := w.toNat_lt
  rw [List.map_reverse,map_toNat_bytesOf]
  simp only [List.reverse_cons,List.reverse_nil,List.nil_append,List.cons_append,
    Nat.ofDigits_cons,Nat.ofDigits_nil]
  omega

/-- Words are given by their bytes. -/
theorem wordOf_bytesOf {w : UInt32} {b₀ b₁ b₂ b₃ : UInt8} (h : bytesOf w=[b₀,b₁,b₂,b₃]) :
    wordOf b₀ b₁ b₂ b₃=w := by
  rw [←UInt32.toNat_inj,←toNat_eq_bytesOf (wordOf b₀ b₁ b₂ b₃),bytesOf_wordOf,←h,toNat_eq_bytesOf]

/-- A whole number of words makes up every string of four times as many bytes. -/
theorem exists_words (k : ℕ) (bytes : List UInt8) (h : bytes.length=4*k) :
    ∃ words : List UInt32, words.length=k ∧ words.flatMap bytesOf=bytes := by
  induction k generalizing bytes with
  | zero => exact ⟨[],rfl,(List.eq_nil_of_length_eq_zero h).symm⟩
  | succ k ih =>
    match bytes,h with
    | b₀::b₁::b₂::b₃::rest,h =>
      obtain ⟨words,hlength,hwords⟩ := ih rest (by simp only [List.length_cons] at h; omega)
      refine ⟨wordOf b₀ b₁ b₂ b₃::words,by rw [List.length_cons,hlength],?_⟩
      rw [List.flatMap_cons,bytesOf_wordOf,hwords]
      rfl

/-- The limbs in reverse have the value of the bytes. -/
theorem ofDigits_reverse (words : List UInt32) :
    Nat.ofDigits (2^32) (words.reverse.map UInt32.toNat)=
      Nat.ofDigits 256 ((words.flatMap bytesOf).reverse.map UInt8.toNat) := by
  induction words with
  | nil => rfl
  | cons w words ih =>
    have hlength : (words.flatMap bytesOf).length=4*words.length := by
      rw [List.length_flatMap]
      simp [Nat.mul_comm]
    rw [List.reverse_cons,List.map_append,Nat.ofDigits_append,ih,List.flatMap_cons,
      List.reverse_append,List.map_append,Nat.ofDigits_append,toNat_eq_bytesOf]
    simp only [List.length_map,List.length_reverse,List.map_cons,List.map_nil,
      Nat.ofDigits_singleton,hlength,Nat.pow_mul]
    norm_num

/-- A byte of a string of words. -/
theorem getElem?_flatMap (words : List UInt32) {i j : ℕ} (hj : j < 4) {w : UInt32}
    (hw : words[i]?=some w) : (words.flatMap bytesOf)[i*4+j]?=(bytesOf w)[j]? := by
  induction words generalizing i with
  | nil => simp at hw
  | cons w' words ih =>
    rw [List.flatMap_cons]
    cases i with
    | zero =>
      cases hw
      rw [Nat.zero_mul,Nat.zero_add,List.getElem?_append_left (by simpa using hj)]
    | succ i =>
      rw [List.getElem?_append_right (by simp; omega)]
      rw [List.getElem?_cons_succ] at hw
      rw [←ih hw,length_bytesOf]
      congr 1
      omega

end Words
section Loops

variable {α : Type}

/-- A loop fills an array when each of its turns appends to what was written. -/
theorem foldlM_filled {l : List ℕ} {a : LocalArray m α}
    {t : LocalArray m α×ℤ → ℕ → Checked (LocalArray m α×ℤ)} {f : ℕ → List α}
    (hturn : ∀ i∈l, ∀ out a', Filled a out a' → out.length+(f i).length ≤ m →
      ∃ a'', t (a',out.length) i=.ok (a'',(out++f i).length) ∧ Filled a (out++f i) a'')
    {out : List α} {a' : LocalArray m α} (h : Filled a out a')
    (hroom : (out++l.flatMap f).length ≤ m) :
    ∃ a'', l.foldlM t (a',out.length)=.ok (a'',(out++l.flatMap f).length) ∧
      Filled a (out++l.flatMap f) a'' := by
  induction l generalizing out a' with
  | nil => exact ⟨a',by rw [List.flatMap_nil,List.append_nil]; rfl,
      by rwa [List.flatMap_nil,List.append_nil]⟩
  | cons i l ih =>
    rw [List.flatMap_cons,←List.append_assoc] at hroom ⊢
    obtain ⟨a₁,heq,hfilled⟩ := hturn i List.mem_cons_self out a' h (by
      simp only [List.length_append] at hroom
      omega)
    obtain ⟨a₂,heq',hfilled'⟩ :=
      ih (fun j hj => hturn j (List.mem_cons_of_mem i hj)) hfilled hroom
    refine ⟨a₂,?_,hfilled'⟩
    rw [List.foldlM_cons,heq]
    exact heq'

/-- Elements by their indices from the last to the first. -/
theorem flatMap_reverse_range {β : Type} (l : List α) (f : α → List β) (g : ℕ → List β)
    (h : ∀ i x, l[i]?=some x → g i=f x) :
    (List.range l.length).reverse.flatMap g=l.reverse.flatMap f := by
  induction l using List.reverseRecOn with
  | nil => rfl
  | append_singleton l x ih =>
    have hlast := h l.length x (by simp)
    have hfront := ih fun i y hy => h i y (by
      rwa [List.getElem?_append_left (List.getElem?_eq_some_iff.1 hy).1])
    rw [List.length_append,List.length_singleton,List.range_succ,List.reverse_concat,
      List.flatMap_cons,hlast,hfront,List.reverse_concat,List.flatMap_cons]

end Loops

section Conversions

/-- Four bytes in an array are read as their word. -/
theorem ecUint8x4ToUint32Left_eq {data : LocalArray n UInt8} {words : List UInt32}
    (hdata : Holds data (words.flatMap bytesOf)) {i : ℕ} {w : UInt32} (hw : words[i]?=some w) :
    ecUint8x4ToUint32Left data (i*4)=.ok w := by
  obtain ⟨b₀,b₁,b₂,b₃,hbytes⟩ : ∃ b₀ b₁ b₂ b₃, bytesOf w=[b₀,b₁,b₂,b₃] := ⟨_,_,_,_,rfl⟩
  have hread : ∀ (j : ℕ) (b : UInt8), j < 4 → (bytesOf w)[j]?=some b →
      data.read ((i : ℤ)*4+j)=.ok b := by
    intro j b hj hb
    have hcell := hdata (i*4+j) b (by rw [getElem?_flatMap words hj hw,hb])
    rwa [Nat.cast_add,Nat.cast_mul] at hcell
  have h₀ := hread 0 b₀ (by decide) (by rw [hbytes]; rfl)
  have h₁ := hread 1 b₁ (by decide) (by rw [hbytes]; rfl)
  have h₂ := hread 2 b₂ (by decide) (by rw [hbytes]; rfl)
  have h₃ := hread 3 b₃ (by decide) (by rw [hbytes]; rfl)
  rw [Nat.cast_zero,add_zero] at h₀
  rw [Nat.cast_one] at h₁
  rw [Nat.cast_ofNat] at h₂ h₃
  rw [ecUint8x4ToUint32Left,h₀,h₁,h₂,h₃,←wordOf_bytesOf hbytes]
  rfl

/-- The bytes of a word are written behind what was written. -/
theorem ecUint8x4FromUint32Left_filled {a a' : LocalArray m UInt8} {out : List UInt8}
    (h : Filled a out a') (hroom : out.length+4 ≤ m) (w : UInt32) :
    ∃ a'', ecUint8x4FromUint32Left a' out.length w=.ok a'' ∧ Filled a (out++bytesOf w) a'' := by
  obtain ⟨a₀,h₀,hfilled₀⟩ := h.write (by omega) ((w &&& 0xFF000000) >>> 24).toUInt8
  obtain ⟨a₁,h₁,hfilled₁⟩ := hfilled₀.write (by simp; omega) ((w &&& 0x00FF0000) >>> 16).toUInt8
  obtain ⟨a₂,h₂,hfilled₂⟩ := hfilled₁.write (by simp; omega) ((w &&& 0x0000FF00) >>> 8).toUInt8
  obtain ⟨a₃,h₃,hfilled₃⟩ := hfilled₂.write (by simp; omega) (w &&& 0x000000FF).toUInt8
  simp only [List.length_append,List.length_singleton,Nat.cast_add,Nat.cast_one,add_assoc]
    at h₁ h₂ h₃
  refine ⟨a₃,?_,?_⟩
  · rw [ecUint8x4FromUint32Left,h₀]
    dsimp only [bind,Except.bind]
    rw [h₁]
    dsimp only
    rw [show (out.length : ℤ)+2=out.length+(1+1) by omega,h₂]
    dsimp only
    rw [show (out.length : ℤ)+3=out.length+(1+(1+1)) by omega,h₃]
  · rw [bytesOf]
    simpa only [List.append_assoc,List.cons_append,List.nil_append] using hfilled₃

/-- `ec_uint8v_to_uint32v` writes the words from the last to the first. -/
theorem ecUint8vToUint32v_filled {data : LocalArray n UInt8} {words : List UInt32}
    (hdata : Holds data (words.flatMap bytesOf)) (result : LocalArray m UInt32)
    (hroom : words.length ≤ m) :
    ∃ result', ecUint8vToUint32v data (4*words.length) result=.ok result' ∧
      Filled result words.reverse result' := by
  have hflat : (List.range words.length).reverse.flatMap (fun i => words[i]?.toList)=
      words.reverse := by
    rw [flatMap_reverse_range words (fun w => [w]) _ (fun i w hw => by rw [hw]; rfl),
      List.flatMap_singleton']
  obtain ⟨result',heq,hfilled⟩ := foldlM_filled (l:=(List.range words.length).reverse)
    (f:=fun i => words[i]?.toList) (t:=limbTurn data) (fun i hi out a' hout hlt => by
    have hi' : i < words.length := by simpa using hi
    have hw : words[i]?=some words[i] := List.getElem?_eq_getElem hi'
    simp only [hw,Option.toList_some,List.length_singleton] at hlt ⊢
    obtain ⟨a'',hwrite,hfilled⟩ := hout.write hlt words[i]
    refine ⟨a'',?_,hfilled⟩
    rw [limbTurn,ecUint8x4ToUint32Left_eq hdata hw]
    dsimp only [bind,Except.bind]
    rw [hwrite,List.length_append,List.length_singleton,Nat.cast_add]
    rfl) (filled_nil result) (by rw [hflat]; simpa using hroom)
  rw [hflat,List.nil_append] at heq hfilled
  refine ⟨result',?_,hfilled⟩
  rw [ecUint8vToUint32v,Nat.mul_div_cancel_left _ (by decide)]
  exact congrArg (· >>= _) heq

/-- `ec_uint32v_to_uint8v` writes the bytes of the limbs from the last to the first. -/
theorem ecUint32vToUint8v_filled {data : LocalArray n UInt32} {limbs : List UInt32}
    (hdata : Holds data limbs) (result : LocalArray m UInt8) (hroom : 4*limbs.length ≤ m) :
    ∃ result', ecUint32vToUint8v data (4*limbs.length) result=.ok result' ∧
      Filled result (limbs.reverse.flatMap bytesOf) result' := by
  have hflat : (List.range limbs.length).reverse.flatMap
      (fun i => limbs[i]?.toList.flatMap bytesOf)=limbs.reverse.flatMap bytesOf :=
    flatMap_reverse_range limbs bytesOf _ fun i w hw => by
      rw [hw,Option.toList_some,List.flatMap_singleton]
  have hlength : (limbs.reverse.flatMap bytesOf).length=4*limbs.length := by
    rw [List.length_flatMap]
    simp [Nat.mul_comm]
  obtain ⟨result',heq,hfilled⟩ := foldlM_filled (l:=(List.range limbs.length).reverse)
    (f:=fun i => limbs[i]?.toList.flatMap bytesOf)
    (t:=bytesTurn data) (fun i hi out a' hout hlt => by
    have hi' : i < limbs.length := by simpa using hi
    have hw : limbs[i]?=some limbs[i] := List.getElem?_eq_getElem hi'
    simp only [hw,Option.toList_some,List.flatMap_singleton,length_bytesOf] at hlt ⊢
    obtain ⟨a'',hwrite,hfilled⟩ := ecUint8x4FromUint32Left_filled hout hlt limbs[i]
    refine ⟨a'',?_,hfilled⟩
    rw [bytesTurn,hdata i limbs[i] hw]
    dsimp only [bind,Except.bind]
    rw [hwrite,List.length_append,length_bytesOf,Nat.cast_add]
    rfl) (filled_nil result) (by rw [hflat]; simpa [hlength] using hroom)
  rw [hflat,List.nil_append] at heq hfilled
  refine ⟨result',?_,hfilled⟩
  rw [ecUint32vToUint8v,Nat.mul_div_cancel_left _ (by decide)]
  exact congrArg (· >>= _) heq

/-- Bytes and limbs convert exactly. Every string of whole words gives as many
limbs, with the number that the bytes stand for, and gets back to the same
bytes. Every vector of limbs gets back to itself. Nothing else is written. -/
theorem bytes_limbs_exact (k : ℕ) :
    (∀ (bytes : List UInt8), bytes.length=4*k →
      ∀ (n m : ℕ) (data : LocalArray n UInt8) (result : LocalArray m UInt32),
        Holds data bytes → k ≤ m →
        ∃ limbs result', ecUint8vToUint32v data (4*k) result=.ok result' ∧
          limbs.length=k ∧ Filled result limbs result' ∧
          Nat.ofDigits (2^32) (limbs.map UInt32.toNat)=
            Nat.ofDigits 256 (bytes.reverse.map UInt8.toNat) ∧
          ∀ (p : ℕ) (back : LocalArray p UInt8), 4*k ≤ p →
            ∃ back', ecUint32vToUint8v result' (4*k) back=.ok back' ∧ Filled back bytes back') ∧
    (∀ (limbs : List UInt32), limbs.length=k →
      ∀ (n m : ℕ) (data : LocalArray n UInt32) (result : LocalArray m UInt8),
        Holds data limbs → 4*k ≤ m →
        ∃ bytes result', ecUint32vToUint8v data (4*k) result=.ok result' ∧
          bytes.length=4*k ∧ Filled result bytes result' ∧
          ∀ (p : ℕ) (back : LocalArray p UInt32), k ≤ p →
            ∃ back', ecUint8vToUint32v result' (4*k) back=.ok back' ∧ Filled back limbs back') := by
  constructor
  · intro bytes hlength n m data result hdata hroom
    obtain ⟨words,rfl,rfl⟩ := exists_words k bytes hlength
    obtain ⟨result',heq,hfilled⟩ := ecUint8vToUint32v_filled hdata result hroom
    refine ⟨words.reverse,result',heq,List.length_reverse,hfilled,ofDigits_reverse words,?_⟩
    intro p back hback
    have hgo := ecUint32vToUint8v_filled hfilled.holds back (by rwa [List.length_reverse])
    rwa [List.length_reverse,List.reverse_reverse] at hgo
  · intro limbs hlength n m data result hdata hroom
    subst hlength
    obtain ⟨result',heq,hfilled⟩ := ecUint32vToUint8v_filled hdata result hroom
    refine ⟨_,result',heq,by simp [List.length_flatMap,Nat.mul_comm],hfilled,?_⟩
    intro p back hback
    have hgo := ecUint8vToUint32v_filled hfilled.holds back (by rwa [List.length_reverse])
    rwa [List.length_reverse,List.reverse_reverse] at hgo

/-- The two limbs of eight bytes, and the bytes back from them. -/
theorem bytes_limbs_exact_eight :
    ∃ limbs result', ecUint8vToUint32v (ofList [1,2,3,4,5,6,7,8]) 8
        (blank : LocalArray 2 UInt32)=.ok result' ∧
      limbs.length=2 ∧ Filled blank limbs result' ∧
      Nat.ofDigits (2^32) (limbs.map UInt32.toNat)=0x0102030405060708 ∧
      ∀ (p : ℕ) (back : LocalArray p UInt8), 8 ≤ p →
        ∃ back', ecUint32vToUint8v result' 8 back=.ok back' ∧
          Filled back [1,2,3,4,5,6,7,8] back' :=
  (bytes_limbs_exact 2).1 [1,2,3,4,5,6,7,8] rfl 8 2 (ofList [1,2,3,4,5,6,7,8]) blank
    (holds_ofList _) le_rfl

end Conversions

end TrustAlloc.LimbConversion
