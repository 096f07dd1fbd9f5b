import TrustAlloc.Cbor
import TrustAlloc.CertificateDecoding

/-!
# What the CBOR library is relied on for

The emitter emits heads in the shortest form, and the decoder reads back what
was encoded so, one item at a time, in containers and out of them. The laws
say this of any emitter and decoder; a decoder on bytes that obeys them shows
that they can be met.
-/

namespace TrustAlloc.CborCodec

open Cbor Certificates CertificateDecoding Decoding

/-- The emitter with the heads that trust records need. -/
structure TrustNanocbor extends Nanocbor where
  /-- Head of a map with the given number of entries. -/
  mapHead : ℕ → List UInt8
  /-- Head of a text string of the given length. -/
  tstrHead : ℕ → List UInt8

/-- The decoder with the calls that trust records need. -/
structure TrustDecoder (D : Type) extends PublishDecoder D where
  /-- `nanocbor_enter_map`, with the decoder of the keys and values. -/
  enterMap : D → ℤ×D
  /-- `nanocbor_get_tstr`. -/
  getTstr : D → ℤ×D×List UInt8
  /-- What `nanocbor_get_uint32` leaves where its result goes when it fails. -/
  leftUint32 : D → UInt32 → UInt32

/-- What goes on after a success. -/
theorem ok_bind {α β : Type} (a : α) (f : α → Except ℤ β) : (Except.ok a >>= f)=f a := rfl

section Emitter

/-- Heads are in the shortest form, and what does not fit is an error. -/
structure StandardHeads (N : Nanocbor) : Prop where
  /-- Arrays. -/
  arrayHead : ∀ n, N.arrayHead n=Cbor.arrayHead n
  /-- Unsigned integers. -/
  uintHead : ∀ v, N.uintHead v=Cbor.uintHead v
  /-- Byte strings. -/
  bstrHead : ∀ n, N.bstrHead n=Cbor.bytesHead n
  /-- Errors are negative. -/
  misfit : N.result false<0

/-- So are those of maps and text strings. -/
structure StandardTrustHeads (N : TrustNanocbor) : Prop extends StandardHeads N.toNanocbor where
  /-- Maps. -/
  mapHead : ∀ n, N.mapHead n=Cbor.mapHead n
  /-- Text strings. -/
  tstrHead : ∀ n, N.tstrHead n=Cbor.textHead n

/-- An emitter of the shortest form. -/
def standardNanocbor : TrustNanocbor where
  arrayHead := Cbor.arrayHead
  uintHead := Cbor.uintHead
  bstrHead := Cbor.bytesHead
  mapHead := Cbor.mapHead
  tstrHead := Cbor.textHead
  result fits := bif fits then 0 else -3
  result_fits := by decide

/-- It obeys the laws. -/
theorem standardNanocbor_heads : StandardTrustHeads standardNanocbor :=
  ⟨⟨fun _ => rfl,fun _ => rfl,fun _ => rfl,by decide⟩,fun _ => rfl,fun _ => rfl⟩

/-- `NANOCBOR_CHECK` on an emission. -/
def emitChecked (N : Nanocbor) (bytes : List UInt8) (enc : Encoder) : Except ℤ Encoder :=
  if N.result (enc.fits bytes)<0 then .error (N.result (enc.fits bytes)) else .ok (enc.emit bytes)

/-- `NANOCBOR_CHECK` on a string, which returns what the emission of its bytes
returns and not that of its head. -/
def putChecked (N : Nanocbor) (head bytes : List UInt8) (enc : Encoder) : Except ℤ Encoder :=
  emitChecked N bytes (enc.emit head)

/-- A serialiser writes the given bytes if they fit, and fails if they do not. -/
def Writes (f : Encoder → Except ℤ Encoder) (bytes : List UInt8) : Prop :=
  ∀ enc : Encoder, enc.stored.length≤enc.space →
    (enc.stored.length+bytes.length≤enc.space →
      f enc=.ok ⟨enc.space,enc.len+bytes.length,enc.stored++bytes⟩) ∧
    (enc.space < enc.stored.length+bytes.length → ∃ e, e<0 ∧ f enc=.error e)

section Writing

variable {N : Nanocbor} {f g : Encoder → Except ℤ Encoder} {a b : List UInt8}

/-- A checked emission writes its bytes. -/
theorem writes_emit (hN : StandardHeads N) (bytes : List UInt8) :
    Writes (emitChecked N bytes) bytes := by
  intro enc _
  constructor
  · intro hfits
    have htrue : enc.fits bytes=true := decide_eq_true hfits
    rw [emitChecked,htrue,if_neg (not_lt.mpr N.result_fits),Encoder.emit,if_pos hfits]
  · intro hmisfit
    have hfalse : enc.fits bytes=false := decide_eq_false (Nat.not_le.mpr hmisfit)
    rw [emitChecked,hfalse,if_pos hN.misfit]
    exact ⟨_,hN.misfit,rfl⟩

/-- Serialisers one after the other write their bytes one after the other. -/
theorem Writes.bind (hf : Writes f a) (hg : Writes g b) :
    Writes (fun enc => f enc >>= g) (a++b) := by
  intro enc hstored
  have hlen : (a++b).length=a.length+b.length := List.length_append
  by_cases hfirst : enc.stored.length+a.length≤enc.space
  · have hok := (hf enc hstored).1 hfirst
    have hnext := hg ⟨enc.space,enc.len+a.length,enc.stored++a⟩
      (by rw [List.length_append]; exact hfirst)
    dsimp only at hnext ⊢
    rw [hok,ok_bind,hlen]
    rw [List.length_append] at hnext
    constructor
    · intro hfits
      rw [hnext.1 (by omega),List.append_assoc,Nat.add_assoc]
    · intro hmisfit
      exact hnext.2 (by omega)
  · obtain ⟨e,he,herror⟩ := (hf enc hstored).2 (by omega)
    dsimp only
    rw [herror,hlen]
    constructor
    · intro hfits
      omega
    · intro _
      exact ⟨e,he,rfl⟩

/-- A loop writes the bytes of its elements. -/
theorem writes_foldlM {α : Type} {f : Encoder → α → Except ℤ Encoder} {bytes : α → List UInt8}
    {l : List α} (hf : ∀ x∈l, Writes (fun enc => f enc x) (bytes x)) :
    Writes (fun enc => l.foldlM f enc) (l.flatMap bytes) := by
  induction l with
  | nil =>
    intro enc hstored
    constructor
    · intro _
      simp only [List.foldlM_nil,List.flatMap_nil,List.length_nil,Nat.add_zero,List.append_nil]
      rfl
    · intro hmisfit
      simp only [List.flatMap_nil,List.length_nil] at hmisfit
      omega
  | cons x l ih =>
    have hrest := ih fun y hy => hf y (List.mem_cons_of_mem x hy)
    have hboth := (hf x List.mem_cons_self).bind hrest
    simpa only [List.foldlM_cons,List.flatMap_cons] using hboth

/-- A string and what follows it are written, as long as what comes behind the
head is not shorter than it: else only the head might not fit, which is not
looked at. -/
theorem writes_put (hN : StandardHeads N) (head bytes : List UInt8) (hg : Writes g b)
    (hhead : head.length≤bytes.length+b.length) :
    Writes (fun enc => putChecked N head bytes enc >>= g) (head++(bytes++b)) := by
  have hrest := (writes_emit hN bytes).bind hg
  intro enc hstored
  have hlen : (head++(bytes++b)).length=head.length+(bytes++b).length := List.length_append
  have hbehind : (bytes++b).length=bytes.length+b.length := List.length_append
  by_cases hfits : enc.stored.length+head.length≤enc.space
  · have hemit : enc.emit head=⟨enc.space,enc.len+head.length,enc.stored++head⟩ := if_pos hfits
    have hnext := hrest ⟨enc.space,enc.len+head.length,enc.stored++head⟩
      (by rw [List.length_append]; exact hfits)
    dsimp only [putChecked] at hnext ⊢
    rw [List.length_append] at hnext
    rw [hemit,hlen]
    constructor
    · intro hall
      rw [hnext.1 (by omega),List.append_assoc,Nat.add_assoc]
    · intro hmisfit
      exact hnext.2 (by omega)
  · have hemit : enc.emit head=⟨enc.space,enc.len+head.length,enc.stored⟩ := if_neg hfits
    have hnext := (hrest ⟨enc.space,enc.len+head.length,enc.stored⟩ hstored).2
      (by dsimp only; omega)
    dsimp only [putChecked] at hnext ⊢
    rw [hemit,hlen]
    exact ⟨fun hall => absurd hall (by omega),fun _ => hnext⟩

end Writing

end Emitter

section Decoder

variable {D : Type}

/-- A call reads one item, leaves the decoder behind it, and gives a value. -/
def Reads {α : Type} (At : D → Option ℕ → List UInt8 → Prop) (left : Option ℕ)
    (rest : List UInt8) (value : α) (result : ℤ×D×α) : Prop :=
  0≤ result.1 ∧ At result.2.1 (left.map (·-1)) rest ∧ result.2.2=value

/-- A call enters a container with the given number of items. -/
def Enters (At : D → Option ℕ → List UInt8 → Prop) (count : ℕ) (rest : List UInt8)
    (result : ℤ×D) : Prop := 0≤ result.1 ∧ At result.2 (some count) rest

/-- The laws of a decoder that stands somewhere in some bytes: at the top
level, or in a container with a number of items left, in front of the given
bytes. Items that are there in the shortest form are read. -/
structure LawfulDecoder (cbor : PublishDecoder D) (At : D → Option ℕ → List UInt8 → Prop) :
    Prop where
  /-- A new decoder. -/
  init : ∀ bytes, At (cbor.init bytes) none bytes
  /-- Entering an array. -/
  enterArray : ∀ dec left n rest, At dec left (arrayHead n++rest) → left≠some 0 → n < 2^32 →
    Enters At n rest (cbor.enterArray dec)
  /-- Leaving a container at its end. -/
  leaveContainer : ∀ dec left bytes arr rest, At dec left bytes → left≠some 0 →
    At arr (some 0) rest → At (cbor.leaveContainer dec arr) (left.map (·-1)) rest
  /-- Unsigned integers of 32 bits. -/
  getUint32 : ∀ dec left v rest, At dec left (uintHead v++rest) → left≠some 0 → v < 2^32 →
    Reads At left rest (UInt32.ofNat v) (cbor.getUint32 dec)
  /-- Unsigned integers of 8 bits. -/
  getUint8 : ∀ dec left v rest, At dec left (uintHead v++rest) → left≠some 0 → v < 2^8 →
    Reads At left rest (UInt8.ofNat v) (cbor.getUint8 dec)
  /-- Byte strings. -/
  getBstr : ∀ dec left (b : List UInt8) rest, At dec left (bytesHead b.length++(b++rest)) →
    left≠some 0 → b.length < 2^32 → Reads At left rest b (cbor.getBstr dec)
  /-- Skipping an item. -/
  skip : ∀ dec left item rest, At dec left (encode item++rest) → left≠some 0 → Fits item →
    0≤(cbor.skip dec).1 ∧ At (cbor.skip dec).2 (left.map (·-1)) rest
  /-- The end of a container is where no items are left. -/
  atEnd_container : ∀ dec k rest, At dec (some k) rest → cbor.atEnd dec=decide (k=0)
  /-- The end of the top level is where no bytes are left. -/
  atEnd_top : ∀ dec rest, At dec none rest → cbor.atEnd dec=decide (rest=[])

/-- The laws for the calls that trust records need. -/
structure LawfulTrustDecoder (cbor : TrustDecoder D) (At : D → Option ℕ → List UInt8 → Prop) :
    Prop extends LawfulDecoder cbor.toPublishDecoder At where
  /-- Entering a map. -/
  enterMap : ∀ dec left n rest, At dec left (mapHead n++rest) → left≠some 0 → n < 2^31 →
    Enters At (2*n) rest (cbor.enterMap dec)
  /-- Text strings. -/
  getTstr : ∀ dec left (b : List UInt8) rest, At dec left (textHead b.length++(b++rest)) →
    left≠some 0 → b.length < 2^32 → Reads At left rest b (cbor.getTstr dec)

/-- A function decodes one item, leaves the decoder behind it, and gives a value. -/
def Decodes {α : Type} (At : D → Option ℕ → List UInt8 → Prop) (left : Option ℕ)
    (rest : List UInt8) (value : α) (result : Except ℤ (D×α)) : Prop :=
  ∃ dec, result=.ok (dec,value) ∧ At dec (left.map (·-1)) rest

/-- A decoder that ends well has gone through its first call. -/
theorem ok_of_bind {α β : Type} {x : Except ℤ α} {f : α → Except ℤ β} {b : β}
    (h : (x >>= f)=.ok b) : ∃ a, x=.ok a ∧ f a=.ok b := by
  cases x with
  | error e => cases h
  | ok a => exact ⟨a,rfl,h⟩

/-- A decoder that ends well has passed its check. -/
theorem ok_of_guard {β : Type} {p : Prop} [Decidable p] {e : ℤ} {f : PUnit → Except ℤ β} {b : β}
    (h : (if p then throw e >>= f else f ⟨⟩)=.ok b) : ¬p ∧ f ⟨⟩=.ok b := by
  by_cases hp : p
  · rw [if_pos hp] at h
    cases h
  · rw [if_neg hp] at h
    exact ⟨hp,h⟩

/-- A call that passes `NANOCBOR_CHECK` has succeeded. -/
theorem ok_of_check {α : Type} {result : ℤ×α} {a : α} (h : nanocborCheck result=.ok a) :
    0≤ result.1 ∧ a=result.2 := by
  unfold nanocborCheck at h
  by_cases hneg : result.1<0
  · rw [if_pos hneg] at h
    cases h
  · rw [if_neg hneg] at h
    cases h
    exact ⟨not_lt.mp hneg,rfl⟩

/-- A call that reads an item passes `NANOCBOR_CHECK`. -/
theorem Reads.check {α : Type} {At : D → Option ℕ → List UInt8 → Prop} {left : Option ℕ}
    {rest : List UInt8} {value : α} {result : ℤ×D×α} (h : Reads At left rest value result) :
    Decodes At left rest value (nanocborCheck result) :=
  ⟨result.2.1,by rw [nanocborCheck,if_neg (not_lt.mpr h.1),←h.2.2],h.2.1⟩

/-- So does one that enters a container. -/
theorem Enters.check {At : D → Option ℕ → List UInt8 → Prop} {count : ℕ} {rest : List UInt8}
    {result : ℤ×D} (h : Enters At count rest result) :
    ∃ dec, nanocborCheck result=.ok dec ∧ At dec (some count) rest :=
  ⟨result.2,if_neg (not_lt.mpr h.1),h.2⟩

end Decoder

section Bytes

/-- A decoder that consists of the bytes ahead and, in a container, the number
of items that are left. -/
structure Position where
  /-- The bytes ahead. -/
  ahead : List UInt8
  /-- Items that are left. -/
  left : Option ℕ
  deriving DecidableEq

/-- Behind one more item. -/
def Position.advance (p : Position) (rest : List UInt8) : Position := ⟨rest,p.left.map (·-1)⟩

/-- The argument of the next head, if it is of the given major type. -/
def readArgument (major : ℕ) (p : Position) : Option (ℕ×List UInt8) :=
  if p.left=some 0 then none
  else match readHead p.ahead with
    | none => none
    | some (m,v,rest) => if m=major then some (v,rest) else none

/-- Read a string of the given major type. -/
def readString (major : ℕ) (p : Position) : ℤ×Position×List UInt8 :=
  match readArgument major p with
  | none => (-2,p,[])
  | some (n,rest) =>
    if rest.length < n then (-3,p,[]) else (0,p.advance (rest.drop n),rest.take n)

/-- Enter a container of the given major type, with some items for each element. -/
def readContainer (major items : ℕ) (p : Position) : ℤ×Position :=
  match readArgument major p with
  | none => (-2,p)
  | some (n,rest) => (0,⟨rest,some (items*n)⟩)

/-- The codes for a missing item and for a byte string of another length. -/
theorem endOfBytes_neg : (-3 : ℤ)<0 ∧ (-6 : ℤ)<0 := by decide

/-- A decoder on bytes. -/
def byteDecoder : TrustDecoder Position where
  init bytes := ⟨bytes,none⟩
  enterArray := readContainer 4 1
  leaveContainer p arr := p.advance arr.ahead
  getUint32 p := match readArgument 0 p with
    | none => (-2,p,0)
    | some (v,rest) => if v < 2^32 then (0,p.advance rest,UInt32.ofNat v) else (-1,p,0)
  getBstr := readString 2
  skip p :=
    if p.left=some 0 then (-3,p)
    else match skipItems p.ahead.length 1 p.ahead with
      | none => (-3,p)
      | some rest => (0,p.advance rest)
  atEnd p := p.left.elim (decide (p.ahead=[])) fun k => decide (k=0)
  remaining p := (p.left.getD 0).toUInt32
  getUint8 p := match readArgument 0 p with
    | none => (-2,p,0)
    | some (v,rest) => if v < 2^8 then (0,p.advance rest,UInt8.ofNat v) else (-1,p,0)
  getBool p := match readArgument 7 p with
    | some (20,rest) => (0,p.advance rest,false)
    | some (21,rest) => (0,p.advance rest,true)
    | _ => (-2,p,false)
  getNull p := match readArgument 7 p with
    | some (22,rest) => (0,p.advance rest)
    | _ => (-2,p)
  errEnd := -3
  errTooSmall := -6
  err_neg := endOfBytes_neg
  enterMap := readContainer 5 2
  getTstr := readString 3
  leftUint32 _ _ := 0

/-- A decoder on bytes stands where it says it does. -/
def Stands (p : Position) (left : Option ℕ) (ahead : List UInt8) : Prop := p=⟨ahead,left⟩

/-- The argument of a head is read. -/
theorem readArgument_head (major : ℕ) {v : ℕ} (hmajor : major < 8) (hv : v < 2^64) {left : Option ℕ}
    (hleft : left≠some 0) (rest : List UInt8) :
    readArgument major ⟨head major v++rest,left⟩=some (v,rest) := by
  rw [readArgument,if_neg hleft,readHead_head hmajor hv]
  exact if_pos rfl

/-- A container is entered. -/
theorem readContainer_head (major items : ℕ) {n : ℕ} (hmajor : major < 8) (hn : n < 2^64)
    {p : Position} {left : Option ℕ} {rest : List UInt8} (hp : Stands p left (head major n++rest))
    (hleft : left≠some 0) : Enters Stands (items*n) rest (readContainer major items p) := by
  rw [hp,readContainer,readArgument_head major hmajor hn hleft]
  exact ⟨le_refl _,rfl⟩

/-- A string is read. -/
theorem readString_head {major : ℕ} (hmajor : major < 8) {p : Position} {left : Option ℕ}
    {b rest : List UInt8} (hb : b.length < 2^64)
    (hp : Stands p left (head major b.length++(b++rest))) (hleft : left≠some 0) :
    Reads Stands left rest b (readString major p) := by
  rw [hp,readString,readArgument_head major hmajor hb hleft]
  dsimp only
  rw [if_neg (by simp),List.take_left,List.drop_left]
  exact ⟨le_refl _,rfl,rfl⟩

/-- The decoder on bytes obeys the laws. -/
theorem byteDecoder_lawful : LawfulTrustDecoder byteDecoder Stands where
  init _ := rfl
  enterArray p left n rest hp hleft hn := by
    have henter := readContainer_head 4 1 (by decide) (by omega) hp hleft
    rwa [Nat.one_mul] at henter
  leaveContainer p left bytes arr rest hp hleft harr := by
    rw [hp,harr]
    rfl
  getUint32 p left v rest hp hleft hv := by
    have hread := readArgument_head 0 (by decide) (show v < 2^64 by omega) hleft rest
    rw [hp]
    simp only [byteDecoder,uintHead,hread,if_pos hv]
    exact ⟨le_refl _,rfl,rfl⟩
  getUint8 p left v rest hp hleft hv := by
    have hread := readArgument_head 0 (by decide) (show v < 2^64 by omega) hleft rest
    rw [hp]
    simp only [byteDecoder,uintHead,hread,if_pos hv]
    exact ⟨le_refl _,rfl,rfl⟩
  getBstr p left b rest hp hleft hb := readString_head (by decide) (by omega) hp hleft
  skip p left item rest hp hleft hfits := by
    have hskip := skipItems_encodeItems (encode item++rest).length [item]
      (fun i hi => List.mem_singleton.mp hi ▸ hfits) (by simp [encodeItems]) rest
    rw [encodeItems,encodeItems,List.append_nil,List.length_singleton] at hskip
    rw [hp]
    simp only [byteDecoder,if_neg hleft,hskip]
    exact ⟨le_refl _,rfl⟩
  atEnd_container p k rest hp := by
    rw [hp]
    rfl
  atEnd_top p rest hp := by
    rw [hp]
    rfl
  enterMap p left n rest hp hleft hn :=
    readContainer_head 5 2 (by decide) (by omega) hp hleft
  getTstr p left b rest hp hleft hb := readString_head (by decide) (by omega) hp hleft

end Bytes

end TrustAlloc.CborCodec
