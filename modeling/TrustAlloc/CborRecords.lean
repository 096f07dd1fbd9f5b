import TrustAlloc.CborCodec

/-!
# Values that are sent as one item

A serialiser and a deserialiser belong together when the one writes an item
that the other reads, wherever the item stands and whatever follows it. Items
in a row make up an array, which is an item again, so that what is put
together from such pairs is sent as one item too.
-/

namespace TrustAlloc.CborRecords

open Cbor CborCodec Certificates CertificateDecoding Decoding

variable {D α β : Type}

/-- Bytes are one item, given which bytes are floating point numbers. Strings
and maps are left out. -/
inductive IsItem (Number : List UInt8 → Prop) : List UInt8 → Prop where
  /-- An unsigned integer. -/
  | uint {v : ℕ} (h : v < 2^64) : IsItem Number (uintHead v)
  /-- A truth value. -/
  | bool (b : Bool) : IsItem Number (encode (.bool b))
  /-- The null value. -/
  | null : IsItem Number (encode .null)
  /-- A floating point number. -/
  | number {bytes : List UInt8} (h : Number bytes) : IsItem Number bytes
  /-- An array. -/
  | array {items : List (List UInt8)} (hcount : items.length < 2^64)
    (hitems : ∀ i∈items, IsItem Number i) : IsItem Number (arrayHead items.length++items.flatten)

/-- A value is sent as one item. Its bytes are written wherever they fit. They
are read as the value wherever an item may stand, with anything behind them,
and the decoder is left behind them with one item less to come. -/
structure SentAsItem (At : D → Option ℕ → List UInt8 → Prop) (Number : List UInt8 → Prop)
    (serialise : Encoder → Except ℤ Encoder) (deserialise : D → Except ℤ (D×α)) (value : α)
    (bytes : List UInt8) : Prop where
  /-- The bytes. -/
  item : IsItem Number bytes
  /-- The serialiser. -/
  writes : Writes serialise bytes
  /-- The deserialiser. -/
  reads : ∀ dec left rest, left≠some 0 → At dec left (bytes++rest) →
    Decodes At left rest value (deserialise dec)

/-- A value is sent as some items, which are the last ones of their container. -/
structure SentInRow (At : D → Option ℕ → List UInt8 → Prop) (Number : List UInt8 → Prop)
    (count : ℕ) (serialise : Encoder → Except ℤ Encoder) (deserialise : D → Except ℤ (D×α))
    (value : α) (bytes : List UInt8) : Prop where
  /-- The bytes. -/
  items : ∃ l : List (List UInt8), l.length=count ∧ l.flatten=bytes ∧ ∀ i∈l, IsItem Number i
  /-- The serialiser. -/
  writes : Writes serialise bytes
  /-- The deserialiser. -/
  reads : ∀ dec rest, At dec (some count) (bytes++rest) →
    ∃ dec', deserialise dec=.ok (dec',value) ∧ At dec' (some 0) rest

/-- Enter an array, read its items, check that there are no more of them, and
leave it. -/
def readArray (cbor : PublishDecoder D) (items : D → Except ℤ (D×α)) (dec : D) :
    Except ℤ (D×α) := do
  let arr ← nanocborCheck (cbor.enterArray dec)
  let (arr,value) ← items arr
  if cbor.atEnd arr=false then throw cbor.errEnd
  return (cbor.leaveContainer dec arr,value)

section Rules

variable {At : D → Option ℕ → List UInt8 → Prop} {Number : List UInt8 → Prop} {N : Nanocbor}
  {cbor : PublishDecoder D} {serialise serialise' : Encoder → Except ℤ Encoder}
  {deserialise : D → Except ℤ (D×α)} {f : D×α → Except ℤ (D×β)} {x : α} {y : β}
  {a b : List UInt8} {count : ℕ}

/-- A value is sent as one item if what it is made from is. -/
theorem SentAsItem.into (h : SentAsItem At Number serialise deserialise x a)
    (hf : ∀ dec, f (dec,x)=.ok (dec,y)) :
    SentAsItem At Number serialise (fun dec => deserialise dec >>= f) y a := by
  refine ⟨h.item,h.writes,fun dec left rest hleft hdec => ?_⟩
  obtain ⟨dec',hread,hdec'⟩ := h.reads dec left rest hleft hdec
  refine ⟨dec',?_,hdec'⟩
  rw [hread,ok_bind,hf]

/-- The last item. -/
theorem SentAsItem.last (h : SentAsItem At Number serialise deserialise x a)
    (hf : ∀ dec, f (dec,x)=.ok (dec,y)) :
    SentInRow At Number 1 serialise (fun dec => deserialise dec >>= f) y a := by
  refine ⟨⟨[a],rfl,List.flatten_singleton,fun i hi => ?_⟩,h.writes,fun dec rest hdec => ?_⟩
  · rw [List.mem_singleton.mp hi]
    exact h.item
  · exact (h.into hf).reads dec (some 1) rest (by decide) hdec

/-- An item in front of others. -/
theorem SentAsItem.cons (h : SentAsItem At Number serialise deserialise x a)
    (hrest : SentInRow At Number count serialise' (fun dec => f (dec,x)) y b) :
    SentInRow At Number (count+1) (fun enc => serialise enc >>= serialise')
      (fun dec => deserialise dec >>= f) y (a++b) := by
  obtain ⟨l,hlen,hbytes,hitems⟩ := hrest.items
  refine ⟨⟨a::l,by rw [List.length_cons,hlen],by rw [List.flatten_cons,hbytes],?_⟩,
    h.writes.bind hrest.writes,fun dec rest hdec => ?_⟩
  · intro i hi
    rcases List.mem_cons.mp hi with rfl | hin
    · exact h.item
    · exact hitems i hin
  · rw [List.append_assoc] at hdec
    obtain ⟨dec₁,hfirst,hdec₁⟩ := h.reads dec _ _ (by simp) hdec
    obtain ⟨dec₂,hothers,hdec₂⟩ := hrest.reads dec₁ rest hdec₁
    refine ⟨dec₂,?_,hdec₂⟩
    rw [hfirst,ok_bind,hothers]

/-- Items in a row make up an array. -/
theorem SentInRow.array (h : SentInRow At Number count serialise deserialise x a)
    (hN : StandardHeads N) (hcbor : LawfulDecoder cbor At) (hcount : count < 2^32) :
    SentAsItem At Number (fun enc => emitChecked N (N.arrayHead count) enc >>= serialise)
      (readArray cbor deserialise) x (arrayHead count++a) := by
  refine ⟨?_,?_,fun dec left rest hleft hdec => ?_⟩
  · obtain ⟨l,rfl,rfl,hitems⟩ := h.items
    exact .array (by omega) hitems
  · rw [←hN.arrayHead]
    exact (writes_emit hN _).bind h.writes
  · rw [List.append_assoc] at hdec
    obtain ⟨arr,henter,harr⟩ := (hcbor.enterArray dec left count _ hdec hleft hcount).check
    obtain ⟨arr',hitems,harr'⟩ := h.reads arr rest harr
    have hend : cbor.atEnd arr'=true := hcbor.atEnd_container arr' 0 rest harr'
    refine ⟨_,?_,hcbor.leaveContainer dec left _ arr' rest hdec hleft harr'⟩
    unfold readArray
    rw [henter,ok_bind,hitems,ok_bind]
    dsimp only
    rw [hend,if_neg (by decide)]
    rfl

/-- Unsigned integers of 32 bits. -/
theorem sent_uint32 (Number : List UInt8 → Prop) (hN : StandardHeads N)
    (hcbor : LawfulDecoder cbor At) (v : UInt32) :
    SentAsItem At Number (emitChecked N (N.uintHead v.toNat))
      (fun dec => nanocborCheck (cbor.getUint32 dec)) v (uintHead v.toNat) := by
  have hlt := v.toNat_lt
  refine ⟨.uint (by omega),?_,fun dec left rest hleft hdec => ?_⟩
  · rw [←hN.uintHead]
    exact writes_emit hN _
  · have hread := (hcbor.getUint32 dec left _ rest hdec hleft hlt).check
    rwa [UInt32.ofNat_toNat] at hread

end Rules

section Skipping

/-- Items are skipped, wherever they stand and whatever follows them. -/
def SkipsItems (At : D → Option ℕ → List UInt8 → Prop) (Number : List UInt8 → Prop)
    (cbor : PublishDecoder D) : Prop :=
  ∀ dec left bytes rest, IsItem Number bytes → At dec left (bytes++rest) → left≠some 0 →
    0≤(cbor.skip dec).1 ∧ At (cbor.skip dec).2 (left.map (·-1)) rest

/-- Bytes are passed over as one item, with as many turns as there are bytes. -/
structure Passed (bytes : List UInt8) : Prop where
  /-- There are some. -/
  pos : 1≤bytes.length
  /-- They are passed over. -/
  skip : ∀ fuel count rest, bytes.length≤fuel → ∃ fuel', fuel≤fuel'+bytes.length ∧
    skipItems fuel (count+1) (bytes++rest)=skipItems fuel' count rest

/-- Bytes that are a head with nothing behind it are passed over. -/
theorem passed_of_readHead {major v : ℕ} {bytes : List UInt8} (hmajor : major=0 ∨ major=7)
    (hpos : 1≤bytes.length) (hread : ∀ rest, readHead (bytes++rest)=some (major,v,rest)) :
    Passed bytes := by
  refine ⟨hpos,fun fuel count rest hfuel => ?_⟩
  obtain ⟨fuel,rfl⟩ : ∃ k, fuel=k+1 := ⟨fuel-1,by omega⟩
  refine ⟨fuel,by omega,?_⟩
  rw [skipItems,hread]
  dsimp only
  rw [if_neg (by omega),if_neg (by omega),if_neg (by omega),if_neg (by omega)]

/-- So is a head in the shortest form. -/
theorem passed_head {major v : ℕ} (hmajor : major=0 ∨ major=7) (hv : v < 2^64) :
    Passed (head major v) := by
  refine passed_of_readHead hmajor ?_ (readHead_head (by omega) hv)
  rw [length_head]
  exact headLength_pos v

/-- Items in a row are passed over. -/
theorem passed_flatten {l : List (List UInt8)} (h : ∀ i∈l, Passed i) (fuel count : ℕ)
    (rest : List UInt8) (hfuel : l.flatten.length≤fuel) :
    ∃ fuel', fuel≤fuel'+l.flatten.length ∧
      skipItems fuel (count+l.length) (l.flatten++rest)=skipItems fuel' count rest := by
  induction l generalizing fuel with
  | nil => exact ⟨fuel,Nat.le_add_right _ _,rfl⟩
  | cons i l ih =>
    rw [List.flatten_cons,List.length_append] at hfuel ⊢
    obtain ⟨fuel₁,hle₁,hfirst⟩ := (h i List.mem_cons_self).skip fuel (count+l.length)
      (l.flatten++rest) (by omega)
    obtain ⟨fuel₂,hle₂,hothers⟩ := ih (fun j hj => h j (List.mem_cons_of_mem i hj)) fuel₁
      (by omega)
    refine ⟨fuel₂,by omega,?_⟩
    rw [List.append_assoc,List.length_cons,←Nat.add_assoc,hfirst,hothers]

/-- Items are passed over if numbers are. -/
theorem passed_isItem {Number : List UInt8 → Prop} (hnumber : ∀ bytes, Number bytes → Passed bytes)
    {bytes : List UInt8} (h : IsItem Number bytes) : Passed bytes := by
  induction h with
  | uint h => exact passed_head (Or.inl rfl) h
  | bool b => exact passed_head (Or.inr rfl) (by split <;> decide)
  | null => exact passed_head (Or.inr rfl) (by decide)
  | number h => exact hnumber _ h
  | @array items hcount _ ih =>
    have hpos := headLength_pos items.length
    refine ⟨?_,fun fuel count rest hfuel => ?_⟩
    · rw [arrayHead,List.length_append,length_head]
      omega
    · rw [arrayHead,List.length_append,length_head] at hfuel ⊢
      obtain ⟨fuel,rfl⟩ : ∃ k, fuel=k+1 := ⟨fuel-1,by omega⟩
      obtain ⟨fuel',hle,hitems⟩ := passed_flatten ih fuel count rest (by omega)
      refine ⟨fuel',by omega,?_⟩
      rw [List.append_assoc,skipItems_head (by decide) hcount,if_neg (by decide),if_pos rfl,hitems]

/-- The decoder on bytes skips items if it passes over numbers. -/
theorem byteDecoder_skips {Number : List UInt8 → Prop}
    (hnumber : ∀ bytes, Number bytes → Passed bytes) :
    SkipsItems Stands Number byteDecoder.toPublishDecoder := by
  intro p left bytes rest hitem hp hleft
  obtain ⟨fuel,_,hskip⟩ := (passed_isItem hnumber hitem).skip (bytes++rest).length 0 rest (by simp)
  rw [Nat.zero_add] at hskip
  have hdone : skipItems fuel 0 rest=some rest := by rw [skipItems]
  rw [hp]
  simp only [byteDecoder,if_neg hleft,hskip,hdone]
  exact ⟨le_refl _,rfl⟩

end Skipping

end TrustAlloc.CborRecords
