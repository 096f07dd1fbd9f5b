import Mathlib.Algebra.Group.Nat.Defs
import Mathlib.Data.List.Basic

/-!
# Concise binary object representation

Items of CBOR, without tags, floating point and negative numbers, and their
encoding in the shortest form. An item starts with a head that carries its
major type and an argument in as few bytes as possible. Heads are read back,
whatever follows them, and whole items can be skipped without looking at what
is in them.
-/

namespace TrustAlloc.Cbor

section Heads

/-- The lowest bytes of a number, the highest of them first. -/
def bigEndian : ℕ → ℕ → List UInt8
  | 0,_ => []
  | k+1,v => bigEndian k (v/256)++[UInt8.ofNat v]

/-- The number that bytes stand for, the highest first. -/
def ofBigEndian (bytes : List UInt8) : ℕ := bytes.foldl (fun v b => 256*v+b.toNat) 0

/-- There are as many bytes as asked for. -/
@[simp] theorem length_bigEndian (k v : ℕ) : (bigEndian k v).length=k := by
  induction k generalizing v with
  | zero => rfl
  | succ k ih => simp [bigEndian,ih]

/-- A number that fits its bytes is read back from them. -/
theorem ofBigEndian_bigEndian {k v : ℕ} (h : v < 256^k) : ofBigEndian (bigEndian k v)=v := by
  induction k generalizing v with
  | zero =>
    have hzero : v=0 := by simpa using h
    rw [hzero]
    rfl
  | succ k ih =>
    have hdiv : v/256 < 256^k := Nat.div_lt_of_lt_mul (by rwa [Nat.pow_succ,Nat.mul_comm] at h)
    have hrest := ih hdiv
    unfold ofBigEndian at hrest ⊢
    rw [bigEndian,List.foldl_append,hrest,List.foldl_cons,List.foldl_nil,UInt8.toNat_ofNat']
    omega

/-- The head of an item of the given major type, in the shortest form. -/
def head (major v : ℕ) : List UInt8 :=
  if v < 24 then [UInt8.ofNat (32*major+v)]
  else if v < 2^8 then UInt8.ofNat (32*major+24)::bigEndian 1 v
  else if v < 2^16 then UInt8.ofNat (32*major+25)::bigEndian 2 v
  else if v < 2^32 then UInt8.ofNat (32*major+26)::bigEndian 4 v
  else UInt8.ofNat (32*major+27)::bigEndian 8 v

/-- The length of a head by its argument. -/
def headLength (v : ℕ) : ℕ :=
  if v < 24 then 1 else if v < 2^8 then 2 else if v < 2^16 then 3 else if v < 2^32 then 5 else 9

/-- The length of a head does not depend on the major type. -/
@[simp] theorem length_head (major v : ℕ) : (head major v).length=headLength v := by
  unfold head headLength
  split_ifs <;> simp

/-- A head has at least one byte. -/
theorem headLength_pos (v : ℕ) : 1≤headLength v := by
  unfold headLength
  split_ifs <;> decide

/-- A head has at most nine bytes. -/
theorem headLength_le_nine (v : ℕ) : headLength v≤9 := by
  unfold headLength
  split_ifs <;> decide

/-- A head with a 32-bit argument has at most five bytes. -/
theorem headLength_le {v : ℕ} (h : v < 2^32) : headLength v≤5 := by
  unfold headLength
  split_ifs <;> omega

/-- A head is at most one byte longer than what it announces. -/
theorem headLength_le_succ (v : ℕ) : headLength v≤v+1 := by
  unfold headLength
  split_ifs <;> omega

/-- The bytes of an argument that follow the first byte of a head. -/
def argumentWidth (info : ℕ) : Option ℕ :=
  if info < 24 then some 0
  else if info=24 then some 1
  else if info=25 then some 2
  else if info=26 then some 4
  else if info=27 then some 8
  else none

/-- Read a head: the major type, the argument and what follows. -/
def readHead : List UInt8 → Option (ℕ×ℕ×List UInt8)
  | [] => none
  | b::rest =>
    match argumentWidth (b.toNat%32) with
    | none => none
    | some 0 => some (b.toNat/32,b.toNat%32,rest)
    | some (w+1) =>
      if rest.length < w+1 then none
      else some (b.toNat/32,ofBigEndian (rest.take (w+1)),rest.drop (w+1))

/-- Reading a head whose argument is in bytes of its own. -/
theorem readHead_bigEndian {major info w v : ℕ} (hmajor : major < 8) (hinfo : info < 32)
    (hw : argumentWidth info=some (w+1)) (hv : v < 256^(w+1)) (rest : List UInt8) :
    readHead (UInt8.ofNat (32*major+info)::bigEndian (w+1) v++rest)=some (major,v,rest) := by
  have hbyte : (UInt8.ofNat (32*major+info)).toNat=32*major+info := by
    rw [UInt8.toNat_ofNat']
    omega
  have hmod : (32*major+info)%32=info := by omega
  have hdiv : (32*major+info)/32=major := by omega
  have hlong : ¬(bigEndian (w+1) v++rest).length < w+1 := by
    rw [List.length_append,length_bigEndian]
    omega
  rw [List.cons_append,readHead,hbyte,hmod,hdiv,hw]
  dsimp only
  rw [if_neg hlong,List.take_left' (length_bigEndian _ _),List.drop_left' (length_bigEndian _ _),
    ofBigEndian_bigEndian hv]

/-- A head is read back, whatever follows it. -/
theorem readHead_head {major v : ℕ} (hmajor : major < 8) (hv : v < 2^64) (rest : List UInt8) :
    readHead (head major v++rest)=some (major,v,rest) := by
  unfold head
  split_ifs with h24 h8 h16 h32
  · have hbyte : (UInt8.ofNat (32*major+v)).toNat=32*major+v := by
      rw [UInt8.toNat_ofNat']
      omega
    have hmod : (32*major+v)%32=v := by omega
    have hdiv : (32*major+v)/32=major := by omega
    rw [List.cons_append,List.nil_append,readHead,hbyte,hmod,hdiv,argumentWidth,if_pos h24]
  · exact readHead_bigEndian hmajor (by decide) rfl (by omega) rest
  · exact readHead_bigEndian hmajor (by decide) rfl (by omega) rest
  · exact readHead_bigEndian hmajor (by decide) rfl (by omega) rest
  · exact readHead_bigEndian hmajor (by decide) rfl (by omega) rest

end Heads

section Items

/-- An item. -/
inductive Item where
  /-- An unsigned integer. -/
  | uint (v : ℕ)
  /-- A byte string. -/
  | bytes (b : List UInt8)
  /-- A text string, by its bytes. -/
  | text (b : List UInt8)
  /-- An array. -/
  | array (items : List Item)
  /-- A map, as its keys and values in order. -/
  | map (entries : List (Item×Item))
  /-- A truth value. -/
  | bool (b : Bool)
  /-- The null value. -/
  | null

/-- The head of an unsigned integer. -/
def uintHead (v : ℕ) : List UInt8 := head 0 v

/-- The head of a byte string of the given length. -/
def bytesHead (n : ℕ) : List UInt8 := head 2 n

/-- The head of a text string of the given length. -/
def textHead (n : ℕ) : List UInt8 := head 3 n

/-- The head of an array of the given length. -/
def arrayHead (n : ℕ) : List UInt8 := head 4 n

/-- The head of a map with the given number of entries. -/
def mapHead (n : ℕ) : List UInt8 := head 5 n

mutual

/-- The encoding of an item in the shortest form. -/
def encode : Item → List UInt8
  | .uint v => uintHead v
  | .bytes b => bytesHead b.length++b
  | .text b => textHead b.length++b
  | .array items => arrayHead items.length++encodeItems items
  | .map entries => mapHead entries.length++encodeEntries entries
  | .bool b => head 7 (if b=true then 21 else 20)
  | .null => head 7 22

/-- The encodings of items one after the other. -/
def encodeItems : List Item → List UInt8
  | [] => []
  | item::items => encode item++encodeItems items

/-- The encodings of the keys and values of a map. -/
def encodeEntries : List (Item×Item) → List UInt8
  | [] => []
  | (key,value)::entries => encode key++encode value++encodeEntries entries

end

/-- The keys and values of a map as items in order. -/
def entryItems (entries : List (Item×Item)) : List Item := entries.flatMap fun e => [e.1,e.2]

/-- A map has two items for each entry. -/
@[simp] theorem length_entryItems (entries : List (Item×Item)) :
    (entryItems entries).length=2*entries.length := by
  induction entries with
  | nil => rfl
  | cons e entries ih =>
    simp only [entryItems,List.flatMap_cons,List.length_append,List.length_cons] at ih ⊢
    simp only [ih,List.length_nil]
    omega

/-- The encodings of a map's entries are those of its items. -/
theorem encodeEntries_eq (entries : List (Item×Item)) :
    encodeEntries entries=encodeItems (entryItems entries) := by
  induction entries with
  | nil => rfl
  | cons e entries ih =>
    obtain ⟨key,value⟩ := e
    simp only [encodeEntries,ih,entryItems,List.flatMap_cons,List.cons_append,List.nil_append,
      encodeItems,List.append_assoc]

/-- The entries of a map that lists a key and a value for each of something. -/
theorem encodeEntries_map {α : Type} (f : α → Item×Item) (l : List α) :
    encodeEntries (l.map f)=l.flatMap fun x => encode (f x).1++encode (f x).2 := by
  induction l with
  | nil => rfl
  | cons x l ih => rw [List.map_cons,encodeEntries,ih,List.flatMap_cons]

/-- Items are encoded one after the other. -/
theorem encodeItems_append (items items' : List Item) :
    encodeItems (items++items')=encodeItems items++encodeItems items' := by
  induction items with
  | nil => rfl
  | cons item items ih => simp only [List.cons_append,encodeItems,ih,List.append_assoc]

/-- All numbers and lengths in an item fit the argument of a head. -/
inductive Fits : Item → Prop where
  /-- An unsigned integer. -/
  | uint {v : ℕ} (h : v < 2^64) : Fits (.uint v)
  /-- A byte string. -/
  | bytes {b : List UInt8} (h : b.length < 2^64) : Fits (.bytes b)
  /-- A text string. -/
  | text {b : List UInt8} (h : b.length < 2^64) : Fits (.text b)
  /-- An array. -/
  | array {items : List Item} (h : items.length < 2^64) (hitems : ∀ i∈items, Fits i) :
    Fits (.array items)
  /-- A map. -/
  | map {entries : List (Item×Item)} (h : entries.length < 2^64)
    (hkeys : ∀ e∈entries, Fits e.1) (hvalues : ∀ e∈entries, Fits e.2) : Fits (.map entries)
  /-- A truth value. -/
  | bool (b : Bool) : Fits (.bool b)
  /-- The null value. -/
  | null : Fits .null

/-- An array fits if each item in it does. -/
theorem Fits.row {items : List Item} (h : items.length < 2^64) (hitems : items.Forall Fits) :
    Fits (.array items) :=
  .array h (List.forall_iff_forall_mem.mp hitems)

/-- An encoder emits the shortest form of all items that fit. -/
def Canonical (dumps : Item → List UInt8) : Prop := ∀ item, Fits item → dumps item=encode item

/-- The encoding in the shortest form does. -/
theorem canonical_encode : Canonical encode := fun _ _ => rfl

/-- Skip a number of items. The first number bounds the heads that are read. -/
def skipItems : ℕ → ℕ → List UInt8 → Option (List UInt8)
  | _,0,bytes => some bytes
  | 0,_+1,_ => none
  | fuel+1,count+1,bytes =>
    match readHead bytes with
    | none => none
    | some (major,v,rest) =>
      if major=2 ∨ major=3 then
        if rest.length < v then none else skipItems fuel count (rest.drop v)
      else if major=4 then skipItems fuel (count+v) rest
      else if major=5 then skipItems fuel (count+2*v) rest
      else if major=6 then skipItems fuel (count+1) rest
      else skipItems fuel count rest

/-- Skipping looks at the head of the next item. -/
theorem skipItems_head {major v : ℕ} (hmajor : major < 8) (hv : v < 2^64) (fuel count : ℕ)
    (rest : List UInt8) :
    skipItems (fuel+1) (count+1) (head major v++rest)=
      if major=2 ∨ major=3 then
        if rest.length < v then none else skipItems fuel count (rest.drop v)
      else if major=4 then skipItems fuel (count+v) rest
      else if major=5 then skipItems fuel (count+2*v) rest
      else if major=6 then skipItems fuel (count+1) rest
      else skipItems fuel count rest := by
  rw [skipItems,readHead_head hmajor hv]

/-- Every item takes at least one byte. -/
theorem length_encode_pos (item : Item) : 1≤(encode item).length := by
  cases item <;>
    simp only [encode,uintHead,bytesHead,textHead,arrayHead,mapHead,List.length_append,length_head]
  case uint v => exact headLength_pos v
  case bytes b => exact Nat.le_add_right_of_le (headLength_pos _)
  case text b => exact Nat.le_add_right_of_le (headLength_pos _)
  case array items => exact Nat.le_add_right_of_le (headLength_pos _)
  case map entries => exact Nat.le_add_right_of_le (headLength_pos _)
  case bool b => exact headLength_pos _
  case null => exact headLength_pos _

/-- Encoded items are skipped, whatever is in them and whatever follows. -/
theorem skipItems_encodeItems (fuel : ℕ) (items : List Item) (hfits : ∀ i∈items, Fits i)
    (hfuel : (encodeItems items).length≤fuel) (rest : List UInt8) :
    skipItems fuel items.length (encodeItems items++rest)=some rest := by
  induction fuel generalizing items with
  | zero =>
    cases items with
    | nil => rfl
    | cons item items =>
      have hpos := length_encode_pos item
      simp only [encodeItems,List.length_append] at hfuel
      omega
  | succ fuel ih =>
    cases items with
    | nil => rw [List.length_nil,skipItems,encodeItems,List.nil_append]
    | cons item items =>
      have hitem := hfits item List.mem_cons_self
      have hrest : ∀ i∈items, Fits i := fun i hi => hfits i (List.mem_cons_of_mem item hi)
      have hpos := length_encode_pos item
      rw [encodeItems,List.length_append] at hfuel
      rw [List.length_cons,encodeItems,List.append_assoc]
      cases hitem with
      | uint h =>
        rw [encode,uintHead,skipItems_head (by decide) h]
        exact ih _ hrest (by omega)
      | @bytes b h =>
        rw [encode,bytesHead,List.append_assoc,skipItems_head (by decide) h,if_pos (Or.inl rfl),
          if_neg (by simp),List.drop_left]
        exact ih _ hrest (by omega)
      | @text b h =>
        rw [encode,textHead,List.append_assoc,skipItems_head (by decide) h,if_pos (Or.inr rfl),
          if_neg (by simp),List.drop_left]
        exact ih _ hrest (by omega)
      | @array inner h hinner =>
        have hhead := headLength_pos inner.length
        rw [encode,arrayHead,List.length_append,length_head] at hfuel
        rw [encode,arrayHead,List.append_assoc,skipItems_head (by decide) h,if_neg (by decide),
          if_pos rfl,←List.append_assoc,←encodeItems_append,Nat.add_comm,←List.length_append]
        refine ih _ (fun i hi => (List.mem_append.mp hi).elim (hinner i) (hrest i)) ?_
        rw [encodeItems_append,List.length_append]
        omega
      | @map entries h hkeys hvalues =>
        have hhead := headLength_pos entries.length
        have hinner : ∀ i∈entryItems entries, Fits i := fun i hi => by
          obtain ⟨e,he,hie⟩ := List.mem_flatMap.mp hi
          rcases List.mem_cons.mp hie with rfl | hi'
          · exact hkeys e he
          · rw [List.mem_singleton.mp hi']
            exact hvalues e he
        rw [encode,mapHead,List.length_append,length_head,encodeEntries_eq] at hfuel
        rw [encode,mapHead,List.append_assoc,skipItems_head (by decide) h,if_neg (by decide),
          if_neg (by decide),if_pos rfl,encodeEntries_eq,←List.append_assoc,←encodeItems_append,
          Nat.add_comm,←length_entryItems,←List.length_append]
        refine ih _ (fun i hi => (List.mem_append.mp hi).elim (hinner i) (hrest i)) ?_
        rw [encodeItems_append,List.length_append]
        omega
      | bool b =>
        rw [encode,skipItems_head (by decide) (by split <;> decide)]
        exact ih _ hrest (by omega)
      | null =>
        rw [encode,skipItems_head (by decide) (by decide)]
        exact ih _ hrest (by omega)

end Items

end TrustAlloc.Cbor
