import TrustAlloc.Cbor

/-!
# Reading whole items

A reader of encoded items, which gives back what was encoded. It follows the
heads: a string takes its bytes, a container the items that it announces. The
first number bounds how deep and how far it reads; the length of the bytes is
always enough.
-/

namespace TrustAlloc.Cbor

/-- Items in turn as keys and values. -/
def pairItems : List Item → List (Item×Item)
  | key::value::items => (key,value)::pairItems items
  | _ => []

/-- The items of a map are its keys and values. -/
theorem pairItems_entryItems (entries : List (Item×Item)) :
    pairItems (entryItems entries)=entries := by
  induction entries with
  | nil => rfl
  | cons e entries ih =>
    change (e.1,e.2)::pairItems (entryItems entries)=e::entries
    rw [ih]

/-- A string of the given length, and what follows it. -/
def readBytes (make : List UInt8 → Item) (n : ℕ) (bytes : List UInt8) :
    Option (Item×List UInt8) :=
  if bytes.length < n then none else some (make (bytes.take n),bytes.drop n)

/-- A truth value or the null value. -/
def simpleItem (v : ℕ) : Option Item :=
  if v=20 then some (.bool false)
  else if v=21 then some (.bool true)
  else if v=22 then some .null
  else none

/-- Read a number of items: the items, and what follows them. -/
def readItems : ℕ → ℕ → List UInt8 → Option (List Item×List UInt8)
  | _,0,bytes => some ([],bytes)
  | 0,_+1,_ => none
  | fuel+1,count+1,bytes => do
    let (major,v,rest) ← readHead bytes
    let (item,rest) ←
      if major=0 then some (Item.uint v,rest)
      else if major=2 then readBytes .bytes v rest
      else if major=3 then readBytes .text v rest
      else if major=4 then (readItems fuel v rest).map fun r => (Item.array r.1,r.2)
      else if major=5 then (readItems fuel (2*v) rest).map fun r => (Item.map (pairItems r.1),r.2)
      else if major=7 then (simpleItem v).map fun item => (item,rest)
      else none
    let (items,rest) ← readItems fuel count rest
    return (item::items,rest)

/-- Read one item; what follows it is left alone. -/
def readItem (bytes : List UInt8) : Option Item :=
  (readItems bytes.length 1 bytes).bind fun r => r.1.head?

/-- A string is read back. -/
theorem readBytes_append (make : List UInt8 → Item) (b rest : List UInt8) :
    readBytes make b.length (b++rest)=some (make b,rest) := by
  rw [readBytes,if_neg (by simp),List.take_left,List.drop_left]

/-- Encoded items are read back, whatever follows them. -/
theorem readItems_encodeItems (fuel : ℕ) (items : List Item) (hfits : ∀ i∈items, Fits i)
    (hfuel : (encodeItems items).length≤fuel) (rest : List UInt8) :
    readItems fuel items.length (encodeItems items++rest)=some (items,rest) := by
  induction fuel generalizing items rest with
  | zero =>
    cases items with
    | nil => rfl
    | cons item items =>
      have hpos := length_encode_pos item
      simp only [encodeItems,List.length_append] at hfuel
      omega
  | succ fuel ih =>
    cases items with
    | nil => rw [List.length_nil,readItems,encodeItems,List.nil_append]
    | cons item items =>
      have hitem := hfits item List.mem_cons_self
      have hpos := length_encode_pos item
      rw [encodeItems,List.length_append] at hfuel
      have htail := ih items (fun i hi => hfits i (List.mem_cons_of_mem item hi)) (by omega) rest
      rw [List.length_cons,encodeItems,List.append_assoc,readItems]
      cases hitem with
      | uint h =>
        rw [encode,uintHead,readHead_head (by decide) h]
        simp [htail]
      | bytes h =>
        rw [encode,bytesHead,List.append_assoc,readHead_head (by decide) h]
        simp [readBytes_append,htail]
      | text h =>
        rw [encode,textHead,List.append_assoc,readHead_head (by decide) h]
        simp [readBytes_append,htail]
      | @array inner h hinner =>
        have hhead := headLength_pos inner.length
        rw [encode,arrayHead,List.length_append,length_head] at hfuel
        have hnested := ih inner hinner (by omega) (encodeItems items++rest)
        rw [encode,arrayHead,List.append_assoc,readHead_head (by decide) h]
        simp [hnested,htail]
      | @map entries h hkeys hvalues =>
        have hhead := headLength_pos entries.length
        rw [encode,mapHead,List.length_append,length_head,encodeEntries_eq] at hfuel
        have hinner : ∀ i∈entryItems entries, Fits i := by
          intro i hi
          obtain ⟨e,he,hmem⟩ := List.mem_flatMap.mp hi
          simp only [List.mem_cons,List.not_mem_nil,or_false] at hmem
          rcases hmem with rfl | rfl
          · exact hkeys e he
          · exact hvalues e he
        have hnested := ih (entryItems entries) hinner (by omega) (encodeItems items++rest)
        rw [length_entryItems] at hnested
        rw [encode,mapHead,List.append_assoc,readHead_head (by decide) h,encodeEntries_eq]
        simp [hnested,pairItems_entryItems,htail]
      | bool b =>
        have hv : (if b=true then 21 else 20) < 2^64 := by
          split <;> decide
        rw [encode,readHead_head (by decide) hv]
        cases b <;> simp [simpleItem,htail]
      | null =>
        rw [encode,readHead_head (by decide) (by decide)]
        simp [simpleItem,htail]

/-- An encoded item is read back. -/
theorem readItem_encode {item : Item} (h : Fits item) : readItem (encode item)=some item := by
  have hread := readItems_encodeItems (encode item).length [item]
    (fun i hi => List.mem_singleton.mp hi ▸ h) (by simp [encodeItems]) []
  simp only [List.length_singleton,encodeItems,List.append_nil] at hread
  rw [readItem,hread]
  rfl

/-- A reader gives back all items that fit from their shortest form. -/
def ReadsBack (loads : List UInt8 → Option Item) : Prop :=
  ∀ item, Fits item → loads (encode item)=some item

/-- The reader of one item does. -/
theorem readsBack_readItem : ReadsBack readItem := fun _ h => readItem_encode h

end TrustAlloc.Cbor
