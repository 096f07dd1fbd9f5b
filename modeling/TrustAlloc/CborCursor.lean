import Mathlib.Data.Int.Notation
import Mathlib.Data.Nat.Notation
import Mathlib.Data.UInt

/-!
# Items in front of a decoder

What stands in front of a decoder is described without the bytes: the next
item as far as its head tells, the decoder behind it, and the end of a
container. A shape says what an item has to be, and a decoder passes from one
position to another over an item of a shape. Calls of a library are described
by what they yield; nothing is said about what a failing call leaves.
-/

namespace TrustAlloc.CborCursor

variable {D α β : Type}

/-- The next item, as far as its head tells. -/
inductive Next (D : Type) where
  /-- An unsigned integer. -/
  | uint (v : ℕ)
  /-- A byte string. -/
  | bytes (b : List UInt8)
  /-- An array, by the decoder in front of its items. -/
  | array (items : D)
  /-- Anything else, or no item. -/
  | other
  deriving DecidableEq

/-- What stands in front of decoders. -/
structure Cursor (D : Type) where
  /-- The next item. -/
  next : D → Next D
  /-- The decoder behind an integer or a string. -/
  behind : D → D
  /-- The decoder behind an array, given the decoder behind its items. -/
  leave : D → D → D
  /-- Whether no items are left. -/
  exhausted : D → Bool
  /-- Then there is no next item. -/
  next_exhausted : ∀ d, exhausted d=true → next d=.other

/-- The next item if it is an unsigned integer below a bound. -/
def Cursor.uintAt (cur : Cursor D) (bound : ℕ) (d : D) : Option ℕ :=
  match cur.next d with
  | .uint v => if v < bound then some v else none
  | _ => none

/-- Such an integer is below the bound. -/
theorem Cursor.uintAt_lt {cur : Cursor D} {bound v : ℕ} {d : D} (h : cur.uintAt bound d=some v) :
    v < bound := by
  unfold uintAt at h
  split at h
  · split at h
    · next hlt =>
      cases h
      exact hlt
    · cases h
  · cases h

/-- The next item if it is a byte string. -/
def Cursor.bytesAt (cur : Cursor D) (d : D) : Option (List UInt8) :=
  match cur.next d with
  | .bytes b => some b
  | _ => none

/-- The next item if it is an array, by the decoder in front of its items. -/
def Cursor.arrayAt (cur : Cursor D) (d : D) : Option D :=
  match cur.next d with
  | .array items => some items
  | _ => none

/-- An array is found exactly where there is one. -/
theorem Cursor.arrayAt_eq_some_iff {cur : Cursor D} {d arr : D} :
    cur.arrayAt d=some arr ↔ cur.next d=.array arr := by
  unfold arrayAt
  cases hnext : cur.next d with
  | array items => simp
  | _ => exact iff_of_false nofun nofun

section Shapes

/-- What an item has to be. -/
inductive Shape where
  /-- An unsigned integer below a bound and with a property. -/
  | uint (bound : ℕ) (p : ℕ → Prop)
  /-- A byte string of a length. -/
  | bytes (size : ℕ)
  /-- An array of exactly these items. -/
  | array (shapes : List Shape)

mutual

/-- An item of a shape stands between two decoders. -/
def Matches (cur : Cursor D) : Shape → D → D → Prop
  | .uint bound p,d,d' => ∃ v, p v ∧ cur.uintAt bound d=some v ∧ d'=cur.behind d
  | .bytes size,d,d' => ∃ b, b.length=size ∧ cur.bytesAt d=some b ∧ d'=cur.behind d
  | .array shapes,d,d' => ∃ arr arr', cur.arrayAt d=some arr ∧ MatchesAll cur shapes arr arr' ∧
      cur.exhausted arr'=true ∧ d'=cur.leave d arr'

/-- Items of some shapes stand between two decoders. -/
def MatchesAll (cur : Cursor D) : List Shape → D → D → Prop
  | [],d,d' => d'=d
  | shape::shapes,d,d' => ∃ d₁, Matches cur shape d d₁ ∧ MatchesAll cur shapes d₁ d'

end

/-- A function succeeds exactly at the items of a shape, and then the decoder
that it returns is the one behind the item. -/
def Accepts (cur : Cursor D) (f : D → Except ℤ (D×α)) (shape : Shape) : Prop :=
  ∀ d d', (∃ a, f d=.ok (d',a)) ↔ Matches cur shape d d'

end Shapes

end TrustAlloc.CborCursor
