import Mathlib.Algebra.BigOperators.Group.List.Basic
import Mathlib.Data.Int.Order.Basic
import Mathlib.Data.List.Induction
import Mathlib.Logic.Function.Basic
import Mathlib.Tactic.Linarith

/-!
# Local arrays

An array of a function holds nothing until it is written, and only has the
cells it was declared with. An access stops at an index outside the array, and
a read at a cell that was not written.
-/

namespace TrustAlloc.LocalArrays

/-- Why a function stops. -/
inductive Fault where
  /-- An index outside an array. -/
  | outside
  /-- A cell that was not written. -/
  | unwritten
  /-- An assertion that fails. -/
  | assertionFailed
  deriving DecidableEq

/-- What may stop. -/
abbrev Checked (α : Type) := Except Fault α

/-- A loop that has not stopped goes on with one turn more. -/
theorem foldlM_concat {ε State Input : Type} {turn : State → Input → Except ε State}
    {l : List Input} {b b' : State} (h : l.foldlM turn b=.ok b') (x : Input) :
    (l++[x]).foldlM turn b=turn b' x := by
  rw [List.foldlM_append,h]
  exact bind_pure (turn b' x)

/-- An array and what its cells hold, if they were written. -/
structure LocalArray (size : ℕ) (α : Type) where
  /-- The cells. -/
  cells : Fin size → Option α

namespace LocalArray

variable {size : ℕ} {α : Type}

/-- The array when it is declared. -/
def blank : LocalArray size α := ⟨fun _ => none⟩

/-- Read the cell at an index. -/
def read (a : LocalArray size α) (i : ℤ) : Checked α :=
  if h : 0 ≤ i ∧ i.toNat < size then
    match a.cells ⟨i.toNat,h.2⟩ with
    | some x => return x
    | none => throw .unwritten
  else throw .outside

/-- Write the cell at an index. -/
def write (a : LocalArray size α) (i : ℤ) (x : α) : Checked (LocalArray size α) :=
  if h : 0 ≤ i ∧ i.toNat < size then return ⟨Function.update a.cells ⟨i.toNat,h.2⟩ (some x)⟩
  else throw .outside

/-- What a loop multiplies out of the cells before an index. -/
def product [Monoid α] (a : LocalArray size α) (n : ℕ) : Checked α :=
  (List.range n).foldlM (fun result (t : ℕ) => do
    let x ← a.read t
    return result*x) 1

/-- One cell was written with a value, and no other. -/
structure Wrote (a : LocalArray size α) (k : ℕ) (x : α) (a' : LocalArray size α) : Prop where
  /-- The cell has the value. -/
  self : a'.read k=.ok x
  /-- The others are as before. -/
  other : ∀ i : ℤ, i≠k → a'.read i=a.read i

/-- There are no cells before the first. -/
theorem read_of_neg (a : LocalArray size α) {i : ℤ} (hi : i < 0) : a.read i=.error .outside := by
  rw [read,dif_neg (by omega)]
  rfl

/-- Nothing was written when the array was declared. -/
theorem read_blank (i : ℤ) : ∃ f, (blank : LocalArray size α).read i=.error f := by
  unfold read
  split <;> exact ⟨_,rfl⟩

/-- A cell inside the array can be written. -/
theorem write_wrote (a : LocalArray size α) {k : ℕ} (hk : k < size) (x : α) :
    ∃ a', a.write k x=.ok a' ∧ Wrote a k x a' := by
  have hinside : 0≤(k : ℤ) ∧ (k : ℤ).toNat < size := by omega
  refine ⟨_,by rw [write,dif_pos hinside]; rfl,?_,fun i hi => ?_⟩
  · rw [read,dif_pos hinside]
    simp only [Function.update_self]
    rfl
  · unfold read
    split
    · next h =>
      dsimp only
      rw [Function.update_of_ne]
      intro heq
      have hval := Fin.val_eq_of_eq heq
      simp only at hval
      omega
    · rfl

section Lists

variable {a a' : LocalArray size α} {l out : List α} {x : α}

/-- The first cells hold the elements of a list. -/
def Holds (a : LocalArray size α) (l : List α) : Prop :=
  ∀ (k : ℕ) (x : α), l[k]?=some x → a.read k=.ok x

/-- Every array holds the elements of the empty list. -/
theorem holds_nil (a : LocalArray size α) : Holds a [] := fun k x hk => by simp at hk

/-- The array that holds a list and has no other cells. -/
def ofList (l : List α) : LocalArray l.length α := ⟨fun i => some (l.get i)⟩

/-- It holds the list. -/
theorem holds_ofList (l : List α) : Holds (ofList l) l := by
  intro k x hk
  obtain ⟨hlt,rfl⟩ := List.getElem?_eq_some_iff.1 hk
  rw [read,dif_pos ⟨by omega,by omega⟩]
  rfl

/-- Writing the cell behind a list appends to it. -/
theorem Holds.append (h : Holds a l) (hw : a.Wrote l.length x a') : Holds a' (l++[x]) := by
  intro k y hk
  by_cases hlast : k=l.length
  · rw [hlast,List.getElem?_concat_length,Option.some.injEq] at hk
    rw [hlast,←hk]
    exact hw.self
  · rw [hw.other k (by omega)]
    refine h k y ?_
    have hlt := (List.getElem?_eq_some_iff.1 hk).1
    rw [List.length_append,List.length_singleton] at hlt
    rwa [List.getElem?_append_left (by omega)] at hk

/-- A list was written to the first cells, and nothing behind it. -/
structure Filled (a : LocalArray size α) (out : List α) (a' : LocalArray size α) : Prop where
  /-- The first cells hold the list. -/
  holds : Holds a' out
  /-- The cells behind are as before. -/
  rest : ∀ i : ℤ, out.length ≤ i → a'.read i=a.read i

/-- Nothing was written. -/
theorem filled_nil (a : LocalArray size α) : Filled a [] a := ⟨holds_nil a,fun _ _ => rfl⟩

/-- One element more is written behind the list. -/
theorem Filled.write {out : List α} (h : Filled a out a') (hroom : out.length < size) (x : α) :
    ∃ a'', a'.write out.length x=.ok a'' ∧ Filled a (out++[x]) a'' := by
  obtain ⟨a'',heq,hw⟩ := write_wrote a' hroom x
  refine ⟨a'',heq,h.holds.append hw,fun i hi => ?_⟩
  rw [List.length_append,List.length_singleton,Nat.cast_add,Nat.cast_one] at hi
  rw [hw.other i (by omega),h.rest i (by omega)]

/-- A list is being filtered in place: the first cells hold what was kept, and
the elements from an index on are still where they were. -/
structure Compacting (a : LocalArray size α) (l : List α) (i : ℕ) (out : List α) : Prop where
  /-- What was kept. -/
  front : Holds a out
  /-- What was not looked at. -/
  back : ∀ (k : ℕ) (x : α), i≤k → l[k]?=some x → a.read k=.ok x

/-- At first nothing was looked at. -/
theorem Holds.compacting (h : Holds a l) : Compacting a l 0 [] :=
  ⟨holds_nil a,fun k x _ hk => h k x hk⟩

/-- An element is left out. -/
theorem Compacting.skip {i : ℕ} (h : Compacting a l i out) : Compacting a l (i+1) out :=
  ⟨h.front,fun k x hk => h.back k x (by omega)⟩

/-- An element is kept. It is written no later than where it was. -/
theorem Compacting.keep {i : ℕ} (h : Compacting a l i out) (hout : out.length ≤ i)
    (hw : a.Wrote out.length x a') : Compacting a' l (i+1) (out++[x]) := by
  refine ⟨h.front.append hw,fun k y hk hy => ?_⟩
  rw [hw.other k (by omega)]
  exact h.back k y (by omega) hy

end Lists

section Product

variable [Monoid α] {a : LocalArray size α}

/-- One factor more. -/
theorem product_succ (n : ℕ) :
    a.product (n+1)=(do
      let result ← a.product n
      let x ← a.read n
      return result*x) := by
  unfold product
  rw [List.range_succ,List.foldlM_append]
  simp only [List.foldlM_cons,List.foldlM_nil,bind_pure]

/-- Cells that were written are multiplied. -/
theorem product_ok {l : List α} (h : Holds a l) :
    a.product l.length=.ok l.prod := by
  induction l using List.reverseRecOn with
  | nil => rfl
  | append_singleton l x ih =>
    have hfront := ih fun k y hk => h k y (by
      rw [List.getElem?_append_left (List.getElem?_eq_some_iff.1 hk).1]
      exact hk)
    have hlast := h l.length x (by simp)
    rw [List.length_append,List.length_singleton,product_succ,hfront,hlast,List.prod_append,
      List.prod_singleton]
    rfl

/-- One cell that cannot be read spoils the product. -/
theorem product_error {k n : ℕ} (hk : k < n) {f : Fault} (h : a.read k=.error f) :
    ∃ f', a.product n=.error f' := by
  induction n with
  | zero => omega
  | succ n ih =>
    rw [product_succ]
    by_cases hlast : k=n
    · subst hlast
      cases hfront : a.product k with
      | error f' => exact ⟨f',rfl⟩
      | ok result =>
        rw [h]
        exact ⟨f,rfl⟩
    · cases ih (by omega) with
      | intro f' hf =>
        rw [hf]
        exact ⟨f',rfl⟩

end Product

end LocalArray

end TrustAlloc.LocalArrays
