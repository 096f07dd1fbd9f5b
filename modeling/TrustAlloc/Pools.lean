import Mathlib.Data.List.Perm.Basic
import Mathlib.Data.List.NodupEquivFin
import Mathlib.Data.Fintype.Card
import Mathlib.Logic.Function.Basic

/-!
# Fixed block pools and the lists that own their blocks

A pool is a static array of blocks with one use flag each; a block keeps its
contents when it is freed. Which free block an allocation returns is left to
a policy that carries its contract. Intrusive lists of blocks are read as
lists of block indices. `Owns` says that the used blocks are exactly those
on a list, each once; it is the invariant that allocation and freeing keep.
A history counts what happened to each block.
-/

namespace TrustAlloc.Pools

/-- A static pool of `n` blocks: the use flags and the contents of all blocks. -/
structure Memb (n : ℕ) (α : Type*) where
  /-- Use flag of every block. -/
  used : Fin n → Bool
  /-- Contents of every block, which outlive the freeing of the block. -/
  mem : Fin n → α

/-- An allocation policy together with its contract. -/
structure Allocator (n : ℕ) where
  /-- Block chosen for the given use flags, if any is left. -/
  pick : (Fin n → Bool) → Option (Fin n)
  /-- Only a free block is ever chosen. -/
  pick_free : ∀ {used i}, pick used=some i → used i=false
  /-- The policy gives up only when every block is in use. -/
  pick_none : ∀ {used}, pick used=none → ∀ i, used i=true

/-- The policy that returns the first free block of the array. -/
def firstFit (n : ℕ) : Allocator n where
  pick used := (List.finRange n).find? fun i => !used i
  pick_free h := by simpa using List.find?_some h
  pick_none h i := by simpa using List.find?_eq_none.mp h i (List.mem_finRange i)

variable {n : ℕ} {α : Type*}

/-- Being on a list of blocks is decided by comparing indices. -/
instance decidableMemBlocks (i : Fin n) (l : List (Fin n)) : Decidable (i∈l) := inferInstance

/-- A policy chooses a block exactly when some block is free. -/
theorem Allocator.pick_isSome (A : Allocator n) (used : Fin n → Bool) :
    (A.pick used).isSome=true ↔ ∃ i, used i=false := by
  cases h : A.pick used with
  | some i => exact ⟨fun _ => ⟨i,A.pick_free h⟩,fun _ => rfl⟩
  | none =>
    have hall := A.pick_none h
    constructor
    · intro hs
      cases hs
    · rintro ⟨i,hi⟩
      rw [hall i] at hi
      cases hi

namespace Memb

/-- Mark a block as used, leaving its old contents in place. -/
def take (m : Memb n α) (i : Fin n) : Memb n α :=
  {m with used := Function.update m.used i true}

/-- Mark a block as free; a pointer to it still reads the old contents. -/
def free (m : Memb n α) (i : Fin n) : Memb n α :=
  {m with used := Function.update m.used i false}

/-- Overwrite the contents of one block. -/
def set (m : Memb n α) (i : Fin n) (v : α) : Memb n α :=
  {m with mem := Function.update m.mem i v}

/-- Free a whole list of blocks, one after another. -/
def freeAll (m : Memb n α) (l : List (Fin n)) : Memb n α := l.foldl free m

@[simp] theorem take_mem (m : Memb n α) (i : Fin n) : (m.take i).mem=m.mem := rfl

@[simp] theorem free_mem (m : Memb n α) (i : Fin n) : (m.free i).mem=m.mem := rfl

@[simp] theorem set_used (m : Memb n α) (i : Fin n) (v : α) : (m.set i v).used=m.used := rfl

@[simp] theorem set_mem_same (m : Memb n α) (i : Fin n) (v : α) : (m.set i v).mem i=v :=
  Function.update_self ..

theorem set_mem_other (m : Memb n α) {i j : Fin n} (v : α) (h : j≠i) :
    (m.set i v).mem j=m.mem j := Function.update_of_ne h ..

@[simp] theorem take_used_same (m : Memb n α) (i : Fin n) : (m.take i).used i=true :=
  Function.update_self ..

theorem take_used_other (m : Memb n α) {i j : Fin n} (h : j≠i) :
    (m.take i).used j=m.used j := Function.update_of_ne h ..

@[simp] theorem free_used_same (m : Memb n α) (i : Fin n) : (m.free i).used i=false :=
  Function.update_self ..

theorem free_used_other (m : Memb n α) {i j : Fin n} (h : j≠i) :
    (m.free i).used j=m.used j := Function.update_of_ne h ..

/-- Freeing any number of blocks changes no contents. -/
@[simp] theorem freeAll_mem (m : Memb n α) (l : List (Fin n)) : (m.freeAll l).mem=m.mem := by
  induction l generalizing m with
  | nil => rfl
  | cons i l ih => exact ih (m.free i)

end Memb

/-- The used blocks are exactly the blocks on the list, each of them once. -/
structure Owns (used : Fin n → Bool) (l : List (Fin n)) : Prop where
  /-- No block is on the list twice. -/
  nodup : l.Nodup
  /-- Being used and being on the list are the same. -/
  used_iff : ∀ i, used i=true ↔ i∈l

/-- Ownership does not depend on the order of the list. -/
theorem Owns.perm {used : Fin n → Bool} {l l' : List (Fin n)} (h : Owns used l)
    (hp : l.Perm l') : Owns used l' :=
  ⟨hp.nodup_iff.mp h.nodup,fun i => (h.used_iff i).trans hp.mem_iff⟩

/-- A free block is on no owning list. -/
theorem Owns.not_mem {used : Fin n → Bool} {l : List (Fin n)} (h : Owns used l) {i : Fin n}
    (hi : used i=false) : i∉l := fun hm => by
  rw [(h.used_iff i).mpr hm] at hi
  cases hi

/-- A block on an owning list is none of the free ones. -/
theorem Owns.ne_of_mem {used : Fin n → Bool} {l : List (Fin n)} (h : Owns used l) {i j : Fin n}
    (hj : j∈l) (hi : used i=false) : j≠i := fun heq => h.not_mem hi (heq ▸ hj)

/-- Taking a free block and listing it keeps ownership. -/
theorem Owns.take {m : Memb n α} {l : List (Fin n)} (h : Owns m.used l) {i : Fin n}
    (hi : m.used i=false) : Owns (m.take i).used (i::l) := by
  refine ⟨List.nodup_cons.mpr ⟨h.not_mem hi,h.nodup⟩,fun j => ?_⟩
  by_cases hj : j=i
  · subst hj
    simp
  · rw [m.take_used_other hj,h.used_iff,List.mem_cons]
    simp [hj]

/-- Freeing the head of an owning list leaves the tail owning. -/
theorem Owns.free_head {m : Memb n α} {l : List (Fin n)} {i : Fin n}
    (h : Owns m.used (i::l)) : Owns (m.free i).used l := by
  obtain ⟨hi,hl⟩ := List.nodup_cons.mp h.nodup
  refine ⟨hl,fun j => ?_⟩
  by_cases hj : j=i
  · subst hj
    simp [hi]
  · rw [m.free_used_other hj,h.used_iff,List.mem_cons]
    simp [hj]

/-- Freeing a listed block and unlinking it keeps ownership. -/
theorem Owns.free {m : Memb n α} {l : List (Fin n)} (h : Owns m.used l) {i : Fin n}
    (hi : i∈l) : Owns (m.free i).used (l.erase i) :=
  (h.perm (List.perm_cons_erase hi)).free_head

/-- Freeing a listed segment leaves the rest of the list owning. -/
theorem Owns.freeAll {m : Memb n α} {l rest : List (Fin n)} (h : Owns m.used (l++rest)) :
    Owns (m.freeAll l).used rest := by
  induction l generalizing m with
  | nil => exact h
  | cons i l ih => exact ih h.free_head

/-- An owning list is no longer than the pool. -/
theorem Owns.length_le {used : Fin n → Bool} {l : List (Fin n)} (h : Owns used l) :
    l.length≤n := by
  simpa using h.nodup.length_le_card

/-- When no block is free, the owning list has the length of the pool. -/
theorem Owns.length_of_full {used : Fin n → Bool} {l : List (Fin n)} (h : Owns used l)
    (hfull : ∀ i, used i=true) : l.length=n := by
  have hsub : (List.finRange n).Subperm l :=
    (List.nodup_finRange n).subperm fun i _ => (h.used_iff i).mp (hfull i)
  have hle := hsub.length_le
  rw [List.length_finRange] at hle
  exact le_antisymm h.length_le hle

section Histories

/-- How often every block of a pool has been allocated and freed. -/
structure History (n : ℕ) where
  /-- Number of allocations of every block. -/
  allocs : Fin n → ℕ
  /-- Number of times every block was freed. -/
  frees : Fin n → ℕ

/-- The history before any allocation. -/
def History.start (n : ℕ) : History n := ⟨fun _ => 0,fun _ => 0⟩

/-- One more allocation of a block. -/
def History.alloc (h : History n) (i : Fin n) : History n :=
  {h with allocs := Function.update h.allocs i (h.allocs i+1)}

/-- A block is freed once more. -/
def History.free (h : History n) (i : Fin n) : History n :=
  {h with frees := Function.update h.frees i (h.frees i+1)}

/-- Every allocation of a block has been freed once, except the last one of
a block that is in use. In all states of a run this says that allocations
and frees of a block alternate. -/
def History.Balanced (h : History n) (used : Fin n → Bool) : Prop :=
  ∀ i, h.allocs i=h.frees i+(used i).toNat

variable {h : History n} {m : Memb n α} {i : Fin n}

/-- Taking a free block keeps the balance. -/
theorem History.Balanced.take (hb : h.Balanced m.used) (hi : m.used i=false) :
    (h.alloc i).Balanced (m.take i).used := fun j => by
  have hj := hb j
  by_cases he : j=i
  · subst he
    rw [hi] at hj
    simpa [History.alloc] using hj
  · have hsame : (h.alloc i).allocs j=h.allocs j := Function.update_of_ne he ..
    rw [m.take_used_other he,hsame]
    exact hj

/-- Freeing a used block keeps the balance. -/
theorem History.Balanced.free (hb : h.Balanced m.used) (hi : m.used i=true) :
    (h.free i).Balanced (m.free i).used := fun j => by
  have hj := hb j
  by_cases he : j=i
  · subst he
    rw [hi] at hj
    simpa [History.free] using hj
  · have hsame : (h.free i).frees j=h.frees j := Function.update_of_ne he ..
    rw [m.free_used_other he,hsame]
    exact hj

/-- When no block is in use, every allocation has been freed exactly once. -/
theorem History.Balanced.idle {used : Fin n → Bool} (hb : h.Balanced used)
    (hidle : ∀ i, used i=false) : h.frees=h.allocs := funext fun i => by
  rw [hb i,hidle i]
  rfl

end Histories

section Lists

variable {β : Type*} [DecidableEq β]

/-- Put an element at the front, unlinking an earlier occurrence first. -/
def listPush (l : List β) (x : β) : List β := x::l.erase x

/-- Put an element at the back, unlinking an earlier occurrence first. -/
def listAdd (l : List β) (x : β) : List β := l.erase x++[x]

/-- Element after the first occurrence of the given one. An unlinked element
that was the last of its list has no successor either. -/
def listItemNext : List β → β → Option β
  | [],_ => none
  | x::xs,y => if x=y then xs.head? else listItemNext xs y

/-- Pushing an element that is not linked yet is consing it. -/
theorem listPush_of_not_mem {l : List β} {x : β} (h : x∉l) : listPush l x=x::l := by
  rw [listPush,List.erase_of_not_mem h]

/-- Adding an element that is not linked yet is appending it. -/
theorem listAdd_of_not_mem {l : List β} {x : β} (h : x∉l) : listAdd l x=l++[x] := by
  rw [listAdd,List.erase_of_not_mem h]

/-- A successor is an element of the list. -/
theorem mem_of_listItemNext {l : List β} {x y : β} (h : listItemNext l x=some y) : y∈l := by
  induction l with
  | nil => cases h
  | cons z zs ih =>
    rw [listItemNext] at h
    split at h
    · exact List.mem_cons_of_mem z (List.mem_of_mem_head? h)
    · exact List.mem_cons_of_mem z (ih h)

/-- In a list without repetition no element is its own successor. -/
theorem listItemNext_ne {l : List β} (hl : l.Nodup) {x y : β}
    (h : listItemNext l x=some y) : y≠x := by
  induction l with
  | nil => cases h
  | cons z zs ih =>
    obtain ⟨hz,hzs⟩ := List.nodup_cons.mp hl
    rw [listItemNext] at h
    split at h
    · next he =>
      rintro rfl
      exact hz (he ▸ List.mem_of_mem_head? h)
    · exact ih hzs h

/-- Going on from an element, and from the end to the head, leads to another
element unless the list has only that one. -/
theorem mem_erase_of_next {l : List β} (hl : l.Nodup) {x : β} (hx : x∈l) :
    (∀ y∈(listItemNext l x).or l.head?,y∈l.erase x) ↔ l≠[x] := by
  cases l with
  | nil => cases hx
  | cons z zs =>
    cases hnext : listItemNext (z::zs) x with
    | some y =>
      have hy : y∈(z::zs).erase x :=
        (hl.mem_erase_iff).mpr ⟨listItemNext_ne hl hnext,mem_of_listItemNext hnext⟩
      refine iff_of_true (fun y' hy' => ?_) fun h => ?_
      · cases hy'
        exact hy
      · rw [h,List.erase_cons_head] at hy
        cases hy
    | none =>
      by_cases hz : z=x
      · subst hz
        rw [listItemNext,if_pos rfl,List.head?_eq_none_iff] at hnext
        subst hnext
        exact iff_of_false (fun h => by simpa using h z rfl) fun h => h rfl
      · refine iff_of_true (fun y hy => ?_) fun h => hz (List.cons.inj h).1
        cases hy
        exact (hl.mem_erase_iff).mpr ⟨hz,List.mem_cons_self⟩

end Lists

section Positions

variable {β : Type*} {l : List β} {i : ℕ} {a b x : β}

/-- Replacing an element keeps the others. -/
theorem mem_set_of_ne (ha : a∈l) (hi : l[i]?=some b) (hne : a≠b) : a∈l.set i x := by
  obtain ⟨j,hj⟩ := List.mem_iff_getElem?.mp ha
  have hij : i≠j := by
    rintro rfl
    rw [hi] at hj
    exact hne (Option.some.inj hj).symm
  exact List.mem_iff_getElem?.mpr ⟨j,by rw [List.getElem?_set_ne hij,hj]⟩

/-- An element that is put in place is there. -/
theorem mem_set_self (hi : l[i]?=some b) : x∈l.set i x :=
  List.mem_iff_getElem?.mpr ⟨i,List.getElem?_set_self (List.getElem?_eq_some_iff.mp hi).1⟩

/-- Erasing an element keeps the others. -/
theorem mem_eraseIdx_of_ne (ha : a∈l) (hi : l[i]?=some b) (hne : a≠b) : a∈l.eraseIdx i := by
  obtain ⟨j,hj⟩ := List.mem_iff_getElem?.mp ha
  refine List.mem_eraseIdx_iff_getElem?.mpr ⟨j,?_,hj⟩
  rintro rfl
  rw [hi] at hj
  exact hne (Option.some.inj hj).symm

end Positions

section Nested

variable {β γ : Type*} [DecidableEq β] {l : List β} {f g : β → List γ} {x : β}

/-- The segment of one element can be brought to the front. -/
theorem perm_flatMap_of_mem (f : β → List γ) (hx : x∈l) :
    (l.flatMap f).Perm (f x++(l.erase x).flatMap f) :=
  (List.perm_cons_erase hx).flatMap_right f

/-- The segments of the other elements do not depend on the one left out. -/
theorem flatMap_erase_congr (hl : l.Nodup) (h : ∀ y, y≠x → g y=f y) :
    (l.erase x).flatMap g=(l.erase x).flatMap f :=
  List.flatMap_congr fun y hy => h y fun he => hl.not_mem_erase (he ▸ hy)

/-- Changing the segment of one element changes the whole by that segment. -/
theorem perm_flatMap_update (hl : l.Nodup) (hx : x∈l) (h : ∀ y, y≠x → g y=f y) :
    (l.flatMap g).Perm (g x++(l.erase x).flatMap f) := by
  have hp := perm_flatMap_of_mem g hx
  rwa [flatMap_erase_congr hl h] at hp

omit [DecidableEq β] in
/-- Segments of bounded length add up to a bounded length. -/
theorem length_flatMap_le {k : ℕ} (h : ∀ y∈l, (f y).length≤k) :
    (l.flatMap f).length≤l.length*k := by
  induction l with
  | nil => simp
  | cons y l ih =>
    have hy := h y List.mem_cons_self
    have hl := ih fun z hz => h z (List.mem_cons_of_mem y hz)
    rw [List.flatMap_cons,List.length_append,List.length_cons,Nat.succ_mul]
    omega

/-- An element of one of several disjoint segments is in no other one. -/
theorem eq_of_mem_segments (h : (l.flatMap f).Nodup) {y : β} {a : γ} (hx : x∈l) (hy : y∈l)
    (hax : a∈f x) (hay : a∈f y) : x=y := by
  by_contra hne
  have hrest : y∈l.erase x := (List.mem_erase_of_ne (Ne.symm hne)).mpr hy
  have hnodup := (perm_flatMap_of_mem f hx).nodup_iff.mp h
  exact (List.nodup_append'.mp hnodup).2.2 hax (List.mem_flatMap.mpr ⟨y,hrest,hay⟩)

/-- When segments of a bounded length own a pool, and one of them has not used
up its share, a block is free. -/
theorem Owns.exists_free {n k : ℕ} {used : Fin (n*k) → Bool} {l : List (Fin n)}
    {f : Fin n → List (Fin (n*k))} (h : Owns used (l.flatMap f)) (hl : l.Nodup)
    (hshare : ∀ y∈l, (f y).length≤k) {x : Fin n} (hx : x∈l) (hlt : (f x).length<k) :
    ∃ i, used i=false := by
  by_contra hall
  have hfull : ∀ i, used i=true := fun i => by
    cases hi : used i with
    | true => rfl
    | false => exact absurd ⟨i,hi⟩ hall
  have hlen := h.length_of_full hfull
  have hperm := (perm_flatMap_of_mem f hx).length_eq
  have hrest : ((l.erase x).flatMap f).length≤(l.erase x).length*k :=
    length_flatMap_le fun y hy => hshare y (List.mem_of_mem_erase hy)
  have hle : l.length≤n := by simpa using hl.length_le_card
  have hpos := List.length_pos_of_mem hx
  rw [List.length_append] at hperm
  rw [List.length_erase_of_mem hx] at hrest
  have hmul : l.length*k≤n*k := Nat.mul_le_mul_right k hle
  have hsplit : l.length*k=(l.length-1)*k+k := by
    rw [←Nat.succ_mul,Nat.succ_eq_add_one,Nat.sub_add_cancel hpos]
  omega

end Nested

end TrustAlloc.Pools
