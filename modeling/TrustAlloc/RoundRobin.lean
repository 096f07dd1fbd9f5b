import Mathlib.Data.List.Rotate
import TrustAlloc.Pools

/-!
# Round robin over a list

A cursor names the element that was visited last, and not its place. The next
element is the one behind it, or the first of the list when there is none or
when the cursor's element is not on the list. From every cursor, as many visits
as the list is long visit each of its elements once.
-/

namespace TrustAlloc.RoundRobin

open Pools

variable {α : Type} [DecidableEq α]

/-- The element that is visited after a cursor. -/
def next (l : List α) : Option α → Option α
  | none => l.head?
  | some x => (listItemNext l x).or l.head?

/-- The elements of a number of visits from a cursor on. -/
def visits (l : List α) : ℕ → Option α → List α
  | 0,_ => []
  | n+1,cursor =>
    match next l cursor with
    | none => visits l n none
    | some x => x::visits l n (some x)

/-- What is behind an element of a list without repetitions. -/
theorem listItemNext_getElem {l : List α} (hl : l.Nodup) {i : ℕ} (hi : i < l.length) :
    listItemNext l l[i]=l[i+1]? := by
  induction l generalizing i with
  | nil => simp at hi
  | cons x l ih =>
    rw [List.nodup_cons] at hl
    cases i with
    | zero =>
      rw [List.getElem_cons_zero,listItemNext,if_pos rfl,List.getElem?_cons_succ,
        List.head?_eq_getElem?]
    | succ i =>
      have hi' : i < l.length := by simpa using hi
      have hne : l[i]≠x := fun h => hl.1 (h ▸ List.getElem_mem hi')
      rw [List.getElem_cons_succ,List.getElem?_cons_succ,←ih hl.2 hi',listItemNext,if_neg hne.symm]

/-- A function that tells the elements of a list apart goes along with them. -/
theorem map_listItemNext {β : Type} [DecidableEq β] {f : α → β} {l : List α}
    (hf : ∀ x∈l, ∀ y∈l, f x=f y → x=y) {x : α} (hx : x∈l) :
    listItemNext (l.map f) (f x)=(listItemNext l x).map f := by
  induction l with
  | nil => cases hx
  | cons y l ih =>
    rw [List.map_cons,listItemNext,listItemNext]
    by_cases hyx : y=x
    · rw [if_pos hyx,if_pos (congrArg f hyx),List.head?_map]
    · have hmem : x∈l := (List.mem_cons.mp hx).resolve_left fun h => hyx h.symm
      have hne : f y≠f x := fun h => hyx (hf y List.mem_cons_self x hx h)
      rw [if_neg hyx,if_neg hne]
      exact ih (fun a ha b hb =>
        hf a (List.mem_cons_of_mem y ha) b (List.mem_cons_of_mem y hb)) hmem

/-- Nothing is behind an element that is not on the list. -/
theorem listItemNext_of_not_mem {l : List α} {x : α} (hx : x∉l) : listItemNext l x=none := by
  induction l with
  | nil => rfl
  | cons y l ih =>
    rw [List.mem_cons,not_or] at hx
    rw [listItemNext,if_neg (Ne.symm hx.1)]
    exact ih hx.2

/-- The next element is on the list. -/
theorem mem_of_next {l : List α} {cursor : Option α} {x : α} (h : next l cursor=some x) : x∈l := by
  cases cursor with
  | none => exact List.mem_of_mem_head? h
  | some y =>
    rcases Option.or_eq_some_iff.mp h with hnext | ⟨_,hhead⟩
    · exact mem_of_listItemNext hnext
    · exact List.mem_of_mem_head? hhead

/-- There is no next element in the empty list only. -/
theorem next_eq_none_iff {l : List α} {cursor : Option α} : next l cursor=none ↔ l=[] := by
  constructor
  · intro h
    cases cursor with
    | none => exact List.head?_eq_none_iff.mp h
    | some y => exact List.head?_eq_none_iff.mp (Option.or_eq_none_iff.mp h).2
  · rintro rfl
    cases cursor <;> rfl

/-- Behind the last element comes the first. -/
theorem next_getElem {l : List α} (hl : l.Nodup) {i : ℕ} (hi : i < l.length) :
    next l (some l[i])=l[(i+1)%l.length]? := by
  rw [next,listItemNext_getElem hl hi]
  by_cases hlast : i+1=l.length
  · rw [hlast,Nat.mod_self,List.getElem?_eq_none le_rfl,Option.none_or,List.head?_eq_getElem?]
  · have hlt : i+1 < l.length := by omega
    rw [Nat.mod_eq_of_lt hlt,List.getElem?_eq_getElem hlt,Option.some_or]

/-- No more visits than the list is long go through it in a circle. -/
theorem visits_eq_take {l : List α} (hl : l.Nodup) {n k : ℕ} (hn : n ≤ l.length)
    {cursor : Option α} (hk : k < l.length) (hnext : next l cursor=l[k]?) :
    visits l n cursor=(l.rotate k).take n := by
  induction n generalizing cursor k with
  | zero => rfl
  | succ n ih =>
    have hmod : (k+1)%l.length < l.length := Nat.mod_lt _ (by omega)
    have hhead : (l.rotate k)[0]?=some l[k] := by
      rw [List.getElem?_rotate (by omega),Nat.zero_add,Nat.mod_eq_of_lt hk,
        List.getElem?_eq_getElem hk]
    rw [visits,hnext,List.getElem?_eq_getElem hk]
    dsimp only
    rw [ih (by omega) hmod (next_getElem hl hk),List.rotate_mod,←List.rotate_rotate]
    cases hrotated : l.rotate k with
    | nil =>
      rw [hrotated] at hhead
      simp at hhead
    | cons x t =>
      have hlength := congrArg List.length hrotated
      rw [hrotated,List.getElem?_cons_zero,Option.some.injEq] at hhead
      rw [List.length_rotate,List.length_cons] at hlength
      rw [hhead,List.rotate_cons_succ,List.rotate_zero,List.take_append_of_le_length (by omega),
        List.take_succ_cons]

/-- From every cursor, as many visits as the list is long visit each element once. -/
theorem visits_perm {l : List α} (hl : l.Nodup) (cursor : Option α) :
    (visits l l.length cursor).Perm l := by
  cases hnext : next l cursor with
  | none =>
    rw [next_eq_none_iff.mp hnext]
    rfl
  | some x =>
    obtain ⟨k,hk,rfl⟩ := List.getElem_of_mem (mem_of_next hnext)
    rw [visits_eq_take hl le_rfl hk (hnext.trans (List.getElem?_eq_getElem hk).symm),
      ←List.length_rotate l k,List.take_length]
    exact List.rotate_perm l k

end TrustAlloc.RoundRobin
