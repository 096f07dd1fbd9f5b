import Mathlib.Algebra.BigOperators.Group.List.Basic
import Mathlib.Algebra.Order.Field.Rat
import Mathlib.Algebra.Order.Floor.Ring
import Mathlib.Data.Rat.Floor
import Mathlib.Tactic.FieldSimp
import Mathlib.Tactic.Linarith

/-!
# Weighted choice

Entries lie side by side, each as long as its weight, and a draw picks the
entry it falls on. Every entry is picked by as many draws as its weight says,
and the draws behind the last entry pick none. Weights that are shares of a
number, each rounded down, leave fewer of it over than there are entries.
-/

namespace TrustAlloc.WeightedChoice

section Pick

variable {α : Type}

/-- The entry that a draw falls on. -/
def pick : List (α×ℕ) → ℕ → Option α
  | [],_ => none
  | (a,weight)::l,draw => if draw < weight then some a else pick l (draw-weight)

/-- The length of all entries. -/
def total (l : List (α×ℕ)) : ℕ := (l.map Prod.snd).sum

/-- The length of the entries for one choice. -/
def weightOf [DecidableEq α] (a : α) : List (α×ℕ) → ℕ
  | [] => 0
  | (b,weight)::l => (if b=a then weight else 0)+weightOf a l

/-- What is picked is among the entries. -/
theorem pick_mem {l : List (α×ℕ)} {draw : ℕ} {a : α} (h : pick l draw=some a) :
    a∈l.map Prod.fst := by
  induction l generalizing draw with
  | nil => cases h
  | cons entry l ih =>
    obtain ⟨b,weight⟩ := entry
    unfold pick at h
    split at h
    · cases h
      exact List.mem_cons_self
    · exact List.mem_cons_of_mem b (ih h)

/-- Something is picked exactly by the draws that are not behind the last entry. -/
theorem pick_isSome_iff {l : List (α×ℕ)} {draw : ℕ} :
    (pick l draw).isSome=true ↔ draw < total l := by
  unfold total
  induction l generalizing draw with
  | nil => simp [pick]
  | cons entry l ih =>
    obtain ⟨b,weight⟩ := entry
    unfold pick
    rw [List.map_cons,List.sum_cons]
    split
    · next hlt => simp only [Option.isSome_some,true_iff]; omega
    · rw [ih]
      omega

/-- As many draws pick a choice as its entries are long. -/
theorem countP_pick [DecidableEq α] {l : List (α×ℕ)} {n : ℕ} (h : total l≤n) (a : α) :
    (List.range n).countP (fun draw => decide (pick l draw=some a))=weightOf a l := by
  unfold total at h
  induction l generalizing n with
  | nil => exact List.countP_eq_zero.mpr fun draw _ => by simp [pick]
  | cons entry l ih =>
    obtain ⟨b,weight⟩ := entry
    rw [List.map_cons,List.sum_cons] at h
    obtain ⟨rest,rfl⟩ := Nat.exists_eq_add_of_le (show weight≤n by omega)
    rw [List.range_add,List.countP_append,List.countP_map,weightOf]
    congr 1
    · have hfront : ∀ draw∈List.range weight,
          (decide (pick ((b,weight)::l) draw=some a)=true ↔ decide (b=a)=true) := by
        intro draw hdraw
        rw [decide_eq_true_iff,decide_eq_true_iff,pick,if_pos (List.mem_range.mp hdraw),
          Option.some.injEq]
      rw [List.countP_congr hfront]
      split
      · next heq => simp [heq]
      · next hne => simp [hne]
    · have hback : (fun draw => decide (pick ((b,weight)::l) draw=some a)) ∘ (weight+·)=
          fun draw => decide (pick l draw=some a) := by
        funext draw
        rw [Function.comp_apply,pick,if_neg (by omega),Nat.add_sub_cancel_left]
      rw [hback]
      exact ih (by omega)

/-- The draws behind the last entry pick nothing. -/
theorem countP_pick_none [DecidableEq α] {l : List (α×ℕ)} {n : ℕ} (h : total l≤n) :
    (List.range n).countP (fun draw => decide (pick l draw=none))=n-total l := by
  obtain ⟨rest,rfl⟩ := Nat.exists_eq_add_of_le h
  have hnone : ∀ draw, pick l draw=none ↔ total l≤draw := fun draw => by
    rw [←not_lt,←pick_isSome_iff,Bool.not_eq_true,Option.isSome_eq_false_iff,
      Option.isNone_iff_eq_none]
  rw [List.range_add,List.countP_append,List.countP_map,Nat.add_sub_cancel_left]
  have hfront : (List.range (total l)).countP (fun draw => decide (pick l draw=none))=0 :=
    List.countP_eq_zero.mpr fun draw hdraw => by
      rw [decide_eq_true_iff,hnone,not_le]
      exact List.mem_range.mp hdraw
  have hback : (List.range rest).countP
      ((fun draw => decide (pick l draw=none)) ∘ (total l+·))=(List.range rest).length :=
    List.countP_eq_length.mpr fun draw _ => by
      rw [Function.comp_apply,decide_eq_true_iff,hnone]
      exact Nat.le_add_right _ _
  rw [hfront,hback,List.length_range,Nat.zero_add]

/-- What is not listed has no entries. -/
theorem weightOf_map_of_notMem [DecidableEq α] {l : List α} (weight : α → ℕ) {a : α}
    (ha : a∉l) : weightOf a (l.map fun b => (b,weight b))=0 := by
  induction l with
  | nil => rfl
  | cons b l ih =>
    rw [List.mem_cons,not_or] at ha
    rw [List.map_cons,weightOf,if_neg (Ne.symm ha.1),ih ha.2]

/-- The entries of a list without duplicates have the weights they were given. -/
theorem weightOf_map [DecidableEq α] {l : List α} (hl : l.Nodup) (weight : α → ℕ) {a : α}
    (ha : a∈l) : weightOf a (l.map fun b => (b,weight b))=weight a := by
  induction l with
  | nil => cases ha
  | cons b l ih =>
    obtain ⟨hb,hl⟩ := List.nodup_cons.mp hl
    rw [List.map_cons,weightOf]
    by_cases heq : b=a
    · subst heq
      rw [if_pos rfl,weightOf_map_of_notMem weight hb,Nat.add_zero]
    · rw [if_neg heq,Nat.zero_add]
      exact ih hl ((List.mem_cons.mp ha).resolve_left (Ne.symm heq))

end Pick

section Shares

/-- The share of a number that a part of a sum is entitled to, rounded down. -/
def share (n : ℕ) (sum part : ℚ) : ℕ := ⌊part/sum*n⌋.toNat

/-- A share is not more than what it was rounded from, and less than one below. -/
theorem share_bounds {n : ℕ} {sum part : ℚ} (hsum : 0 ≤ sum) (hpart : 0≤part) :
    (share n sum part : ℚ)≤part/sum*n ∧ part/sum*n < share n sum part+1 := by
  have hnonneg : 0≤part/sum*n := mul_nonneg (div_nonneg hpart hsum) n.cast_nonneg
  have hfloor : ((share n sum part : ℤ) : ℚ)=⌊part/sum*n⌋ := by
    rw [share,Int.toNat_of_nonneg (Int.floor_nonneg.mpr hnonneg)]
  rw [Int.cast_natCast] at hfloor
  rw [hfloor]
  exact ⟨Int.floor_le _,Int.lt_floor_add_one _⟩

/-- The shares are not more than the parts together, and each loses less than one. -/
theorem sum_share_bounds {n : ℕ} {sum : ℚ} (hsum : 0 ≤ sum) {parts : List ℚ}
    (hparts : ∀ part∈parts, 0≤part) :
    (((parts.map (share n sum)).sum : ℕ) : ℚ)≤parts.sum/sum*n ∧
      parts.sum/sum*n≤(((parts.map (share n sum)).sum : ℕ) : ℚ)+parts.length := by
  induction parts with
  | nil => simp
  | cons part parts ih =>
    obtain ⟨hle,hge⟩ := ih fun part' h => hparts part' (List.mem_cons_of_mem part h)
    obtain ⟨hlo,hhi⟩ := share_bounds (n:=n) hsum (hparts part List.mem_cons_self)
    simp only [List.map_cons,List.sum_cons,List.length_cons,add_div,add_mul,Nat.cast_add,
      Nat.cast_one]
    constructor <;> linarith

/-- The shares of a number are not more than the number, and less than one for
each of them is left over. -/
theorem sum_share_le {n : ℕ} {parts : List ℚ} (hparts : ∀ part∈parts, 0≤part)
    (hsum : 0 < parts.sum) :
    (parts.map (share n parts.sum)).sum≤n ∧
      n < (parts.map (share n parts.sum)).sum+parts.length := by
  have hle := (sum_share_bounds (n:=n) hsum.le hparts).1
  rw [div_self hsum.ne',one_mul] at hle
  refine ⟨by exact_mod_cast hle,?_⟩
  cases parts with
  | nil => exact absurd hsum (lt_irrefl 0)
  | cons part parts =>
    -- The first share loses less than one, which makes the inequality strict.
    have hfirst := (share_bounds (n:=n) hsum.le (hparts part List.mem_cons_self)).2
    have hrest := (sum_share_bounds (n:=n) hsum.le fun part' h =>
      hparts part' (List.mem_cons_of_mem part h)).2
    have hwhole : part/(part::parts).sum*n+parts.sum/(part::parts).sum*n=n := by
      rw [←add_mul,←add_div,←List.sum_cons,div_self hsum.ne',one_mul]
    have hcast : (n : ℚ) < (((part::parts).map (share n (part::parts).sum)).sum+
        (part::parts).length : ℕ) := by
      rw [List.map_cons,List.sum_cons (a:=share n (part::parts).sum part),List.length_cons,
        Nat.cast_add,Nat.cast_add,Nat.cast_add,Nat.cast_one]
      linarith
    exact_mod_cast hcast

end Shares

end TrustAlloc.WeightedChoice
