import Mathlib.Data.Nat.ModEq
import Mathlib.Data.UInt
import Mathlib.Tactic.Linarith
import TrustAlloc.LocalArrays

/-!
# Random numbers in a range

The function of `random-helpers.c` that draws until a number is accepted. The
random source is a list of draws, from the next one on. At least half of all
draws are accepted, and the accepted ones are spread evenly over the range.
-/

namespace TrustAlloc.RandomHelpers

open LocalArrays

/-- `RANDOM_RAND_MAX`. -/
def randomRandMax : UInt16 := 65535

/-- Why a function that draws random numbers has no result. -/
inductive Stop where
  /-- A division by zero. -/
  | divisionByZero
  /-- Every draw was rejected, and the function goes on drawing. -/
  | drawing
  /-- An access to an array stops it. -/
  | fault (f : Fault)
  deriving DecidableEq

/-- What is drawn for. -/
abbrev Drawing (α : Type) := Except Stop α

/-- A function that does not draw, in one that does. -/
def ofChecked {α : Type} : Checked α → Drawing α
  | .ok x => .ok x
  | .error f => .error (.fault f)

/-- `random_in_range_unbiased`. The loop ends with the first draw that is accepted. -/
def randomInRangeUnbiased (min max : UInt16) (draws : List UInt16) : Drawing UInt16 :=
  let n := max-min+1
  if n=0 then throw .divisionByZero
  else
    let remainder := randomRandMax%n
    match draws.find? fun x => !decide (randomRandMax-remainder≤x) with
    | some x => return min+x%n
    | none => throw .drawing

/-- The draws that are accepted for a number of values. -/
def Accepted (n : ℕ) (x : UInt16) : Prop := x.toNat < 65535-65535%n

/-- Accepting is decided by the draw. -/
instance decidableAccepted (n : ℕ) : DecidablePred (Accepted n) :=
  fun x => inferInstanceAs (Decidable (x.toNat < _))

/-- Half of all draws are accepted, whatever the number of values. -/
theorem accepted_of_lt {n : ℕ} (hn : n≤65535) (hpos : 0 < n) {x : UInt16}
    (hx : x.toNat < 32768) : Accepted n x := by
  have hdiv := Nat.div_add_mod 65535 n
  have hmod := Nat.mod_lt 65535 hpos
  have hone : 1≤65535/n := Nat.div_pos hn hpos
  have hle : n*1≤n*(65535/n) := Nat.mul_le_mul_left n hone
  unfold Accepted
  omega

section Range

variable {min max : UInt16} (hle : min.toNat ≤ max.toNat) (hlt : max.toNat-min.toNat < 65535)

include hle hlt

/-- The number of values in a range. -/
theorem toNat_size : (max-min+1).toNat=max.toNat-min.toNat+1 := by
  have hsub : (max-min).toNat=max.toNat-min.toNat :=
    UInt16.toNat_sub_of_le max min (UInt16.le_iff_toNat_le.mpr hle)
  rw [UInt16.toNat_add,hsub,UInt16.toNat_one]
  omega

/-- A result is the first accepted draw, modulo the number of values. -/
theorem randomInRangeUnbiased_eq (draws : List UInt16) :
    randomInRangeUnbiased min max draws=
      match draws.find? fun x => decide (Accepted (max.toNat-min.toNat+1) x) with
      | some x => .ok (UInt16.ofNat (min.toNat+x.toNat%(max.toNat-min.toNat+1)))
      | none => .error .drawing := by
  have hsize := toNat_size hle hlt
  have hne : max-min+1≠0 := by
    intro hzero
    rw [hzero] at hsize
    exact absurd hsize (by simp)
  have hmod := Nat.mod_lt 65535 (Nat.succ_pos (max.toNat-min.toNat))
  have haccepted : ∀ x : UInt16, (!decide (randomRandMax-randomRandMax%(max-min+1)≤x))=
      decide (Accepted (max.toNat-min.toNat+1) x) := by
    intro x
    have hremainder : (randomRandMax%(max-min+1)).toNat=65535%(max.toNat-min.toNat+1) := by
      rw [UInt16.toNat_mod,hsize]
      rfl
    have hbound : (randomRandMax-randomRandMax%(max-min+1)).toNat=
        65535-65535%(max.toNat-min.toNat+1) := by
      rw [UInt16.toNat_sub_of_le,hremainder]
      · rfl
      · rw [UInt16.le_iff_toNat_le,hremainder]
        exact Nat.mod_le _ _
    rw [Bool.eq_iff_iff,Bool.not_eq_true',decide_eq_false_iff_not,decide_eq_true_iff,
      UInt16.le_iff_toNat_le,hbound,not_le,Accepted]
  have hvalue : ∀ x : UInt16, min+x%(max-min+1)=
      UInt16.ofNat (min.toNat+x.toNat%(max.toNat-min.toNat+1)) := by
    intro x
    rw [UInt16.ofNat_add,UInt16.ofNat_toNat,←hsize,←UInt16.toNat_mod,UInt16.ofNat_toNat]
  unfold randomInRangeUnbiased
  simp only [if_neg hne,haccepted,hvalue]
  split <;> rfl

/-- A rejected draw is as if it had not been made. -/
theorem randomInRangeUnbiased_cons_of_not {x : UInt16}
    (hx : ¬Accepted (max.toNat-min.toNat+1) x) (draws : List UInt16) :
    randomInRangeUnbiased min max (x::draws)=randomInRangeUnbiased min max draws := by
  rw [randomInRangeUnbiased_eq hle hlt,randomInRangeUnbiased_eq hle hlt,
    List.find?_cons_of_neg (by simpa using hx)]

/-- The first accepted draw decides. -/
theorem randomInRangeUnbiased_cons {x : UInt16} (hx : Accepted (max.toNat-min.toNat+1) x)
    (draws : List UInt16) :
    randomInRangeUnbiased min max (x::draws)=
      .ok (UInt16.ofNat (min.toNat+x.toNat%(max.toNat-min.toNat+1))) := by
  rw [randomInRangeUnbiased_eq hle hlt,List.find?_cons_of_pos (by simpa using hx)]

omit hlt in
/-- Adding the remainder to the lower bound does not wrap. -/
theorem toNat_result (x : UInt16) :
    (UInt16.ofNat (min.toNat+x.toNat%(max.toNat-min.toNat+1))).toNat=
      min.toNat+x.toNat%(max.toNat-min.toNat+1) := by
  have hmod : x.toNat%(max.toNat-min.toNat+1) < max.toNat-min.toNat+1 :=
    Nat.mod_lt _ (Nat.succ_pos _)
  have hmax := max.toNat_lt
  rw [UInt16.toNat_ofNat']
  exact Nat.mod_eq_of_lt (by omega)

/-- One draw gives a value when it is accepted and its remainder is the value's
distance from the lower bound. -/
theorem randomInRangeUnbiased_singleton_eq_ok (x v : UInt16) :
    randomInRangeUnbiased min max [x]=.ok v ↔
      Accepted (max.toNat-min.toNat+1) x ∧
        v.toNat=min.toNat+x.toNat%(max.toNat-min.toNat+1) := by
  by_cases hx : Accepted (max.toNat-min.toNat+1) x
  · rw [randomInRangeUnbiased_cons hle hlt hx,Except.ok.injEq,←UInt16.toNat_inj,
      toNat_result hle,eq_comm]
    exact (and_iff_right hx).symm
  · rw [randomInRangeUnbiased_cons_of_not hle hlt hx,randomInRangeUnbiased_eq hle hlt]
    exact ⟨fun h => by simp at h,fun h => absurd h.1 hx⟩

/-- Every result lies in the range. -/
theorem result_bounds {draws : List UInt16} {v : UInt16}
    (h : randomInRangeUnbiased min max draws=.ok v) : min≤v ∧ v ≤ max := by
  rw [randomInRangeUnbiased_eq hle hlt] at h
  split at h
  · next x _ =>
    cases h
    have hmod : x.toNat%(max.toNat-min.toNat+1) < max.toNat-min.toNat+1 :=
      Nat.mod_lt _ (Nat.succ_pos _)
    rw [UInt16.le_iff_toNat_le,UInt16.le_iff_toNat_le,toNat_result hle]
    omega
  · simp at h

end Range

/-- How many of the draws, each of them made once, are as asked for. -/
def drawsWith (p : UInt16 → Bool) : ℕ := (List.range 65536).countP fun x => p (UInt16.ofNat x)

/-- A number of draws is its own remainder. -/
theorem toNat_ofNat_of_lt {x : ℕ} (hx : x < 65536) : (UInt16.ofNat x).toNat=x := by
  rw [UInt16.toNat_ofNat']
  exact Nat.mod_eq_of_lt hx

/-- Draws below a bound are as many as the bound. -/
theorem drawsWith_lt {b : ℕ} (hb : b≤65536) {p : UInt16 → Bool} {q : ℕ → Bool}
    (h : ∀ x, x < 65536 → p (UInt16.ofNat x)=(decide (x < b)&&q x)) :
    drawsWith p=(List.range b).countP q := by
  have hsplit : List.range 65536=List.range b++(List.range (65536-b)).map (b+·) := by
    rw [←List.range_add,Nat.add_sub_cancel' hb]
  have htail : ((List.range (65536-b)).map (b+·)).countP (fun x => p (UInt16.ofNat x))=0 := by
    refine List.countP_eq_zero.mpr fun x hx => ?_
    obtain ⟨k,hk,rfl⟩ := List.mem_map.mp hx
    rw [List.mem_range] at hk
    rw [h _ (by omega)]
    simp
  rw [drawsWith,hsplit,List.countP_append,htail,Nat.add_zero]
  refine List.countP_congr fun x hx => ?_
  rw [List.mem_range] at hx
  rw [h x (by omega),decide_eq_true hx,Bool.true_and]

/-- In whole rounds of a number of values every remainder occurs once a round. -/
theorem countP_mod {n r : ℕ} (hr : r < n) (q : ℕ) :
    (List.range (n*q)).countP (fun x => decide (x%n=r))=q := by
  induction q with
  | zero => rfl
  | succ q ih =>
    have hround : ((List.range n).map (n*q+·)).countP (fun x => decide (x%n=r))=1 := by
      rw [List.countP_map]
      have hcongr : (List.range n).countP ((fun x => decide (x%n=r))∘(n*q+·))=
          (List.range n).count r := by
        refine List.countP_congr fun x hx => ?_
        rw [Function.comp_apply,decide_eq_true_iff,beq_iff_eq,Nat.mul_add_mod,
          Nat.mod_eq_of_lt (List.mem_range.mp hx)]
      rw [hcongr]
      exact List.count_eq_one_of_mem List.nodup_range (List.mem_range.mpr hr)
    rw [Nat.mul_succ,List.range_add,List.countP_append,ih,hround]

section Unbiased

variable {min max : UInt16} (hle : min.toNat ≤ max.toNat) (hlt : max.toNat-min.toNat < 65535)

include hle hlt

/-- At least half of all draws are accepted. -/
theorem half_le_drawsWith_isOk :
    32768≤drawsWith fun x => (randomInRangeUnbiased min max [x]).isOk := by
  have hacc : ∀ x ∈ List.range 65536,
      (decide (x < 32768)=true → (randomInRangeUnbiased min max [UInt16.ofNat x]).isOk=true) := by
    intro x hx hlow
    have htoNat := toNat_ofNat_of_lt (List.mem_range.mp hx)
    have haccepted : Accepted (max.toNat-min.toNat+1) (UInt16.ofNat x) :=
      accepted_of_lt (by omega) (Nat.succ_pos _) (by rw [htoNat]; exact of_decide_eq_true hlow)
    rw [randomInRangeUnbiased_cons hle hlt haccepted]
    rfl
  have hlow : (drawsWith fun x => decide (x.toNat < 32768))=32768 := by
    rw [drawsWith_lt (b:=32768) (by omega) (q:=fun _ => true)
      (fun x hx => by rw [toNat_ofNat_of_lt hx,Bool.and_true]),List.countP_true,List.length_range]
  rw [←hlow]
  refine List.countP_mono_left fun x hx h => hacc x hx ?_
  dsimp only at h
  rwa [toNat_ofNat_of_lt (List.mem_range.mp hx)] at h

/-- Every value of the range is given by as many draws as there are whole rounds. -/
theorem drawsWith_eq_ok {v : UInt16} (hmin : min≤v) (hmax : v ≤ max) :
    (drawsWith fun x => decide (randomInRangeUnbiased min max [x]=.ok v))=
      65535/(max.toNat-min.toNat+1) := by
  rw [UInt16.le_iff_toNat_le] at hmin hmax
  have hdiv := Nat.div_add_mod 65535 (max.toNat-min.toNat+1)
  rw [drawsWith_lt (b:=(max.toNat-min.toNat+1)*(65535/(max.toNat-min.toNat+1))) (by omega)
    (q:=fun x => decide (x%(max.toNat-min.toNat+1)=v.toNat-min.toNat))]
  · exact countP_mod (by omega) _
  · intro x hx
    rw [←Bool.decide_and,decide_eq_decide,randomInRangeUnbiased_singleton_eq_ok hle hlt,Accepted,
      toNat_ofNat_of_lt hx]
    omega

end Unbiased

/-- With a uniform random source `random_in_range_unbiased` never divides by
zero, accepts at least half of the draws, gives values in the range only, and
gives each of them for equally many draws. -/
theorem randomInRangeUnbiased_uniform (min max : UInt16) (hle : min ≤ max)
    (hlt : max.toNat-min.toNat < 65535) :
    (∀ draws, randomInRangeUnbiased min max draws≠.error .divisionByZero) ∧
    32768≤(drawsWith fun x => (randomInRangeUnbiased min max [x]).isOk) ∧
    (∀ draws v, randomInRangeUnbiased min max draws=.ok v → min≤v ∧ v ≤ max) ∧
    ∀ v, min≤v → v ≤ max →
      (drawsWith fun x => decide (randomInRangeUnbiased min max [x]=.ok v))=
        65535/(max.toNat-min.toNat+1) := by
  rw [UInt16.le_iff_toNat_le] at hle
  refine ⟨fun draws => ?_,half_le_drawsWith_isOk hle hlt,
    fun draws v h => result_bounds hle hlt h,fun v hmin hmax => drawsWith_eq_ok hle hlt hmin hmax⟩
  rw [randomInRangeUnbiased_eq hle hlt]
  split <;> simp

/-- Every value from 3 to 5 is given by a third of 65535 draws. -/
theorem randomInRangeUnbiased_uniform_three :
    (drawsWith fun x => decide (randomInRangeUnbiased 3 5 [x]=.ok 4))=21845 :=
  (randomInRangeUnbiased_uniform 3 5 (by decide) (by decide)).2.2.2 4 (by decide) (by decide)

end TrustAlloc.RandomHelpers
