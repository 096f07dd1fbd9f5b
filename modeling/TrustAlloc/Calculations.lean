import Mathlib.Algebra.Order.Field.Basic
import Mathlib.Tactic.Linarith

/-!
# Calculations that may be undefined

A calculation divides and asserts, and stops at a division by zero or at an
assertion that fails. There are rules for the exact condition under which it
does not stop, and for what holds of its result. Results are weighted means:
a share of a weight lies between zero and the weight.
-/

namespace TrustAlloc.Calculations

/-- Why a calculation stops. -/
inductive Fault where
  /-- A division by zero. -/
  | divisionByZero
  /-- An assertion that fails. -/
  | assertionFailed
  deriving DecidableEq

/-- A calculation. -/
abbrev Calculation (α : Type) := Except Fault α

section Conditions

variable {α β : Type} {C C' D : Prop} {Q R : α → Prop}

/-- A calculation has a result exactly under the condition `C`, and `Q` holds of it. -/
structure Settles (x : Calculation α) (C : Prop) (Q : α → Prop) : Prop where
  /-- The result. -/
  ok : C → ∃ a, x=.ok a ∧ Q a
  /-- There is none. -/
  error : ¬C → ∃ f, x=.error f

/-- A calculation that settles has a result exactly under its condition. -/
theorem Settles.iff {x : Calculation α} (h : Settles x C Q) : (∃ a, x=.ok a ∧ Q a) ↔ C := by
  refine ⟨fun ⟨a,hok,_⟩ => ?_,h.ok⟩
  by_contra hC
  obtain ⟨f,herror⟩ := h.error hC
  rw [hok] at herror
  cases herror

/-- The condition may be put differently. -/
theorem Settles.congr {x : Calculation α} (h : Settles x C Q) (hC : C ↔ C') : Settles x C' Q :=
  ⟨fun hC' => h.ok (hC.mpr hC'),fun hC' => h.error fun hc => hC' (hC.mp hc)⟩

/-- Less may be said of the result. -/
theorem Settles.mono {x : Calculation α} (h : Settles x C Q) (hQ : ∀ a, Q a → R a) :
    Settles x C R := by
  refine ⟨fun hC => ?_,h.error⟩
  obtain ⟨a,hok,ha⟩ := h.ok hC
  exact ⟨a,hok,hQ a ha⟩

/-- A value is a result under every condition. -/
theorem settles_pure {a : α} (ha : Q a) : Settles (pure a) True Q :=
  ⟨fun _ => ⟨a,rfl,ha⟩,fun h => absurd trivial h⟩

/-- One calculation after the other needs both conditions. -/
theorem Settles.bind {x : Calculation α} {f : α → Calculation β} {R : β → Prop}
    (hx : Settles x C Q) (hf : ∀ a, Q a → Settles (f a) D R) : Settles (x >>= f) (C ∧ D) R := by
  by_cases hC : C
  · obtain ⟨a,hok,ha⟩ := hx.ok hC
    have hbind : (x >>= f)=f a := by
      rw [hok]
      rfl
    rw [hbind]
    exact ⟨fun h => (hf a ha).ok h.2,fun h => (hf a ha).error fun hD => h ⟨hC,hD⟩⟩
  · obtain ⟨e,herror⟩ := hx.error hC
    refine ⟨fun h => absurd h.1 hC,fun _ => ⟨e,?_⟩⟩
    rw [herror]
    rfl

/-- A loop needs the conditions of all its turns. The invariant may depend on
the elements that are left. -/
theorem settles_foldlM {σ : Type} {f : σ → α → Calculation σ} {I : List α → σ → Prop}
    {C : α → Prop} {l : List α} {s : σ}
    (hf : ∀ a l s, I (a::l) s → Settles (f s a) (C a) (I l)) (hs : I l s) :
    Settles (l.foldlM f s) (∀ a∈l, C a) (I []) := by
  induction l generalizing s with
  | nil => exact (settles_pure hs).congr ⟨fun _ _ ha => (nomatch ha),fun _ => trivial⟩
  | cons a l ih =>
    rw [List.foldlM_cons]
    exact ((hf a l s hs).bind fun _ hs' => ih hs').congr List.forall_mem_cons.symm

/-- A loop whose turns all have results collects them. -/
theorem mapM_eq {f : α → Calculation β} {g : α → β} {l : List α} (h : ∀ a∈l, f a=.ok (g a)) :
    l.mapM f=.ok (l.map g) := by
  induction l with
  | nil => rfl
  | cons a l ih =>
    rw [List.mapM_cons,h a List.mem_cons_self,ih fun b hb => h b (List.mem_cons_of_mem a hb)]
    rfl

/-- An assertion. -/
def assertThat (p : Prop) [Decidable p] : Calculation Unit :=
  if p then return () else throw .assertionFailed

/-- An assertion that holds needs nothing. -/
theorem settles_assert {p : Prop} [Decidable p] (hp : p) :
    Settles (assertThat p) True fun _ => True := by
  unfold assertThat
  rw [if_pos hp]
  exact settles_pure trivial

end Conditions

section Shares

variable {K : Type} [Field K] [LinearOrder K]

/-- A division. -/
def quotient (a b : K) : Calculation K := if b=0 then throw .divisionByZero else return a/b

/-- A share of a weight. -/
def Share (w x : K) : Prop := 0≤x ∧ x≤w

/-- Nothing is a share of nothing. -/
theorem share_zero : Share (0 : K) 0 := ⟨le_refl 0,le_refl 0⟩

variable [IsStrictOrderedRing K] {w w' x x' : K}

/-- Shares add up. -/
theorem Share.add (h : Share w x) (h' : Share w' x') : Share (w+w') (x+x') :=
  ⟨add_nonneg h.1 h'.1,add_le_add h.2 h'.2⟩

/-- A share of one is a share of every weight. -/
theorem Share.mul (h : Share 1 x) (hw : 0≤w) : Share w (w*x) := by
  refine ⟨mul_nonneg hw h.1,?_⟩
  calc w*x≤w*1 := mul_le_mul_of_nonneg_left h.2 hw
    _=w := mul_one w

/-- The mean of shares of weights is a share of one, if there is any weight. -/
theorem Share.settles_quotient (h : Share w x) :
    Settles (quotient x w) (w≠0) (Share 1) := by
  unfold quotient
  refine ⟨fun hw => ?_,fun hw => ?_⟩
  · have hpos : 0 < w := lt_of_le_of_ne (h.1.trans h.2) hw.symm
    rw [if_neg hw]
    exact ⟨x/w,rfl,div_nonneg h.1 hpos.le,(div_le_one hpos).mpr h.2⟩
  · rw [if_pos (not_not.mp hw)]
    exact ⟨.divisionByZero,rfl⟩

/-- A mixture of shares of one is one. -/
theorem Share.mix (h : Share 1 x) (h' : Share 1 x') (hw : Share 1 w) :
    Share 1 (x*(1-w)+x'*w) := by
  have hmix := (h.mul (sub_nonneg.mpr hw.2)).add (h'.mul hw.1)
  rw [sub_add_cancel] at hmix
  rwa [mul_comm x,mul_comm x']

/-- The part of a total grows with the part and falls with the rest. -/
theorem part_div_le {a b a' b' : K} (ha : 0≤a) (hb' : 0≤b') (hpart : a≤a') (hrest : b'≤b)
    (htotal : 0 < a+b) (htotal' : 0 < a'+b') : a/(a+b)≤a'/(a'+b') := by
  rw [div_le_div_iff₀ htotal htotal']
  have hcross : a*b'≤a'*b := mul_le_mul hpart hrest hb' (ha.trans hpart)
  calc a*(a'+b')=a*a'+a*b' := mul_add a a' b'
    _≤a*a'+a'*b := by linarith
    _=a'*(a+b) := by rw [mul_add,mul_comm a a']

end Shares

end TrustAlloc.Calculations
