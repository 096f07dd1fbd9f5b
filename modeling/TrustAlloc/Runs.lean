import Mathlib.Data.List.Basic

/-!
# Runs of a state machine and conditions along them

A machine is a total step function applied to a list of operations. Two
recursive predicates read such a run: `Along` checks every operation in the
state it meets, `Always` checks every state visited. The rules below turn one
step lemma into a statement about whole runs, in one direction or exactly.
-/

namespace TrustAlloc.Runs

variable {State Op : Type*}

/-- Every operation of the run meets the condition in the state it is applied to. -/
def Along (step : State → Op → State) (C : State → Op → Prop) : State → List Op → Prop
  | _,[] => True
  | s,op::ops => C s op ∧ Along step C (step s op) ops

/-- Every state visited by the run has the property, its two ends included. -/
def Always (step : State → Op → State) (P : State → Prop) : State → List Op → Prop
  | s,[] => P s
  | s,op::ops => P s ∧ Always step P (step s op) ops

/-- A condition with decidable instances is decidable along a run. -/
instance decidableAlong (step : State → Op → State) (C : State → Op → Prop)
    [∀ s op, Decidable (C s op)] : ∀ s ops, Decidable (Along step C s ops)
  | _,[] => .isTrue trivial
  | s,op::ops =>
    have := decidableAlong step C (step s op) ops
    inferInstanceAs (Decidable (C s op ∧ Along step C (step s op) ops))

/-- A decidable property of states is decidable over all states of a run. -/
instance decidableAlways (step : State → Op → State) (P : State → Prop)
    [DecidablePred P] : ∀ s ops, Decidable (Always step P s ops)
  | s,[] => inferInstanceAs (Decidable (P s))
  | s,op::ops =>
    have := decidableAlways step P (step s op) ops
    inferInstanceAs (Decidable (P s ∧ Always step P (step s op) ops))

variable {step : State → Op → State} {s : State} {ops : List Op}

/-- The first state of a run is visited. -/
theorem Always.head {P : State → Prop} (h : Always step P s ops) : P s := by
  cases ops with
  | nil => exact h
  | cons op ops => exact h.1

/-- The last state of a run is visited. -/
theorem Always.last {P : State → Prop} (h : Always step P s ops) :
    P (ops.foldl step s) := by
  induction ops generalizing s with
  | nil => exact h
  | cons op ops ih => exact ih h.2

/-- A weaker property holds in every visited state as well. -/
theorem Always.mono {P Q : State → Prop} (hPQ : ∀ s, P s → Q s)
    (h : Always step P s ops) : Always step Q s ops := by
  induction ops generalizing s with
  | nil => exact hPQ s h
  | cons op ops ih => exact ⟨hPQ s h.1,ih h.2⟩

/-- A weaker condition holds along the run as well. -/
theorem Along.mono {C D : State → Op → Prop} (hCD : ∀ s op, C s op → D s op)
    (h : Along step C s ops) : Along step D s ops := by
  induction ops generalizing s with
  | nil => trivial
  | cons op ops ih => exact ⟨hCD s op h.1,ih h.2⟩

/-- A condition that every step meets holds along every run. -/
theorem along_of_forall {C : State → Op → Prop} (hC : ∀ s op, C s op) :
    Along step C s ops := by
  induction ops generalizing s with
  | nil => trivial
  | cons op ops ih => exact ⟨hC s op,ih⟩

/-- Two conditions hold along a run exactly when their conjunction does. -/
theorem along_and {C D : State → Op → Prop} :
    Along step (fun s op => C s op ∧ D s op) s ops ↔
      Along step C s ops ∧ Along step D s ops := by
  induction ops generalizing s with
  | nil => exact ⟨fun _ => ⟨trivial,trivial⟩,fun _ => trivial⟩
  | cons op ops ih =>
    constructor
    · rintro ⟨⟨hc,hd⟩,ht⟩
      exact ⟨⟨hc,(ih.mp ht).1⟩,hd,(ih.mp ht).2⟩
    · rintro ⟨⟨hc,htc⟩,hd,htd⟩
      exact ⟨⟨hc,hd⟩,ih.mpr ⟨htc,htd⟩⟩

/-- A condition holds along a run in two parts if it does along each of them. -/
theorem along_append {C : State → Op → Prop} {more : List Op} :
    Along step C s (ops++more) ↔ Along step C s ops ∧ Along step C (ops.foldl step s) more := by
  induction ops generalizing s with
  | nil => exact ⟨fun h => ⟨trivial,h⟩,fun h => h.2⟩
  | cons op ops ih =>
    constructor
    · rintro ⟨hop,h⟩
      exact ⟨⟨hop,(ih.mp h).1⟩,(ih.mp h).2⟩
    · rintro ⟨⟨hop,h⟩,hmore⟩
      exact ⟨hop,ih.mpr ⟨h,hmore⟩⟩

/-- Invariant rule: what the start satisfies and every admitted step keeps
holds in every state of a run whose operations are all admitted. -/
theorem always_of_step {I : State → Prop} {C : State → Op → Prop}
    (hstep : ∀ s op, I s → C s op → I (step s op)) (h0 : I s)
    (hops : Along step C s ops) : Always step I s ops := by
  induction ops generalizing s with
  | nil => exact h0
  | cons op ops ih => exact ⟨h0,ih (hstep s op h0 hops.1) hops.2⟩

/-- Transition rule: what every admitted step does in states that satisfy an
invariant, every step of an admitted run does. -/
theorem along_of_step {I : State → Prop} {A C : State → Op → Prop}
    (hI : ∀ s op, I s → A s op → I (step s op)) (hC : ∀ s op, I s → A s op → C s op)
    (h0 : I s) (hops : Along step A s ops) : Along step C s ops := by
  induction ops generalizing s with
  | nil => trivial
  | cons op ops ih => exact ⟨hC s op h0 hops.1,ih (hI s op h0 hops.1) hops.2⟩

/-- Two conditions that agree in states that satisfy an invariant hold along
the same admitted runs. -/
theorem along_congr {I : State → Prop} {A C D : State → Op → Prop}
    (hI : ∀ s op, I s → A s op → I (step s op)) (hCD : ∀ s op, I s → A s op → (C s op ↔ D s op))
    (h0 : I s) (hops : Along step A s ops) : Along step C s ops ↔ Along step D s ops := by
  induction ops generalizing s with
  | nil => exact Iff.rfl
  | cons op ops ih =>
    exact and_congr (hCD s op h0 hops.1) (ih (hI s op h0 hops.1) hops.2)

/-- Two properties that agree in states that satisfy an invariant hold in all
states of the same admitted runs. -/
theorem always_congr {I P Q : State → Prop} {A : State → Op → Prop}
    (hI : ∀ s op, I s → A s op → I (step s op)) (hPQ : ∀ s, I s → (P s ↔ Q s))
    (h0 : I s) (hops : Along step A s ops) : Always step P s ops ↔ Always step Q s ops := by
  induction ops generalizing s with
  | nil => exact hPQ s h0
  | cons op ops ih => exact and_congr (hPQ s h0) (ih (hI s op h0 hops.1) hops.2)

/-- Exactness rule: when, in states that satisfy an invariant and the
property, one admitted step keeps the property exactly if it meets the
condition, a whole admitted run keeps it exactly if all its steps do. -/
theorem always_iff_along {I P : State → Prop} {A C : State → Op → Prop}
    (hI : ∀ s op, I s → A s op → I (step s op))
    (hP : ∀ s op, I s → P s → A s op → (P (step s op) ↔ C s op))
    (hI0 : I s) (hP0 : P s) (hops : Along step A s ops) :
    Always step P s ops ↔ Along step C s ops := by
  induction ops generalizing s with
  | nil => exact ⟨fun _ => trivial,fun _ => hP0⟩
  | cons op ops ih =>
    have hI1 := hI s op hI0 hops.1
    have hiff := hP s op hI0 hP0 hops.1
    constructor
    · rintro ⟨_,ht⟩
      exact ⟨hiff.mp ht.head,(ih hI1 ht.head hops.2).mp ht⟩
    · rintro ⟨hc,ht⟩
      exact ⟨hP0,(ih hI1 (hiff.mpr hc) hops.2).mpr ht⟩

/-- Exactness rule without an invariant and without admission. -/
theorem always_iff_along_of_step {P : State → Prop} {C : State → Op → Prop}
    (hP : ∀ s op, P s → (P (step s op) ↔ C s op)) (hP0 : P s) :
    Always step P s ops ↔ Along step C s ops :=
  always_iff_along (I:=fun _ => True) (A:=fun _ _ => True) (fun _ _ _ _ => trivial)
    (fun s op _ hs _ => hP s op hs) trivial hP0 (along_of_forall fun _ _ => trivial)

/-- Two conditions that always agree hold along the same runs. -/
theorem along_congr_of_forall {C D : State → Op → Prop} (hCD : ∀ s op, C s op ↔ D s op) :
    Along step C s ops ↔ Along step D s ops :=
  ⟨fun h => h.mono fun s op => (hCD s op).mp,fun h => h.mono fun s op => (hCD s op).mpr⟩

end TrustAlloc.Runs
