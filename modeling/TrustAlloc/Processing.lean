import Mathlib.Data.Int.Notation
import Mathlib.Data.Nat.Notation

/-!
# Computations that change a state and may fail

What such a computation has changed before it fails stays changed. There are
rules for how a computation ends, for what it keeps and for two computations
that go the same way, also for a loop that goes on until a decoder is at its end.
-/

namespace TrustAlloc.Processing

variable {S α β D : Type}

/-- A computation on a state that may fail with a number. -/
abbrev Process (S α : Type) := ExceptT ℤ (StateM S) α

/-- Run a computation. -/
def exec (x : Process S α) (s : S) : Except ℤ α×S := x.run.run s

/-- A computation succeeds with a value, in a state. -/
def Ends (x : Process S α) (s : S) (a : α) (s' : S) : Prop := exec x s=(.ok a,s')

/-- A computation keeps an invariant, whether it succeeds or fails. -/
def Keeps (I : S → Prop) (x : Process S α) : Prop := ∀ s, I s → I (exec x s).2

/-- One computation after the other. -/
theorem exec_bind (x : Process S α) (f : α → Process S β) (s : S) :
    exec (x >>= f) s=match exec x s with
      | (.ok a,s') => exec (f a) s'
      | (.error e,s') => (.error e,s') := by
  unfold exec
  rw [ExceptT.run_bind,StateT.run_bind]
  rcases x.run.run s with ⟨r,s'⟩
  cases r <;> rfl

section Success

variable {x : Process S α} {f : α → Process S β} {s s' s'' : S} {a : α} {b : β}

/-- A value is returned. -/
theorem ends_pure (a : α) (s : S) : Ends (pure a : Process S α) s a s := rfl

/-- One computation after the other. -/
theorem Ends.bind (hx : Ends x s a s') (hf : Ends (f a) s' b s'') : Ends (x >>= f) s b s'' := by
  unfold Ends at hx hf ⊢
  rw [exec_bind,hx]
  exact hf

/-- A check that is passed leaves the state alone. -/
theorem ends_check {y : Except ℤ α} (h : y=.ok a) (s : S) :
    Ends (liftM y : Process S α) s a s := by
  rw [h]
  rfl

/-- The state is changed. -/
theorem ends_modify (g : S → S) (s : S) : Ends (modify g : Process S PUnit) s ⟨⟩ (g s) := rfl

end Success

section Invariants

variable {I : S → Prop}

/-- Returning a value keeps everything. -/
theorem keeps_pure (a : α) : Keeps I (pure a : Process S α) := fun _ hs => hs

/-- So does failing. -/
theorem keeps_throw (e : ℤ) : Keeps I (throw e : Process S α) := fun _ hs => hs

/-- One computation after the other. -/
theorem Keeps.bind {x : Process S α} {f : α → Process S β} (hx : Keeps I x)
    (hf : ∀ a, Keeps I (f a)) : Keeps I (x >>= f) := by
  intro s hs
  have hs' := hx s hs
  rw [exec_bind]
  split
  · next a s' h =>
    rw [h] at hs'
    exact hf a s' hs'
  · next e s' h =>
    rw [h] at hs'
    exact hs'

/-- A check keeps everything. What it was passed with may be used behind it. -/
theorem keeps_check_bind {y : Except ℤ α} {f : α → Process S β}
    (hf : ∀ a, y=.ok a → Keeps I (f a)) : Keeps I ((liftM y : Process S α) >>= f) := by
  cases y with
  | error e => exact fun _ hs => hs
  | ok a => exact hf a rfl

/-- So does a check at the end. -/
theorem keeps_check (y : Except ℤ α) : Keeps I (liftM y : Process S α) := by
  cases y with
  | error e => exact fun _ hs => hs
  | ok a => exact fun _ hs => hs

/-- A change that keeps the invariant. -/
theorem keeps_modify {g : S → S} (hg : ∀ s, I s → I (g s)) :
    Keeps I (modify g : Process S PUnit) := hg

end Invariants

section Loops

/-- `while (!nanocbor_at_end(&dec))`, with a bound on its turns. -/
def untilEnd (atEnd : D → Bool) (body : D → Process S D) : ℕ → D → Process S D
  | 0,dec => if atEnd dec=true then return dec else throw (-1)
  | fuel+1,dec => if atEnd dec=true then return dec else do
    let dec ← body dec
    untilEnd atEnd body fuel dec

variable {atEnd : D → Bool} {body : D → Process S D}

/-- When each turn takes one element, the loop takes all of them in order. -/
theorem ends_untilEnd {At : List β → D → Prop} {step : S → β → S}
    (hend : ∀ l dec, At l dec → atEnd dec=l.isEmpty)
    (hbody : ∀ b l dec s, At (b::l) dec → ∃ dec', Ends (body dec) s dec' (step s b) ∧ At l dec')
    {l : List β} {fuel : ℕ} (hfuel : l.length≤fuel) {dec : D} (hdec : At l dec) (s : S) :
    ∃ dec', Ends (untilEnd atEnd body fuel dec) s dec' (l.foldl step s) ∧ At [] dec' := by
  induction l generalizing fuel dec s with
  | nil =>
    have htrue : atEnd dec=true := hend [] dec hdec
    refine ⟨dec,?_,hdec⟩
    cases fuel with
    | zero =>
      rw [untilEnd,if_pos htrue]
      rfl
    | succ fuel =>
      rw [untilEnd,if_pos htrue]
      rfl
  | cons b l ih =>
    have hfalse : atEnd dec=false := hend (b::l) dec hdec
    cases fuel with
    | zero => exact absurd hfuel (Nat.not_succ_le_zero _)
    | succ fuel =>
      obtain ⟨dec₁,hturn,hdec₁⟩ := hbody b l dec s hdec
      obtain ⟨dec₂,hrest,hdec₂⟩ := ih (Nat.le_of_succ_le_succ hfuel) hdec₁ (step s b)
      refine ⟨dec₂,?_,hdec₂⟩
      rw [untilEnd,hfalse,if_neg (by decide)]
      exact hturn.bind hrest

/-- What each turn keeps, the loop keeps. -/
theorem keeps_untilEnd {I : S → Prop} (hbody : ∀ dec, Keeps I (body dec)) (fuel : ℕ) (dec : D) :
    Keeps I (untilEnd atEnd body fuel dec) := by
  induction fuel generalizing dec with
  | zero =>
    rw [untilEnd]
    split
    · exact keeps_pure dec
    · exact keeps_throw (-1)
  | succ fuel ih =>
    rw [untilEnd]
    split
    · exact keeps_pure dec
    · exact (hbody dec).bind ih

end Loops

section Simulation

variable {T : Type} {R : S → T → Prop}

/-- From related states, two computations end alike, and in related states. -/
def Simulates (R : S → T → Prop) (x : Process S α) (y : Process T α) : Prop :=
  ∀ s t, R s t → (exec x s).1=(exec y t).1 ∧ R (exec x s).2 (exec y t).2

/-- Returning the same value. -/
theorem simulates_pure (a : α) : Simulates R (pure a) (pure a) := fun _ _ h => ⟨rfl,h⟩

/-- Failing with the same number. -/
theorem simulates_throw (e : ℤ) : Simulates R (throw e : Process S α) (throw e) :=
  fun _ _ h => ⟨rfl,h⟩

/-- The same check. -/
theorem simulates_check (y : Except ℤ α) :
    Simulates R (liftM y : Process S α) (liftM y : Process T α) := by
  cases y with
  | error e => exact simulates_throw e
  | ok a => exact simulates_pure a

/-- Changes that keep the relation. -/
theorem simulates_modify {g : S → S} {g' : T → T} (hg : ∀ s t, R s t → R (g s) (g' t)) :
    Simulates R (modify g : Process S PUnit) (modify g') := fun s t h => ⟨rfl,hg s t h⟩

/-- One computation after the other. -/
theorem Simulates.bind {x : Process S α} {y : Process T α} {f : α → Process S β}
    {f' : α → Process T β} (hx : Simulates R x y) (hf : ∀ a, Simulates R (f a) (f' a)) :
    Simulates R (x >>= f) (y >>= f') := by
  intro s t h
  obtain ⟨hresult,hstates⟩ := hx s t h
  rw [exec_bind,exec_bind]
  rcases hxs : exec x s with ⟨r,s'⟩
  rcases hyt : exec y t with ⟨r',t'⟩
  rw [hxs,hyt] at hresult hstates
  cases hresult
  cases r with
  | error e => exact ⟨rfl,hstates⟩
  | ok a => exact hf a s' t' hstates

/-- The same check, and what is done behind it. -/
theorem simulates_check_bind {y : Except ℤ α} {f : α → Process S β} {f' : α → Process T β}
    (hf : ∀ a, Simulates R (f a) (f' a)) :
    Simulates R ((liftM y : Process S α) >>= f) ((liftM y : Process T α) >>= f') :=
  (simulates_check y).bind hf

/-- When each turn goes the same way, the loop does. -/
theorem simulates_untilEnd {atEnd : D → Bool} {body : D → Process S D} {body' : D → Process T D}
    (hbody : ∀ dec, Simulates R (body dec) (body' dec)) (fuel : ℕ) (dec : D) :
    Simulates R (untilEnd atEnd body fuel dec) (untilEnd atEnd body' fuel dec) := by
  induction fuel generalizing dec with
  | zero =>
    rw [untilEnd,untilEnd]
    split
    · exact simulates_pure dec
    · exact simulates_throw (-1)
  | succ fuel ih =>
    rw [untilEnd,untilEnd]
    split
    · exact simulates_pure dec
    · exact (hbody dec).bind ih

end Simulation

end TrustAlloc.Processing
