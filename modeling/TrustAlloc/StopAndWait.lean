import TrustAlloc.Runs

/-!
# One message at a time

A sender that needs an answer for a message before it writes the next one, and
a receiver that answers at once or when it has done the work for a message.
What lies between them loses messages and answers and changes messages. There
is never more than one thing on its way, so the receiver may take for granted
that it has no work left when a message comes; and as long as nothing was lost,
a sender that needs an answer is going to get it.
-/

namespace TrustAlloc.StopAndWait

open Runs

variable {S A R B E M : Type}

section Ends

/-- One end: what it writes by its own steps, and what an answer does to it. -/
structure Sender (S A M : Type) where
  /-- A step, with the messages that it writes. -/
  step : S → A → S×List M
  /-- An answer arrives. -/
  answered : S → S
  /-- How many answers it needs. -/
  owed : S → ℕ

/-- The other end: what it does with messages, and how many answers it gives. -/
structure Receiver (R B E M : Type) where
  /-- A message is taken, which may turn out in several ways. -/
  take : R → E → M → R×ℕ
  /-- Another step. -/
  work : R → B → R×ℕ
  /-- How many answers are left until work has ended. -/
  pending : R → ℕ

/-- A sender needs one answer at most, and one for each message. What it
writes is regular. -/
structure Sender.Lawful (P : Sender S A M) (Regular : M → Bool) (I : S → Prop) : Prop where
  /-- At most one. -/
  one : ∀ s, I s → P.owed s≤1
  /-- The invariant of its steps. -/
  step : ∀ s a, I s → I (P.step s a).1
  /-- One for each message. -/
  owed_step : ∀ s a, I s → P.owed (P.step s a).1=P.owed s+(P.step s a).2.length
  /-- What is written. -/
  regular : ∀ s a, I s → ∀ m∈(P.step s a).2, Regular m=true
  /-- The invariant of answers. -/
  answered : ∀ s, I s → 0 < P.owed s → I (P.answered s)
  /-- An answer that is needed is one that is no longer needed. -/
  owed_answered : ∀ s, I s → 0 < P.owed s → P.owed (P.answered s)+1=P.owed s

/-- A receiver that has no work left answers a message at most once, now or
later, and a regular one just once. -/
structure Receiver.Lawful (Q : Receiver R B E M) (Regular : M → Bool) (J : R → Prop) : Prop where
  /-- The invariant of taking, where no work is left. -/
  take : ∀ r e m, J r → Q.pending r=0 → J (Q.take r e m).1
  /-- At most once. -/
  one : ∀ r e m, J r → Q.pending r=0 → (Q.take r e m).2+Q.pending (Q.take r e m).1≤1
  /-- Just once. -/
  regular : ∀ r e m, J r → Q.pending r=0 → Regular m=true →
    (Q.take r e m).2+Q.pending (Q.take r e m).1=1
  /-- The invariant of the other steps. -/
  work : ∀ r b, J r → J (Q.work r b).1
  /-- Answers that were left are given or still left. -/
  pending_work : ∀ r b, J r → (Q.work r b).2+Q.pending (Q.work r b).1=Q.pending r

end Ends

section System

/-- Both ends, and what is between them. -/
structure System (S R M : Type) where
  /-- The sender. -/
  sender : S
  /-- Messages on their way, oldest first. -/
  wire : List M
  /-- The receiver. -/
  receiver : R
  /-- Answers on their way. -/
  answers : ℕ
  /-- How many messages and answers were lost or changed; a history value. -/
  lost : ℕ

/-- What can happen next, in any order. -/
inductive Op (A B E M : Type) where
  /-- A step of the sender. -/
  | send (a : A)
  /-- A message is lost. -/
  | lose (k : ℕ)
  /-- A message is changed. -/
  | change (k : ℕ) (m : M)
  /-- The receiver takes a message. -/
  | take (e : E)
  /-- Another step of the receiver. -/
  | work (b : B)
  /-- An answer is lost. -/
  | loseAnswer
  /-- An answer arrives. -/
  | answer

variable (P : Sender S A M) (Q : Receiver R B E M)

/-- A step of the receiver, with its answers. -/
def System.received (s : System S R M) (out : R×ℕ) : System S R M :=
  {s with receiver := out.1,answers := s.answers+out.2}

/-- One step. What is not there is not lost, changed, taken or delivered. -/
def step (s : System S R M) : Op A B E M → System S R M
  | .send a => {s with
    sender := (P.step s.sender a).1
    wire := s.wire++(P.step s.sender a).2}
  | .lose k =>
    if k < s.wire.length then {s with wire := s.wire.eraseIdx k,lost := s.lost+1} else s
  | .change k m =>
    if k < s.wire.length then {s with wire := s.wire.set k m,lost := s.lost+1} else s
  | .take e =>
    match s.wire with
    | [] => s
    | m::rest => System.received {s with wire := rest} (Q.take s.receiver e m)
  | .work b => s.received (Q.work s.receiver b)
  | .loseAnswer => if s.answers=0 then s else {s with answers := s.answers-1,lost := s.lost+1}
  | .answer =>
    if s.answers=0 then s
    else {s with answers := s.answers-1,sender := P.answered s.sender}

/-- What is on its way: messages, work and answers. -/
def System.onItsWay (s : System S R M) : ℕ := s.wire.length+Q.pending s.receiver+s.answers

/-- Two ends at rest, with nothing between them. -/
def start (sender : S) (receiver : R) : System S R M := ⟨sender,[],receiver,0,0⟩

end System

section Balance

variable {P : Sender S A M} {Q : Receiver R B E M} {Regular : M → Bool} {I : S → Prop}
  {J : R → Prop} {s : System S R M}

/-- The answers that the sender needs are on their way, but for what was lost. -/
structure Balanced (P : Sender S A M) (Q : Receiver R B E M) (Regular : M → Bool) (I : S → Prop)
    (J : R → Prop) (s : System S R M) : Prop where
  /-- The invariant of the sender. -/
  sender : I s.sender
  /-- The invariant of the receiver. -/
  receiver : J s.receiver
  /-- Nothing else is on its way. -/
  most : s.onItsWay Q≤P.owed s.sender
  /-- What was not lost is on its way. -/
  least : P.owed s.sender≤ s.wire.countP Regular+Q.pending s.receiver+s.answers+s.lost

/-- There is never more than one thing on its way. -/
theorem Balanced.onItsWay_le (hP : P.Lawful Regular I) (h : Balanced P Q Regular I J s) :
    s.onItsWay Q≤1 := Nat.le_trans h.most (hP.one s.sender h.sender)

/-- Where a message is on its way, the receiver has no work left. -/
theorem Balanced.pending_eq_zero (hP : P.Lawful Regular I) (h : Balanced P Q Regular I J s)
    (hwire : s.wire≠[]) : Q.pending s.receiver=0 := by
  have hone := h.onItsWay_le hP
  have hpos := List.length_pos_of_ne_nil hwire
  unfold System.onItsWay at hone
  omega

/-- A step of the sender. -/
theorem Balanced.send (hP : P.Lawful Regular I) (h : Balanced P Q Regular I J s) (a : A) :
    Balanced P Q Regular I J (step P Q s (.send a)) := by
  have howed := hP.owed_step s.sender a h.sender
  have hmost := h.most
  have hleast := h.least
  have hall : (P.step s.sender a).2.countP Regular=(P.step s.sender a).2.length :=
    List.countP_eq_length.mpr (hP.regular s.sender a h.sender)
  refine ⟨hP.step s.sender a h.sender,h.receiver,?_,?_⟩
  · simp only [step,System.onItsWay,List.length_append] at hmost ⊢
    omega
  · simp only [step,List.countP_append]
    omega

/-- Losing a message. -/
theorem Balanced.lose (h : Balanced P Q Regular I J s) (k : ℕ) :
    Balanced P Q Regular I J (step P Q s (.lose k)) := by
  simp only [step]
  split
  · next hk =>
    have hmost := h.most
    have hleast := h.least
    have hlength := List.length_eraseIdx_of_lt hk
    have hcount : s.wire.countP Regular≤(s.wire.eraseIdx k).countP Regular+1 := by
      have hsplit : (s.wire.take k++s.wire.drop k).countP Regular=
          (s.wire.take k).countP Regular+(s.wire.drop k).countP Regular := List.countP_append
      rw [List.take_append_drop,List.drop_eq_getElem_cons hk,List.countP_cons] at hsplit
      rw [List.eraseIdx_eq_take_drop_succ,List.countP_append]
      split at hsplit <;> omega
    refine ⟨h.sender,h.receiver,?_,?_⟩
    · unfold System.onItsWay at hmost ⊢
      dsimp only
      omega
    · dsimp only
      omega
  · exact h

/-- Changing a message. -/
theorem Balanced.change (h : Balanced P Q Regular I J s) (k : ℕ) (m : M) :
    Balanced P Q Regular I J (step P Q s (.change k m)) := by
  simp only [step]
  split
  · next hk =>
    have hmost := h.most
    have hleast := h.least
    have hcount : s.wire.countP Regular≤(s.wire.set k m).countP Regular+1 := by
      rw [List.countP_set hk]
      split <;> split <;> omega
    refine ⟨h.sender,h.receiver,?_,?_⟩
    · unfold System.onItsWay at hmost ⊢
      dsimp only
      rw [List.length_set]
      omega
    · dsimp only
      omega
  · exact h

/-- The receiver takes a message when it has no work left. -/
theorem Balanced.take (hP : P.Lawful Regular I) (hQ : Q.Lawful Regular J)
    (h : Balanced P Q Regular I J s) (e : E) : Balanced P Q Regular I J (step P Q s (.take e)) := by
  cases hwire : s.wire with
  | nil =>
    have hsame : step P Q s (.take e)=s := by
      simp only [step,hwire]
    rw [hsame]
    exact h
  | cons m rest =>
    have hnone := h.pending_eq_zero hP (hwire ▸ List.cons_ne_nil m rest)
    have hone := hQ.one s.receiver e m h.receiver hnone
    have hregular := hQ.regular s.receiver e m h.receiver hnone
    have hmost := h.most
    have hleast := h.least
    simp only [System.onItsWay,hwire,List.length_cons] at hmost
    rw [hwire,List.countP_cons] at hleast
    simp only [step,hwire]
    refine ⟨h.sender,hQ.take s.receiver e m h.receiver hnone,?_,?_⟩
    · simp only [System.received,System.onItsWay]
      omega
    · simp only [System.received]
      split at hleast
      · next hm =>
        have hjust := hregular hm
        omega
      · omega

/-- Another step of the receiver. -/
theorem Balanced.work (hQ : Q.Lawful Regular J) (h : Balanced P Q Regular I J s) (b : B) :
    Balanced P Q Regular I J (step P Q s (.work b)) := by
  have hpending := hQ.pending_work s.receiver b h.receiver
  have hmost := h.most
  have hleast := h.least
  refine ⟨h.sender,hQ.work s.receiver b h.receiver,?_,?_⟩
  · simp only [step,System.received,System.onItsWay] at hmost ⊢
    omega
  · simp only [step,System.received]
    omega

/-- Losing an answer. -/
theorem Balanced.loseAnswer (h : Balanced P Q Regular I J s) :
    Balanced P Q Regular I J (step P Q s .loseAnswer) := by
  have hmost := h.most
  have hleast := h.least
  simp only [step]
  split
  · exact h
  · refine ⟨h.sender,h.receiver,?_,?_⟩
    · unfold System.onItsWay at hmost ⊢
      dsimp only
      omega
    · dsimp only
      omega

/-- An answer arrives where it is needed. -/
theorem Balanced.answer (hP : P.Lawful Regular I) (h : Balanced P Q Regular I J s) :
    Balanced P Q Regular I J (step P Q s .answer) := by
  have hmost := h.most
  have hleast := h.least
  simp only [step]
  split
  · exact h
  · next hanswers =>
    have hneeded : 0 < P.owed s.sender := by
      unfold System.onItsWay at hmost
      omega
    have howed := hP.owed_answered s.sender h.sender hneeded
    refine ⟨hP.answered s.sender h.sender hneeded,h.receiver,?_,?_⟩
    · unfold System.onItsWay at hmost ⊢
      dsimp only
      omega
    · dsimp only
      omega

/-- Every step keeps the balance. -/
theorem Balanced.step (hP : P.Lawful Regular I) (hQ : Q.Lawful Regular J)
    (h : Balanced P Q Regular I J s) (op : Op A B E M) :
    Balanced P Q Regular I J (step P Q s op) := by
  cases op with
  | send a => exact h.send hP a
  | lose k => exact h.lose k
  | change k m => exact h.change k m
  | take e => exact h.take hP hQ e
  | work b => exact h.work hQ b
  | loseAnswer => exact h.loseAnswer
  | answer => exact h.answer hP

end Balance

end TrustAlloc.StopAndWait
