import Mathlib.Algebra.GroupWithZero.Nat
import Mathlib.Data.Fin.Basic
import Mathlib.Data.List.Basic
import Mathlib.Data.List.Induction
import Mathlib.Logic.Function.Basic
import Mathlib.Tactic.Set

/-!
# The history of interactions

The ring buffer of `interaction-history.c`. It holds the last interactions that
were pushed, as many as it has room for, and iterating over it visits them with
the oldest first.
-/

namespace TrustAlloc.InteractionHistory

/-- `INTERACTION_HISTORY_SIZE`. -/
abbrev interactionHistorySize : ℕ := 8

/-- `interaction_history_t` of a size. Indices stay below the size, as the code
takes them modulo the size. -/
structure InteractionHistoryT (size : ℕ) where
  /-- The buffer. -/
  interactions : Fin size → UInt8
  /-- Index of the oldest interaction. -/
  head : Fin size
  /-- Index of the next interaction to be written. -/
  tail : Fin size
  /-- Number of interactions. -/
  count : ℕ

variable {size : ℕ} [NeZero size]

/-- `interaction_history_init`, which leaves the buffer as it is. -/
def interactionHistoryInit (interactions : Fin size → UInt8) : InteractionHistoryT size :=
  ⟨interactions,0,0,0⟩

/-- `interaction_history_push`. -/
def interactionHistoryPush (hist : InteractionHistoryT size) (interaction : UInt8) :
    InteractionHistoryT size :=
  let hist := if hist.count=size then {hist with head := hist.head+1, count := hist.count-1}
    else hist
  {hist with
    interactions := Function.update hist.interactions hist.tail interaction
    tail := hist.tail+1
    count := hist.count+1}

/-- `interaction_history_iter`. -/
def interactionHistoryIter (hist : InteractionHistoryT size) : Option (Fin size) :=
  if hist.count=0 then none else some hist.head

/-- `interaction_history_next`. -/
def interactionHistoryNext (hist : InteractionHistoryT size) (iter : Fin size) :
    Option (Fin size) :=
  if iter+1=hist.tail then none else some (iter+1)

/-- A history after some interactions, in a buffer with any content. -/
def pushAll (interactions : Fin size → UInt8) (pushes : List UInt8) : InteractionHistoryT size :=
  pushes.foldl interactionHistoryPush (interactionHistoryInit interactions)

/-- The index some places after another. -/
def after (start : Fin size) (k : ℕ) : Fin size := start+Fin.ofNat size k

/-- Places are counted modulo the size. -/
theorem val_after (start : Fin size) (k : ℕ) : (after start k).val=(start.val+k)%size := by
  simp [after,Fin.val_add]

/-- No place after an index is the index. -/
@[simp] theorem after_zero (start : Fin size) : after start 0=start := by
  simp [after]

/-- One place more. -/
theorem after_succ (start : Fin size) (k : ℕ) : after start (k+1)=after start k+1 := by
  apply Fin.ext
  rw [Fin.val_add,val_after,val_after,Fin.val_one',←Nat.add_mod,Nat.add_assoc]

/-- One place later is one place more. -/
theorem after_add_one (start : Fin size) (k : ℕ) : after (start+1) k=after start (k+1) := by
  apply Fin.ext
  rw [val_after,val_after,Fin.val_add,Fin.val_one',Nat.add_mod_mod,Nat.mod_add_mod,
    Nat.add_assoc,Nat.add_comm 1 k]

/-- Different places less than the size apart are different indices. -/
theorem after_ne {start : Fin size} {j k : ℕ} (hjk : j < k) (hk : k < j+size) :
    after start j≠after start k := by
  intro h
  have hval := congrArg Fin.val h
  rw [val_after,val_after] at hval
  have hzero := Nat.sub_mod_eq_zero_of_mod_eq hval.symm
  rw [Nat.mod_eq_of_lt (by omega)] at hzero
  omega

/-- The indices fit together, and the buffer holds no more than it has room for. -/
structure Ring (hist : InteractionHistoryT size) : Prop where
  /-- There is room for what is held. -/
  count : hist.count ≤ size
  /-- What is held lies between the indices. -/
  tail : hist.tail=after hist.head hist.count

/-- The interactions that are held, oldest first. -/
def stored (hist : InteractionHistoryT size) : List UInt8 :=
  (List.range hist.count).map fun k => hist.interactions (after hist.head k)

/-- The last entries of a list, no more than a number of them. -/
def lastOnes {α : Type} (n : ℕ) (l : List α) : List α := l.drop (l.length-n)

/-- One entry more displaces the oldest one when there are enough. -/
theorem lastOnes_append {α : Type} (n : ℕ) (hn : 0 < n) (l : List α) (x : α) :
    lastOnes n (l++[x])=
      (if (lastOnes n l).length=n then (lastOnes n l).tail else lastOnes n l)++[x] := by
  unfold lastOnes
  rw [List.length_drop,List.length_append,List.length_singleton,List.tail_drop]
  split
  · next h =>
    rw [List.drop_append_of_le_length (by omega)]
    congr 2
    omega
  · next h =>
    rw [List.drop_append_of_le_length (by omega)]
    congr 2
    omega

/-- There are no more last entries than asked for. -/
theorem length_lastOnes {α : Type} (n : ℕ) (l : List α) :
    (lastOnes n l).length=min n l.length := by
  rw [lastOnes,List.length_drop]
  omega

/-- A new history holds nothing. -/
theorem ring_interactionHistoryInit (interactions : Fin size → UInt8) :
    Ring (interactionHistoryInit interactions) :=
  ⟨Nat.zero_le _,by simp [interactionHistoryInit]⟩

/-- Iterating begins with the oldest interaction that is held. -/
theorem iter {hist : InteractionHistoryT size} (hcount : 0 < hist.count) :
    interactionHistoryIter hist=some (after hist.head 0) := by
  rw [interactionHistoryIter,if_neg hcount.ne',after_zero]

section Push

variable {hist : InteractionHistoryT size} (h : Ring hist) (interaction : UInt8)

include h

/-- A push to a history with room appends. -/
theorem push_of_lt (hlt : hist.count < size) :
    Ring (interactionHistoryPush hist interaction) ∧
      stored (interactionHistoryPush hist interaction)=stored hist++[interaction] := by
  simp only [interactionHistoryPush,if_neg hlt.ne]
  refine ⟨⟨hlt,?_⟩,?_⟩
  · rw [h.tail,after_succ]
  · unfold stored
    dsimp only
    rw [List.range_succ,List.map_append,List.map_singleton,h.tail,Function.update_self]
    congr 1
    refine List.map_congr_left fun k hk => ?_
    have hk' := List.mem_range.mp hk
    rw [Function.update_of_ne (after_ne hk' (by omega))]

/-- A push to a full history drops the oldest interaction. -/
theorem push_of_eq (heq : hist.count=size) :
    Ring (interactionHistoryPush hist interaction) ∧
      stored (interactionHistoryPush hist interaction)=(stored hist).tail++[interaction] := by
  have hpos : 0 < size := Nat.pos_of_neZero size
  let rest := {hist with head := hist.head+1, count := hist.count-1}
  have hrest : Ring rest := by
    refine ⟨by dsimp [rest]; omega,?_⟩
    dsimp [rest]
    rw [after_add_one,Nat.sub_add_cancel (by omega),h.tail]
  have hstored : stored rest=(stored hist).tail := by
    unfold stored
    cases hcount : hist.count with
    | zero => omega
    | succ n =>
      rw [List.range_succ_eq_map,List.map_cons,List.tail_cons,List.map_map]
      dsimp only [rest]
      rw [hcount,Nat.add_sub_cancel]
      exact List.map_congr_left fun k _ => by rw [after_add_one]; rfl
  have hpush : interactionHistoryPush hist interaction=interactionHistoryPush rest interaction := by
    simp only [interactionHistoryPush,if_pos heq]
    rw [if_neg]
    dsimp [rest]
    omega
  rw [hpush,←hstored]
  exact push_of_lt hrest interaction (by dsimp [rest]; omega)

/-- A push appends, and drops the oldest interaction when there is no room. -/
theorem push : Ring (interactionHistoryPush hist interaction) ∧
    stored (interactionHistoryPush hist interaction)=
      (if (stored hist).length=size then (stored hist).tail else stored hist)++[interaction] := by
  have hlength : (stored hist).length=hist.count := by simp [stored]
  rw [hlength]
  by_cases hfull : hist.count=size
  · rw [if_pos hfull]
    exact push_of_eq h interaction hfull
  · rw [if_neg hfull]
    exact push_of_lt h interaction (Nat.lt_of_le_of_ne h.count hfull)

/-- It goes on to the next interaction as long as there is one. -/
theorem next {k : ℕ} (hk : k+1 < hist.count) :
    interactionHistoryNext hist (after hist.head k)=some (after hist.head (k+1)) := by
  have hcount := h.count
  rw [interactionHistoryNext,←after_succ,h.tail,if_neg (after_ne hk (by omega))]

/-- It stops after the newest one. -/
theorem next_last {k : ℕ} (hk : k+1=hist.count) :
    interactionHistoryNext hist (after hist.head k)=none := by
  rw [interactionHistoryNext,←after_succ,h.tail,hk,if_pos rfl]

end Push

/-- A history holds the last interactions that were pushed, as many as it has
room for, whatever the buffer held before. -/
theorem pushAll_stored (interactions : Fin size → UInt8) (pushes : List UInt8) :
    Ring (pushAll interactions pushes) ∧
      stored (pushAll interactions pushes)=lastOnes size pushes := by
  induction pushes using List.reverseRecOn with
  | nil => exact ⟨ring_interactionHistoryInit interactions,by
    rw [lastOnes,List.drop_nil]
    rfl⟩
  | append_singleton pushes interaction ih =>
    have hpush := push ih.1 interaction
    rw [ih.2,←lastOnes_append size (Nat.pos_of_neZero size)] at hpush
    rw [pushAll,List.foldl_append]
    exact hpush

end TrustAlloc.InteractionHistory
