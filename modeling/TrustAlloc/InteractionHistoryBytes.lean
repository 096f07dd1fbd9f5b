import TrustAlloc.InteractionHistory
import TrustAlloc.LocalArrays

/-!
# The history of interactions in its bytes

`interaction-history.c` keeps its indices and its count in bytes, and its
iterator is a pointer into the buffer. Sizes up to 255 fit, and the bytes then
follow the indices of the ring, so that iterating visits the last interactions.
-/

namespace TrustAlloc.InteractionHistoryBytes

open LocalArrays

/-- `interaction_history_t` for an `INTERACTION_HISTORY_SIZE`. -/
structure InteractionHistoryT (size : ℕ) where
  /-- The buffer. -/
  interactions : Fin size → UInt8
  /-- Index of the oldest interaction. -/
  head : UInt8
  /-- Index of the next interaction to be written. -/
  tail : UInt8
  /-- Number of interactions. -/
  count : UInt8

variable {size : ℕ}

/-- `interaction_history_init`, which leaves the buffer as it is. -/
def interactionHistoryInit (hist : InteractionHistoryT size) : InteractionHistoryT size :=
  {hist with head := 0, tail := 0, count := 0}

/-- An assignment to an element of the buffer. -/
def store (interactions : Fin size → UInt8) (i : ℕ) (interaction : UInt8) :
    Checked (Fin size → UInt8) :=
  if h : i < size then return Function.update interactions ⟨i,h⟩ interaction
  else throw .outside

/-- What an iterator into the buffer points to. -/
def load (interactions : Fin size → UInt8) (i : ℕ) : Checked UInt8 :=
  if h : i < size then return interactions ⟨i,h⟩ else throw .outside

/-- `interaction_history_push`. Indices are computed as `int` and kept in bytes. -/
def interactionHistoryPush (hist : InteractionHistoryT size) (interaction : UInt8) :
    Checked (InteractionHistoryT size) := do
  let hist := if hist.count.toNat=size then
      {hist with head := UInt8.ofNat ((hist.head.toNat+1)%size), count := hist.count-1}
    else hist
  let interactions ← store hist.interactions hist.tail.toNat interaction
  return {hist with
    interactions := interactions
    tail := UInt8.ofNat ((hist.tail.toNat+1)%size)
    count := hist.count+1}

/-- `interaction_history_iter`. An iterator is its distance from the buffer's start. -/
def interactionHistoryIter (hist : InteractionHistoryT size) : Option ℕ :=
  if hist.count=0 then none else some hist.head.toNat

/-- `interaction_history_next`. -/
def interactionHistoryNext (hist : InteractionHistoryT size) (iter : ℕ) : Option ℕ :=
  let iter := iter+1
  let iter := if iter=size then 0 else iter
  if iter=hist.tail.toNat then none else some iter

/-- Why a loop over a history has no result. -/
inductive Stop where
  /-- An access outside the buffer. -/
  | fault (f : Fault)
  /-- It goes on after the turns it was given. -/
  | running
  deriving DecidableEq

/-- The values that a loop from an iterator to `NULL` reads, in a number of turns. -/
def visit (hist : InteractionHistoryT size) : ℕ → Option ℕ → Except Stop (List UInt8)
  | _,none => return []
  | 0,some _ => throw .running
  | turns+1,some iter =>
    match load hist.interactions iter with
    | .error f => throw (.fault f)
    | .ok interaction => do
      let rest ← visit hist turns (interactionHistoryNext hist iter)
      return interaction::rest

/-- A history after `interaction_history_init` and some pushes. -/
def pushAll (hist : InteractionHistoryT size) (pushes : List UInt8) :
    Checked (InteractionHistoryT size) :=
  pushes.foldlM interactionHistoryPush (interactionHistoryInit hist)

/-- The bytes hold the indices and the count of a ring. -/
structure Holds (hist : InteractionHistoryT size)
    (ring : InteractionHistory.InteractionHistoryT size) : Prop where
  /-- The buffer is the same. -/
  interactions : hist.interactions=ring.interactions
  /-- The byte holds the index of the oldest interaction. -/
  head : hist.head.toNat=ring.head.val
  /-- The byte holds the index that is written next. -/
  tail : hist.tail.toNat=ring.tail.val
  /-- The byte holds the count. -/
  count : hist.count.toNat=ring.count

section Sizes

variable [NeZero size] (hsize : size ≤ 255)

include hsize

/-- An index fits into a byte. -/
theorem toNat_ofNat_mod (n : ℕ) : (UInt8.ofNat (n%size)).toNat=n%size := by
  have hlt := Nat.mod_lt n (Nat.pos_of_neZero size)
  rw [UInt8.toNat_ofNat',Nat.mod_eq_of_lt (by omega)]

/-- One index further in a byte is one place further in the ring. -/
theorem toNat_succ {b : UInt8} {i : Fin size} (h : b.toNat=i.val) :
    (UInt8.ofNat ((b.toNat+1)%size)).toNat=(i+1).val := by
  rw [toNat_ofNat_mod hsize,h,Fin.val_add,Fin.val_one',Nat.add_mod_mod]

variable {hist : InteractionHistoryT size} {ring : InteractionHistory.InteractionHistoryT size}
  (h : Holds hist ring)

include h

/-- A push in bytes follows the push to the ring. -/
theorem Holds.push (hring : InteractionHistory.Ring ring) (interaction : UInt8) :
    ∃ hist', interactionHistoryPush hist interaction=.ok hist' ∧
      Holds hist' (InteractionHistory.interactionHistoryPush ring interaction) := by
  have hcount := hring.count
  have hsub : hist.count.toNat=size → (hist.count-1).toNat=ring.count-1 := by
    intro heq
    have hpos := Nat.pos_of_neZero size
    rw [UInt8.toNat_sub_of_le,h.count]
    · rfl
    · rw [UInt8.le_iff_toNat_le,heq]
      exact hpos
  have hadd : ∀ {c : UInt8} {n : ℕ}, c.toNat=n → n < size → (c+1).toNat=n+1 := by
    intro c n hc hn
    rw [UInt8.toNat_add,hc]
    exact Nat.mod_eq_of_lt (by simp only [UInt8.toNat_one]; omega)
  have hinside : hist.tail.toNat < size := h.tail ▸ ring.tail.isLt
  have htail : (⟨hist.tail.toNat,hinside⟩ : Fin size)=ring.tail := Fin.ext h.tail
  unfold interactionHistoryPush InteractionHistory.interactionHistoryPush
  rw [h.count]
  by_cases hfull : ring.count=size
  · refine ⟨_,by simp only [if_pos hfull,store,dif_pos hinside]; rfl,?_⟩
    have hpos := Nat.pos_of_neZero size
    simp only [if_pos hfull]
    exact ⟨by rw [htail,h.interactions],toNat_succ hsize h.head,toNat_succ hsize h.tail,
      hadd (hsub (h.count.trans hfull)) (by omega)⟩
  · refine ⟨_,by simp only [if_neg hfull,store,dif_pos hinside]; rfl,?_⟩
    simp only [if_neg hfull]
    exact ⟨by rw [htail,h.interactions],h.head,toNat_succ hsize h.tail,
      hadd h.count (by omega)⟩

omit hsize in
/-- The next iterator is the next place of the ring. -/
theorem Holds.next (i : Fin size) :
    interactionHistoryNext hist i.val=
      (InteractionHistory.interactionHistoryNext ring i).map Fin.val := by
  have hwrap : (if i.val+1=size then 0 else i.val+1)=(i+1).val := by
    have hi := i.isLt
    rw [Fin.val_add,Fin.val_one',Nat.add_mod_mod]
    split
    · next heq => rw [heq,Nat.mod_self]
    · next hne => rw [Nat.mod_eq_of_lt (by omega)]
  unfold interactionHistoryNext InteractionHistory.interactionHistoryNext
  dsimp only
  rw [hwrap,h.tail]
  by_cases heq : i+1=ring.tail
  · rw [if_pos heq,if_pos (congrArg Fin.val heq),Option.map_none]
  · rw [if_neg heq,if_neg fun hval => heq (Fin.ext hval),Option.map_some]

omit hsize in
/-- A loop from some place on visits what the ring holds from there. -/
theorem Holds.visit (hring : InteractionHistory.Ring ring) {turns k : ℕ} (hk : k < ring.count)
    (hturns : ring.count ≤ k+turns) :
    visit hist turns (some (InteractionHistory.after ring.head k).val)=
      .ok ((InteractionHistory.stored ring).drop k) := by
  induction turns generalizing k with
  | zero => omega
  | succ turns ih =>
    have hlength : k < (InteractionHistory.stored ring).length := by
      simpa [InteractionHistory.stored] using hk
    have hload : load hist.interactions (InteractionHistory.after ring.head k).val=
        .ok (InteractionHistory.stored ring)[k] := by
      rw [load,dif_pos (InteractionHistory.after ring.head k).isLt,h.interactions]
      simp [InteractionHistory.stored]
      rfl
    rw [InteractionHistoryBytes.visit,hload,h.next,List.drop_eq_getElem_cons hlength]
    by_cases hlast : k+1=ring.count
    · rw [InteractionHistory.next_last hring hlast,List.drop_eq_nil_of_le
        (by simp [InteractionHistory.stored]; omega)]
      cases turns <;> rfl
    · rw [InteractionHistory.next hring (by omega),Option.map_some]
      dsimp only
      rw [ih (by omega) (by omega)]
      rfl

end Sizes

/-- After every sequence of pushes the bytes hold the ring of these pushes. -/
theorem pushAll_holds [NeZero size] (hsize : size ≤ 255) (hist : InteractionHistoryT size)
    (pushes : List UInt8) :
    ∃ hist', pushAll hist pushes=.ok hist' ∧
      Holds hist' (InteractionHistory.pushAll hist.interactions pushes) := by
  induction pushes using List.reverseRecOn with
  | nil => exact ⟨_,rfl,⟨rfl,rfl,rfl,rfl⟩⟩
  | append_singleton pushes interaction ih =>
    obtain ⟨hist',heq,hholds⟩ := ih
    obtain ⟨hist'',hpush,hholds'⟩ := hholds.push hsize
      (InteractionHistory.pushAll_stored hist.interactions pushes).1 interaction
    refine ⟨hist'',?_,?_⟩
    · rw [pushAll,foldlM_concat heq]
      exact hpush
    · rw [InteractionHistory.pushAll,List.foldl_append]
      exact hholds'

/-- A history of any size up to 255 is a bounded queue: a loop over it ends and
visits the last interactions that were pushed, as many as there is room for, in
the order they were pushed, and the count is their number. -/
theorem history_bounded_fifo (size : ℕ) (hpos : 1 ≤ size) (hsize : size ≤ 255)
    (hist : InteractionHistoryT size) (pushes : List UInt8) :
    ∃ hist', pushAll hist pushes=.ok hist' ∧
      hist'.count.toNat=min pushes.length size ∧
      ∀ turns, size ≤ turns → visit hist' turns (interactionHistoryIter hist')=
        .ok (pushes.drop (pushes.length-min pushes.length size)) := by
  have : NeZero size := ⟨by omega⟩
  obtain ⟨hist',heq,hholds⟩ := pushAll_holds hsize hist pushes
  obtain ⟨hring,hstored⟩ := InteractionHistory.pushAll_stored hist.interactions pushes
  set ring := InteractionHistory.pushAll hist.interactions pushes with hdef
  have hlength : ring.count=min pushes.length size := by
    have hlast := InteractionHistory.length_lastOnes size pushes
    rw [←hstored,InteractionHistory.stored,List.length_map,List.length_range] at hlast
    omega
  have hlast : InteractionHistory.stored ring=
      pushes.drop (pushes.length-min pushes.length size) := by
    rw [hstored,InteractionHistory.lastOnes]
    congr 1
    omega
  refine ⟨hist',heq,hholds.count.trans hlength,fun turns hturns => ?_⟩
  have hcount := hring.count
  by_cases hempty : ring.count=0
  · have hzero : hist'.count=0 := UInt8.toNat_inj.mp (hholds.count.trans hempty)
    rw [interactionHistoryIter,if_pos hzero,List.drop_eq_nil_of_le (by omega)]
    cases turns <;> rfl
  · have hne : hist'.count≠0 := by
      intro hzero
      have hcount' := hholds.count
      rw [hzero] at hcount'
      exact hempty hcount'.symm
    have hfirst : 0 < ring.count := Nat.pos_of_ne_zero hempty
    have hturns' : ring.count ≤ 0+turns := by omega
    have hvisit := hholds.visit hring hfirst hturns'
    rw [InteractionHistory.after_zero,List.drop_zero,hlast] at hvisit
    rw [interactionHistoryIter,if_neg hne,hholds.head]
    exact hvisit

/-- A history of two places before it is initialised. -/
def twoPlaces : InteractionHistoryT 2 := ⟨fun _ => 0xFF,1,1,3⟩

/-- Three pushes to a history of two places. -/
theorem history_bounded_fifo_two : ∃ hist', pushAll twoPlaces [7,8,9]=.ok hist' ∧
    hist'.count.toNat=2 ∧
      ∀ turns, 2 ≤ turns → visit hist' turns (interactionHistoryIter hist')=.ok [8,9] :=
  history_bounded_fifo 2 (by decide) (by decide) twoPlaces [7,8,9]

end TrustAlloc.InteractionHistoryBytes
