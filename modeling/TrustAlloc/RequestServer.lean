import TrustAlloc.Pools
import TrustAlloc.Runs

/-!
# A server that handles one request at a time

Requesters queue entries of a pool; a server takes them one after the other,
ends some jobs at once, lets the others wait for a resource, writes the outcome
into the entry and posts it back. A requester is done with an entry only after
it was posted. What a requester may rely on is a property of its entry and of
what was done for it, and it lasts exactly when every posted job establishes it.
-/

namespace TrustAlloc.RequestServer

open Pools

variable {m : ℕ} {E R L K C : Type}

/-- What a job leaves: the entry, the data of the server, and what was done. -/
structure Outcome (E L C : Type) where
  /-- The entry. -/
  entry : E
  /-- The static data of the server. -/
  scratch : L
  /-- What was done for the entry. -/
  record : C

/-- A server for requests, whose jobs depend on what the resource answers. -/
structure Server (m : ℕ) (E R L K C : Type) where
  /-- The pool of entries. -/
  allocator : Allocator m
  /-- A request is written into a block. -/
  fill : R → E → E
  /-- What was done for an entry that was just queued. -/
  untouched : C
  /-- The job before it waits for the resource, if it ends there. -/
  start : E → Option (Outcome E L C)
  /-- The job with the resource. -/
  job : K → L → E → Outcome E L C

/-- The server and what its entries are up to. -/
structure State (m : ℕ) (E L C : Type) where
  /-- The entries. -/
  memb : Memb m E
  /-- Entries that wait for the server. -/
  queue : List (Fin m)
  /-- The entry that waits for the resource. -/
  item : Option (Fin m)
  /-- The static data of the server. -/
  scratch : L
  /-- Entries that were posted back and that are not freed. -/
  posted : List (Fin m)
  /-- Entries that could not be posted; they are never freed. -/
  lost : List (Fin m)
  /-- What was done for the entry in a block; a history value. -/
  record : Fin m → C

/-- A request is queued; nothing happens when the pool is full. -/
def enqueue (server : Server m E R L K C) (s : State m E L C) (request : R) : State m E L C :=
  match server.allocator.pick s.memb.used with
  | none => s
  | some i => {s with
      memb := (s.memb.take i).set i (server.fill request (s.memb.mem i))
      queue := s.queue++[i]
      record := Function.update s.record i server.untouched}

/-- A job has ended: the entry is posted, or lost. -/
def finish (s : State m E L C) (i : Fin m) (outcome : Outcome E L C) (post : Bool) :
    State m E L C :=
  {s with
    memb := s.memb.set i outcome.entry
    item := none
    scratch := outcome.scratch
    posted := if post=true then s.posted++[i] else s.posted
    lost := if post=true then s.lost else s.lost++[i]
    record := Function.update s.record i outcome.record}

/-- The server takes the next entry, up to the wait for the resource. -/
def dequeue (server : Server m E R L K C) (s : State m E L C) (post : Bool) : State m E L C :=
  match s.item,s.queue with
  | none,i::rest =>
    match server.start (s.memb.mem i) with
    | some outcome => finish {s with queue := rest} i outcome post
    | none => {s with queue := rest,item := some i}
  | _,_ => s

/-- The resource becomes available to the entry that waits for it. -/
def run (server : Server m E R L K C) (s : State m E L C) (codes : K) (post : Bool) :
    State m E L C :=
  match s.item with
  | none => s
  | some i => finish s i (server.job codes s.scratch (s.memb.mem i)) post

/-- A requester is done with an entry. -/
def done (s : State m E L C) (i : Fin m) : State m E L C :=
  {s with memb := s.memb.free i,posted := s.posted.erase i}

/-- What can happen next, in any order. -/
inductive Op (R K : Type) (m : ℕ) where
  /-- A requester queues a request. -/
  | enqueue (request : R)
  /-- The server runs while entries wait. -/
  | dequeue (post : Bool)
  /-- The resource is available, and its answers are these. -/
  | run (codes : K) (post : Bool)
  /-- A requester is done with a posted entry. -/
  | done (item : Fin m)

/-- One step of the server or of a requester. -/
def step (server : Server m E R L K C) (s : State m E L C) : Op R K m → State m E L C
  | .enqueue request => enqueue server s request
  | .dequeue post => dequeue server s post
  | .run codes post => run server s codes post
  | .done item => done s item

/-- Only an entry that was posted is ever given back. -/
def Admitted (s : State m E L C) : Op R K m → Prop
  | .done item => item∈s.posted
  | _ => True

/-- Admission is decided by the list of posted entries. -/
instance decidableAdmitted (s : State m E L C) : ∀ op : Op R K m, Decidable (Admitted s op)
  | .done item => inferInstanceAs (Decidable (item∈s.posted))
  | .enqueue _ | .dequeue _ | .run _ _ => .isTrue trivial

/-- An idle server whose blocks hold the given entry. -/
def start (m : ℕ) (entry : E) (scratch : L) (untouched : C) : State m E L C where
  memb := ⟨fun _ => false,fun _ => entry⟩
  queue := []
  item := none
  scratch := scratch
  posted := []
  lost := []
  record := fun _ => untouched

/-- The used blocks are those of the entries that wait, that are handled, or
that are with their requesters; the job that waits for the resource has not
ended before. -/
structure Inv (server : Server m E R L K C) (s : State m E L C) : Prop where
  /-- Every used block has exactly one place. -/
  owns : Owns s.memb.used (s.item.toList++s.queue++(s.posted++s.lost))
  /-- A job that waits has not ended before. -/
  waits : ∀ i∈s.item, server.start (s.memb.mem i)=none

/-- All requesters may rely on the property. -/
def Sound (P : E → C → Prop) (s : State m E L C) : Prop :=
  ∀ i∈s.posted, P (s.memb.mem i) (s.record i)

/-- Soundness is decided by the posted entries. -/
instance decidableSound (P : E → C → Prop) [∀ e c, Decidable (P e c)] (s : State m E L C) :
    Decidable (Sound P s) :=
  inferInstanceAs (Decidable (∀ i∈s.posted, P (s.memb.mem i) (s.record i)))

/-- A job whose entry is posted establishes the property. -/
def JobSound (server : Server m E R L K C) (P : E → C → Prop) (s : State m E L C) :
    Op R K m → Prop
  | .run codes true => ∀ i∈s.item,
      P (server.job codes s.scratch (s.memb.mem i)).entry
        (server.job codes s.scratch (s.memb.mem i)).record
  | _ => True

section Steps

variable {server : Server m E R L K C} {P : E → C → Prop} {s : State m E L C}

/-- An entry that waits, or is handled, is not posted as well. -/
theorem Inv.not_posted (h : Inv server s) {i : Fin m} (hi : i∈s.item.toList++s.queue) :
    i∉s.posted := fun hp =>
  (List.nodup_append.mp h.owns.nodup).2.2 i hi i (List.mem_append_left _ hp) rfl

/-- A free block is not posted. -/
theorem Inv.free_not_posted (h : Inv server s) {i : Fin m} (hi : s.memb.used i=false) :
    i∉s.posted := fun hp =>
  h.owns.not_mem hi (List.mem_append_right _ (List.mem_append_left _ hp))

/-- Queueing fills a free block, or changes nothing. -/
theorem enqueue_cases (server : Server m E R L K C) (s : State m E L C) (request : R) :
    enqueue server s request=s ∨
      ∃ i, s.memb.used i=false ∧ enqueue server s request={s with
        memb := (s.memb.take i).set i (server.fill request (s.memb.mem i))
        queue := s.queue++[i]
        record := Function.update s.record i server.untouched} := by
  unfold enqueue
  split
  · exact Or.inl rfl
  · next i hi => exact Or.inr ⟨i,server.allocator.pick_free hi,rfl⟩

/-- Taking an entry does nothing, or ends its job at once, or leaves it waiting
for the resource. -/
theorem dequeue_cases (server : Server m E R L K C) (s : State m E L C) (post : Bool) :
    dequeue server s post=s ∨
      ∃ i rest, s.item=none ∧ s.queue=i::rest ∧
        ((∃ outcome, server.start (s.memb.mem i)=some outcome ∧
            dequeue server s post=finish {s with queue := rest} i outcome post) ∨
          (server.start (s.memb.mem i)=none ∧
            dequeue server s post={s with queue := rest,item := some i})) := by
  unfold dequeue
  split
  · next i rest hitem hqueue =>
    refine Or.inr ⟨i,rest,hitem,hqueue,?_⟩
    cases hstart : server.start (s.memb.mem i) with
    | some outcome => exact Or.inl ⟨outcome,rfl,rfl⟩
    | none => exact Or.inr ⟨rfl,rfl⟩
  · exact Or.inl rfl

/-- Ending a job moves its entry to the posted or to the lost ones. -/
theorem Inv.finish {i : Fin m} (hown : Owns s.memb.used (i::s.queue++(s.posted++s.lost)))
    (outcome : Outcome E L C) (post : Bool) : Inv server (finish s i outcome post) := by
  refine ⟨hown.perm (List.perm_iff_count.mpr fun a => ?_),fun j hj => (nomatch hj)⟩
  cases post with
  | true =>
    simp only [RequestServer.finish,if_true,Option.toList_none,List.nil_append,List.count_append,
      List.count_cons,List.count_nil]
    omega
  | false =>
    simp only [RequestServer.finish,Bool.false_eq_true,if_false,Option.toList_none,
      List.nil_append,List.cons_append,List.count_append,List.count_cons,List.count_nil]
    omega

/-- Queueing a request keeps the invariant. -/
theorem Inv.enqueue (h : Inv server s) (request : R) : Inv server (enqueue server s request) := by
  rcases enqueue_cases server s request with hq | ⟨i,hi,hq⟩
  · rw [hq]
    exact h
  · rw [hq]
    refine ⟨(h.owns.take hi).perm (List.perm_iff_count.mpr fun a => ?_),fun j hj => ?_⟩
    · simp only [List.count_append,List.count_cons,List.count_nil]
      omega
    · have hne : j≠i := h.owns.ne_of_mem
        (List.mem_append_left _ (List.mem_append_left _ (Option.mem_toList.mpr hj))) hi
      rw [(s.memb.take i).set_mem_other _ hne]
      exact h.waits j hj

/-- Taking an entry keeps the invariant. -/
theorem Inv.dequeue (h : Inv server s) (post : Bool) : Inv server (dequeue server s post) := by
  rcases dequeue_cases server s post with
    hd | ⟨i,rest,hitem,hqueue,⟨outcome,_,hd⟩ | ⟨hstart,hd⟩⟩
  · rw [hd]
    exact h
  · rw [hd]
    have hown := h.owns
    rw [hitem,hqueue] at hown
    exact Inv.finish hown outcome post
  · rw [hd]
    have hown := h.owns
    rw [hitem,hqueue] at hown
    exact ⟨hown,fun j hj => Option.some.inj hj ▸ hstart⟩

/-- Running a job keeps the invariant. -/
theorem Inv.run (h : Inv server s) (codes : K) (post : Bool) :
    Inv server (run server s codes post) := by
  unfold RequestServer.run
  split
  · exact h
  · next i hitem =>
    have hown := h.owns
    rw [hitem] at hown
    exact Inv.finish hown _ post

/-- Every admitted step keeps the invariant. -/
theorem Inv.step (h : Inv server s) {op : Op R K m} (hop : Admitted s op) :
    Inv server (step server s op) := by
  cases op with
  | enqueue request => exact h.enqueue request
  | dequeue post => exact h.dequeue post
  | run codes post => exact h.run codes post
  | done item =>
    have hposted : item∈s.posted := hop
    have hnot : item∉s.item.toList++s.queue := fun hi => h.not_posted hi hposted
    have hown := h.owns.free (List.mem_append_right _ (List.mem_append_left _ hposted))
    rw [List.erase_append_right _ hnot,List.erase_append_left _ hposted] at hown
    exact ⟨hown,h.waits⟩

/-- After a job has ended, all requesters may rely on the property exactly when
its own may, if its entry was posted at all. -/
theorem sound_finish_iff (hs : Sound P s) {i : Fin m} (hi : i∉s.posted)
    (outcome : Outcome E L C) (post : Bool) :
    Sound P (finish s i outcome post) ↔ (post=true → P outcome.entry outcome.record) := by
  have hold : ∀ j∈s.posted,
      P ((finish s i outcome post).memb.mem j) ((finish s i outcome post).record j) := by
    intro j hj
    have hne : j≠i := fun he => hi (he ▸ hj)
    have hmem : (finish s i outcome post).memb.mem j=s.memb.mem j := s.memb.set_mem_other _ hne
    have hrecord : (finish s i outcome post).record j=s.record j := Function.update_of_ne hne ..
    rw [hmem,hrecord]
    exact hs j hj
  have hnew : P ((finish s i outcome post).memb.mem i) ((finish s i outcome post).record i) ↔
      P outcome.entry outcome.record := by
    simp only [finish,Memb.set_mem_same,Function.update_self]
  cases post with
  | true =>
    rw [←hnew]
    constructor
    · intro h _
      exact h i (List.mem_append_right _ (List.mem_singleton.mpr rfl))
    · intro h j hj
      rcases List.mem_append.mp hj with hj | hj
      · exact hold j hj
      · rw [List.mem_singleton.mp hj]
        exact h rfl
  | false => exact iff_of_true hold nofun

/-- One admitted step keeps the property for all requesters exactly when the
job that it posts, if any, establishes it. A job that ends at once always does. -/
theorem sound_step_iff (hstart : ∀ e outcome, server.start e=some outcome →
      P outcome.entry outcome.record) (h : Inv server s) (hs : Sound P s) {op : Op R K m}
    (hop : Admitted s op) : Sound P (step server s op) ↔ JobSound server P s op := by
  cases op with
  | enqueue request =>
    refine iff_of_true ?_ trivial
    rcases enqueue_cases server s request with hq | ⟨i,hi,hq⟩
    · rw [step,hq]
      exact hs
    · rw [step,hq]
      intro j hj
      have hne : j≠i := fun he => h.free_not_posted hi (he ▸ hj)
      dsimp only
      rw [(s.memb.take i).set_mem_other _ hne,Function.update_of_ne hne]
      exact hs j hj
  | dequeue post =>
    refine iff_of_true ?_ trivial
    rcases dequeue_cases server s post with
      hd | ⟨i,rest,hitem,hqueue,⟨outcome,hended,hd⟩ | ⟨_,hd⟩⟩
    · rw [step,hd]
      exact hs
    · rw [step,hd]
      have hi : i∉s.posted := h.not_posted (List.mem_append_right _ (by
        rw [hqueue]
        exact List.mem_cons_self))
      have hsound : Sound P {s with queue := rest} := hs
      exact (sound_finish_iff hsound hi outcome post).mpr fun _ => hstart _ _ hended
    · rw [step,hd]
      exact hs
  | run codes post =>
    rw [step]
    unfold run
    cases hitem : s.item with
    | none =>
      refine iff_of_true hs ?_
      cases post with
      | true =>
        intro i hi
        rw [hitem] at hi
        cases hi
      | false => trivial
    | some i =>
      have hi : i∉s.posted := h.not_posted (List.mem_append_left _ (by
        rw [hitem]
        exact List.mem_singleton.mpr rfl))
      dsimp only
      rw [sound_finish_iff hs hi]
      cases post with
      | true => simp [JobSound,hitem]
      | false => exact iff_of_true nofun trivial
  | done item => exact iff_of_true (fun j hj => hs j (List.mem_of_mem_erase hj)) trivial

end Steps

/-- The invariant holds of an idle server. -/
theorem inv_start (server : Server m E R L K C) (entry : E) (scratch : L) (untouched : C) :
    Inv server (start m entry scratch untouched) :=
  ⟨⟨List.nodup_nil,fun i => by simp [start]⟩,fun _ hj => (nomatch hj)⟩

/-- So does every property of posted entries. -/
theorem sound_start (P : E → C → Prop) (entry : E) (scratch : L) (untouched : C) :
    Sound P (start m entry scratch untouched) := fun _ hj => absurd hj List.not_mem_nil

end TrustAlloc.RequestServer
