import Mathlib.Data.List.Basic
import Mathlib.Logic.Function.Iterate

/-!
# Workers written as protothreads

A worker is a process that yields until its queue is not empty, takes the
first job, spawns a child for it, and pauses before it goes on. A yield always
gives up control and looks again only when a poll or an event is delivered;
while a child runs, everything is delivered to the child; a pause posts an
event to the worker itself and takes no other. A request is queued together
with a poll. Whether a queue is attended to is a matter of what is delivered
at the yield, and it is lost by a second request that is queued too early.
-/

namespace TrustAlloc.Protothreads

/-- What can be delivered to a process. -/
inductive Event where
  /-- The process was polled. -/
  | poll
  /-- The event that a pause posts. -/
  | continue
  /-- Any other event. -/
  | other
  deriving DecidableEq

/-- Where a worker has given up control. -/
inductive Point (Job Child : Type) where
  /-- At the yield, until the queue is not empty. -/
  | yielded
  /-- In the child for a job. -/
  | spawned (job : Job) (child : Child)
  /-- In the pause after a job. -/
  | paused

/-- A worker, its queue and what is pending for it. -/
structure Worker (Job Child : Type) where
  /-- Where it has given up control. -/
  point : Point Job Child
  /-- The jobs to do. -/
  queue : List Job
  /-- Whether a poll is pending. -/
  polled : Bool
  /-- Events that are posted to it, oldest first. -/
  posted : List Event

/-- How a call of the child returns. -/
inductive Outcome (Child : Type) where
  /-- It waits for something. -/
  | suspended (child : Child)
  /-- It is finished; it may have posted an event to every process. -/
  | finished (announced : Bool)

variable {Job Child : Type}

namespace Worker

/-- Queue a job and poll the worker. -/
def enqueue (job : Job) (w : Worker Job Child) : Worker Job Child := {w with
  queue := w.queue++[job]
  polled := true}

/-- Something polls the worker. -/
def poke (w : Worker Job Child) : Worker Job Child := {w with polled := true}

/-- Another process posts an event. -/
def post (w : Worker Job Child) : Worker Job Child := {w with posted := w.posted++[.other]}

/-- The child is finished: the worker pauses. -/
def finish (announced : Bool) (w : Worker Job Child) : Worker Job Child := {w with
  point := .paused
  posted := w.posted++(if announced=true then [.other] else [])++[.continue]}

/-- The worker after a call of the child. -/
def goOn (job : Job) (w : Worker Job Child) : Outcome Child → Worker Job Child
  | .suspended child => {w with point := .spawned job child}
  | .finished announced => w.finish announced

/-- The call of the child that the next delivery leads to: the job, and the
child that has begun with it. -/
def call (w : Worker Job Child) : Option (Job × Option Child) :=
  match w.point with
  | .yielded => w.queue.head?.map (·,none)
  | .spawned job child => some (job,some child)
  | .paused => none

/-- An event is delivered; a child that is called returns as given. -/
def deliver (o : Outcome Child) (ev : Event) (w : Worker Job Child) : Worker Job Child :=
  match w.point with
  | .yielded =>
    match w.queue with
    | [] => w
    | job::rest => goOn job {w with queue := rest} o
  | .spawned job _ => goOn job w o
  | .paused => if ev=.continue then {w with point := .yielded} else w

/-- A pending poll is delivered. -/
def takePoll (o : Outcome Child) (w : Worker Job Child) : Worker Job Child :=
  if w.polled=true then deliver o .poll {w with polled := false} else w

/-- The oldest posted event is delivered. -/
def takeEvent (o : Outcome Child) (w : Worker Job Child) : Worker Job Child :=
  match w.posted with
  | [] => w
  | ev::rest => deliver o ev {w with posted := rest}

end Worker

/-- A worker that has not been asked for anything. -/
def idle : Worker Job Child := ⟨.yielded,[],false,[]⟩

/-- What can happen to a worker. -/
inductive Op (Job Child : Type) where
  /-- A job is queued. -/
  | enqueue (job : Job)
  /-- Something else polls the worker. -/
  | poke
  /-- Another process posts an event. -/
  | post
  /-- A poll is delivered. -/
  | poll (o : Outcome Child)
  /-- An event is delivered. -/
  | event (o : Outcome Child)

/-- One step of a worker or of its surroundings. -/
def step (w : Worker Job Child) : Op Job Child → Worker Job Child
  | .enqueue job => w.enqueue job
  | .poke => w.poke
  | .post => w.post
  | .poll o => w.takePoll o
  | .event o => w.takeEvent o

/-- The events behind the one that ends a pause. -/
def behind (posted : List Event) : List Event := (posted.dropWhile (· ≠ .continue)).tail

/-- The worker is at its yield. -/
def AtYield (w : Worker Job Child) : Prop :=
  match w.point with
  | .yielded => True
  | .spawned _ _ | .paused => False

/-- Something pending is going to be delivered at the yield, also if nothing
else happens: anything at the yield itself, and in a pause the events behind
the one that ends it. A job that runs is followed by a pause. -/
def WillTest (w : Worker Job Child) : Prop :=
  match w.point with
  | .yielded => w.polled=true ∨ w.posted≠[]
  | .spawned _ _ => ∃ announced, behind (w.finish announced).posted≠[]
  | .paused => behind w.posted≠[]

/-- Jobs wait only for as long as the queue is going to be looked at. -/
def Attended (w : Worker Job Child) : Prop := w.queue≠[] → WillTest w

/-- A job waits at the yield, and nothing is going to be delivered. -/
def Stranded (w : Worker Job Child) : Prop :=
  w.queue≠[] ∧ AtYield w ∧ w.polled=false ∧ w.posted=[]

instance decidableAtYield (w : Worker Job Child) : Decidable (AtYield w) :=
  match h : w.point with
  | .yielded => .isTrue (by rw [AtYield,h]; trivial)
  | .spawned _ _ | .paused => .isFalse (by rw [AtYield,h]; exact id)

instance decidableWillTest (w : Worker Job Child) : Decidable (WillTest w) :=
  match h : w.point with
  | .yielded => decidable_of_iff (w.polled=true ∨ w.posted≠[]) (by rw [WillTest,h])
  | .spawned _ _ => decidable_of_iff (behind (w.finish false).posted≠[] ∨
      behind (w.finish true).posted≠[]) (by rw [WillTest,h,Bool.exists_bool])
  | .paused => decidable_of_iff (behind w.posted≠[]) (by rw [WillTest,h])

instance decidableAttended (w : Worker Job Child) : Decidable (Attended w) :=
  match h : w.queue with
  | [] => .isTrue fun hne => absurd h hne
  | job::rest => decidable_of_iff (WillTest w)
      ⟨fun ht _ => ht,fun ha => ha (by rw [h]; exact List.cons_ne_nil job rest)⟩

section Pause

/-- Events that do not end the pause are passed over. -/
theorem behind_append {pre : List Event} (hpre : Event.continue∉pre) (post : List Event) :
    behind (pre++.continue::post)=post := by
  induction pre with
  | nil => rfl
  | cons ev pre ih =>
    have hev : ev≠.continue := fun heq => hpre (heq ▸ List.mem_cons_self)
    have htail := ih fun hmem => hpre (List.mem_cons_of_mem ev hmem)
    unfold behind at htail ⊢
    rwa [List.cons_append,List.dropWhile_cons_of_pos (by simpa using hev)]

/-- A pausing worker that is left alone comes back to its yield, and the
events behind the one that ends the pause are still pending. -/
theorem takeEvent_iterate_paused (o : Outcome Child) {pre post : List Event}
    (hpre : Event.continue∉pre) (w : Worker Job Child) (hpoint : w.point=.paused)
    (hposted : w.posted=pre++.continue::post) :
    (Worker.takeEvent o)^[pre.length+1] w={w with point := .yielded,posted := post} := by
  induction pre generalizing w with
  | nil =>
    rw [List.nil_append] at hposted
    simp [Worker.takeEvent,Worker.deliver,hposted,hpoint]
  | cons ev pre ih =>
    have hev : ev≠.continue := fun heq => hpre (heq ▸ List.mem_cons_self)
    have hone : w.takeEvent o={w with posted := pre++.continue::post} := by
      simp [Worker.takeEvent,Worker.deliver,hposted,hpoint,hev]
    rw [List.length_cons,Function.iterate_succ_apply,hone]
    exact ih (fun hmem => hpre (List.mem_cons_of_mem ev hmem)) _ hpoint rfl

end Pause

/-- The event that ends a pause is posted once in a pause, and never else. -/
def WellPaused (w : Worker Job Child) : Prop :=
  match w.point with
  | .yielded | .spawned _ _ => .continue∉w.posted
  | .paused => ∃ pre post, w.posted=pre++.continue::post ∧ .continue∉pre ∧ .continue∉post

/-- An idle worker does not pause. -/
theorem wellPaused_idle : WellPaused (idle : Worker Job Child) := List.not_mem_nil

section Steps

variable {w : Worker Job Child}

/-- A finished child leaves one event to end the pause, and nothing behind it. -/
theorem finish_posted (h : .continue∉w.posted) (announced : Bool) :
    ∃ pre, (w.finish announced).posted=pre++[.continue] ∧ Event.continue∉pre := by
  refine ⟨w.posted++if announced=true then [.other] else [],rfl,fun hmem => ?_⟩
  rcases List.mem_append.mp hmem with hold | hnew
  · exact h hold
  · cases announced with
    | false => cases hnew
    | true => cases List.mem_singleton.mp hnew

/-- Nothing is behind the end of a pause that begins now. -/
theorem behind_finish (h : .continue∉w.posted) (announced : Bool) :
    behind (w.finish announced).posted=[] := by
  obtain ⟨pre,hp,hpre⟩ := finish_posted h announced
  rw [hp]
  exact behind_append hpre []

/-- While a job runs, the queue is not going to be looked at. -/
theorem not_willTest_spawned {job : Job} {child : Child} (h : WellPaused w)
    (hpoint : w.point=.spawned job child) : ¬WillTest w := by
  rw [WellPaused,hpoint] at h
  rw [WillTest,hpoint]
  rintro ⟨announced,hne⟩
  exact hne (behind_finish h announced)

/-- A call of the child keeps pauses in order. -/
theorem WellPaused.goOn (h : .continue∉w.posted) (job : Job) (o : Outcome Child) :
    WellPaused (w.goOn job o) := by
  cases o with
  | suspended child => exact h
  | finished announced =>
    obtain ⟨pre,hp,hpre⟩ := finish_posted h announced
    exact ⟨pre,[],hp,hpre,List.not_mem_nil⟩

/-- After a call of the child the queue is not going to be looked at. -/
theorem not_willTest_goOn (h : .continue∉w.posted) (job : Job) (o : Outcome Child) :
    ¬WillTest (w.goOn job o) := by
  cases o with
  | suspended child => exact not_willTest_spawned (w:={w with point := .spawned job child}) h rfl
  | finished announced => exact fun hne => hne (behind_finish h announced)

/-- A delivery at the yield leaves pauses in order, and afterwards the queue is
attended to exactly if no second job was there. -/
theorem deliver_yielded (h : .continue∉w.posted) (hpoint : w.point=.yielded) (o : Outcome Child)
    (ev : Event) :
    WellPaused (w.deliver o ev) ∧ (Attended (w.deliver o ev) ↔ w.queue.length≤1) := by
  obtain ⟨point,queue,polled,posted⟩ := w
  obtain rfl : point=.yielded := hpoint
  cases queue with
  | nil => exact ⟨h,iff_of_true (fun hne => absurd rfl hne) (Nat.zero_le 1)⟩
  | cons job rest =>
    refine ⟨WellPaused.goOn (w:=⟨.yielded,rest,polled,posted⟩) h job o,?_⟩
    have hnot := not_willTest_goOn (w:=⟨.yielded,rest,polled,posted⟩) h job o
    have hqueue : (Worker.goOn job ⟨.yielded,rest,polled,posted⟩ o).queue=rest := by
      cases o <;> rfl
    have hgo : Worker.deliver o ev ⟨.yielded,job::rest,polled,posted⟩=
        Worker.goOn job ⟨.yielded,rest,polled,posted⟩ o := rfl
    rw [hgo,Attended,hqueue]
    constructor
    · intro ha
      by_contra hlen
      refine hnot (ha fun hnil => hlen ?_)
      rw [hnil]
      exact Nat.le_refl 1
    · intro hlen hne
      have hpos := List.length_pos_of_ne_nil hne
      rw [List.length_cons] at hlen
      omega

/-- A delivery to the child keeps pauses in order and an empty queue empty. -/
theorem deliver_spawned {job : Job} {child : Child} (h : .continue∉w.posted)
    (hpoint : w.point=.spawned job child) (o : Outcome Child) (ev : Event) :
    WellPaused (w.deliver o ev) ∧ (w.deliver o ev).queue=w.queue := by
  unfold Worker.deliver
  rw [hpoint]
  exact ⟨WellPaused.goOn h job o,by cases o <;> rfl⟩

/-- A poll in a pause changes nothing but that it is pending no more. -/
theorem takePoll_paused (hpoint : w.point=.paused) (o : Outcome Child) :
    w.takePoll o={w with polled := false} := by
  unfold Worker.takePoll Worker.deliver
  split
  · rw [hpoint]
    rfl
  · next hp =>
    have hfalse : w.polled=false := by simpa using hp
    rw [← hfalse]

/-- An event in a pause either ends it or is passed over. -/
theorem takeEvent_paused {pre post : List Event} (hpoint : w.point=.paused)
    (hposted : w.posted=pre++.continue::post) (hpre : Event.continue∉pre) (o : Outcome Child) :
    pre=[] ∧ w.takeEvent o={w with point := .yielded,posted := post} ∨
      ∃ ev pre', pre=ev::pre' ∧ w.takeEvent o={w with posted := pre'++.continue::post} := by
  cases pre with
  | nil => exact Or.inl ⟨rfl,takeEvent_iterate_paused o hpre w hpoint hposted⟩
  | cons ev pre =>
    have hev : ev≠.continue := fun heq => hpre (heq ▸ List.mem_cons_self)
    refine Or.inr ⟨ev,pre,rfl,?_⟩
    simp [Worker.takeEvent,Worker.deliver,hposted,hpoint,hev]

end Steps

/-- Jobs are queued at the yield, or where the queue is going to be looked at
anyway, and a delivery at the yield finds one job at most. -/
def OneAtATime (w : Worker Job Child) : Op Job Child → Prop
  | .enqueue _ => AtYield w ∨ WillTest w
  | .poke | .post => True
  | .poll _ => w.polled=true → AtYield w → w.queue.length≤1
  | .event _ => w.posted≠[] → AtYield w → w.queue.length≤1

instance decidableOneAtATime (w : Worker Job Child) : ∀ op, Decidable (OneAtATime w op)
  | .enqueue _ => inferInstanceAs (Decidable (_ ∨ _))
  | .poke | .post => .isTrue trivial
  | .poll _ | .event _ => inferInstanceAs (Decidable (_ → _ → _))

/-- When a pause ends, the queue is empty or something is still pending. -/
def HeardAfterPause (w : Worker Job Child) : Op Job Child → Prop
  | .event _ => w.posted.head?=some .continue → w.queue=[] ∨ w.polled=true ∨ w.posted.tail≠[]
  | _ => True

instance decidableHeardAfterPause [DecidableEq Job] (w : Worker Job Child) :
    ∀ op, Decidable (HeardAfterPause w op)
  | .event _ => inferInstanceAs (Decidable (_ → _ ∨ _))
  | .enqueue _ | .poke | .post | .poll _ => .isTrue trivial

section Exactness

variable {w : Worker Job Child}

/-- Outside of a pause no event that ends a pause is pending. -/
theorem WellPaused.awake (h : WellPaused w) (hpoint : w.point≠.paused) : .continue∉w.posted := by
  unfold WellPaused at h
  split at h
  · exact h
  · exact h
  · next hp => exact absurd hp hpoint

/-- A delivery outside of a pause keeps pauses in order. -/
theorem WellPaused.deliver (h : .continue∉w.posted) (hpoint : w.point≠.paused)
    (o : Outcome Child) (ev : Event) : WellPaused (w.deliver o ev) := by
  cases hp : w.point with
  | yielded => exact (deliver_yielded h hp o ev).1
  | spawned job child => exact (deliver_spawned h hp o ev).1
  | paused => exact absurd hp hpoint

/-- Another event behind the others keeps pauses in order. -/
theorem WellPaused.post (h : WellPaused w) : WellPaused w.post := by
  unfold WellPaused at h ⊢
  cases hp : w.point with
  | yielded =>
    rw [hp] at h
    simpa [Worker.post,hp] using h
  | spawned job child =>
    rw [hp] at h
    simpa [Worker.post,hp] using h
  | paused =>
    rw [hp] at h
    obtain ⟨pre,post,hposted,hpre,hpost⟩ := h
    rw [Worker.post,hp]
    refine ⟨pre,post++[.other],?_,hpre,by simpa using hpost⟩
    rw [hposted,List.append_assoc,List.cons_append]

/-- A pending poll keeps pauses in order. -/
theorem WellPaused.takePoll (h : WellPaused w) (o : Outcome Child) : WellPaused (w.takePoll o) := by
  by_cases hpoint : w.point=.paused
  · rw [takePoll_paused hpoint]
    exact h
  · unfold Worker.takePoll
    split
    · exact WellPaused.deliver (w:={w with polled := false}) (h.awake hpoint) hpoint o .poll
    · exact h

/-- A posted event keeps pauses in order. -/
theorem WellPaused.takeEvent (h : WellPaused w) (o : Outcome Child) :
    WellPaused (w.takeEvent o) := by
  by_cases hpoint : w.point=.paused
  · have hw := h
    rw [WellPaused,hpoint] at hw
    obtain ⟨pre,post,hposted,hpre,hpost⟩ := hw
    rcases takeEvent_paused hpoint hposted hpre o with ⟨_,he⟩ | ⟨ev,pre',rfl,he⟩
    · rw [he]
      exact hpost
    · rw [he,WellPaused,hpoint]
      exact ⟨pre',post,rfl,fun hmem => hpre (List.mem_cons_of_mem ev hmem),hpost⟩
  · unfold Worker.takeEvent
    split
    · exact h
    · next ev rest hposted =>
      have hnot := h.awake hpoint
      rw [hposted] at hnot
      exact WellPaused.deliver (w:={w with posted := rest})
        (fun hmem => hnot (List.mem_cons_of_mem ev hmem)) hpoint o ev

/-- Every step keeps pauses in order. -/
theorem WellPaused.step (h : WellPaused w) : ∀ op : Op Job Child, WellPaused (step w op)
  | .enqueue _ | .poke => h
  | .post => h.post
  | .poll o => h.takePoll o
  | .event o => h.takeEvent o

/-- Another event does not take the attention away. -/
theorem WillTest.post (hw : WellPaused w) (h : WillTest w) : WillTest w.post := by
  cases hp : w.point with
  | yielded =>
    rw [WillTest,Worker.post,hp]
    exact Or.inr (List.append_ne_nil_of_right_ne_nil _ (List.cons_ne_nil _ _))
  | spawned job child => exact absurd h (not_willTest_spawned hw hp)
  | paused =>
    rw [WellPaused,hp] at hw
    obtain ⟨pre,post,hposted,hpre,_⟩ := hw
    rw [WillTest,Worker.post,hp]
    dsimp only
    rw [hposted,List.append_assoc,List.cons_append,behind_append hpre]
    exact List.append_ne_nil_of_right_ne_nil _ (List.cons_ne_nil _ _)

/-- Another poll does not take the attention away. -/
theorem WillTest.poke (h : WillTest w) : WillTest w.poke := by
  unfold WillTest at h ⊢
  cases hp : w.point with
  | yielded => simp [Worker.poke,hp]
  | spawned job child =>
    rw [hp] at h
    simpa [Worker.poke,Worker.finish,hp] using h
  | paused =>
    rw [hp] at h
    simpa [Worker.poke,hp] using h

/-- After a delivery to the child an attended queue is attended to. -/
theorem Attended.deliver_spawned (hw : WellPaused w) (h : Attended w) {job : Job} {child : Child}
    (hpoint : w.point=.spawned job child) (posted : List Event)
    (hnot : Event.continue∉posted) (polled : Bool) (o : Outcome Child) (ev : Event) :
    Attended ({w with posted := posted,polled := polled}.deliver o ev) := by
  have hempty : w.queue=[] := by
    by_contra hne
    exact not_willTest_spawned hw hpoint (h hne)
  intro hne
  rw [(Protothreads.deliver_spawned (w:={w with posted := posted,polled := polled})
    hnot hpoint o ev).2] at hne
  exact absurd hempty hne

/-- A job that is queued is attended to exactly if it comes at a good moment. -/
theorem attended_enqueue_iff (job : Job) :
    Attended (w.enqueue job) ↔ OneAtATime w (.enqueue job : Op Job Child) := by
  have hne : (w.enqueue job).queue≠[] :=
    List.append_ne_nil_of_right_ne_nil _ (List.cons_ne_nil _ _)
  have hiff : Attended (w.enqueue job) ↔ WillTest (w.enqueue job) :=
    ⟨fun ha => ha hne,fun ht _ => ht⟩
  refine hiff.trans ?_
  cases hp : w.point with
  | yielded => simp [OneAtATime,WillTest,AtYield,Worker.enqueue,hp]
  | spawned job' child => simp [OneAtATime,WillTest,AtYield,Worker.enqueue,Worker.finish,hp]
  | paused => simp [OneAtATime,WillTest,AtYield,Worker.enqueue,hp]

/-- After a pending poll the queue is attended to exactly if the poll did not
find several jobs at the yield. -/
theorem attended_takePoll_iff (hw : WellPaused w) (h : Attended w) (o : Outcome Child) :
    Attended (w.takePoll o) ↔ OneAtATime w (.poll o) := by
  by_cases hpolled : w.polled=true
  · cases hp : w.point with
    | yielded =>
      rw [Worker.takePoll,if_pos hpolled]
      refine (deliver_yielded (w:={w with polled := false}) (by rwa [WellPaused,hp] at hw)
        hp o .poll).2.trans ?_
      simp [OneAtATime,AtYield,hp,hpolled]
    | spawned job child =>
      rw [Worker.takePoll,if_pos hpolled]
      refine iff_of_true (h.deliver_spawned hw hp w.posted (by rwa [WellPaused,hp] at hw)
        false o .poll) ?_
      simp [OneAtATime,AtYield,hp]
    | paused =>
      rw [takePoll_paused hp]
      refine iff_of_true (fun hne => ?_) (by simp [OneAtATime,AtYield,hp])
      have ht := h hne
      rw [WillTest,hp] at ht ⊢
      exact ht
  · rw [Worker.takePoll,if_neg hpolled]
    exact iff_of_true h fun hp => absurd hp hpolled

/-- During a pause a posted event does not take the attention away. -/
theorem Attended.takeEvent_paused (hw : WellPaused w) (h : Attended w) (hp : w.point=.paused)
    (o : Outcome Child) : Attended (w.takeEvent o) := by
  rw [WellPaused,hp] at hw
  obtain ⟨pre,post,hsplit,hpre,_⟩ := hw
  have hbehind : w.queue≠[] → post≠[] := by
    intro hne
    have ht := h hne
    rwa [WillTest,hp,hsplit,behind_append hpre] at ht
  intro hne
  rcases Protothreads.takeEvent_paused hp hsplit hpre o with ⟨_,he⟩ | ⟨ev,pre',rfl,he⟩
  · rw [he] at hne ⊢
    exact Or.inr (hbehind hne)
  · rw [he] at hne ⊢
    rw [WillTest,hp]
    dsimp only
    rw [behind_append fun hmem => hpre (List.mem_cons_of_mem ev hmem)]
    exact hbehind hne

/-- After a posted event the queue is attended to exactly if the event did not
find several jobs at the yield. -/
theorem attended_takeEvent_iff (hw : WellPaused w) (h : Attended w) (o : Outcome Child) :
    Attended (w.takeEvent o) ↔ OneAtATime w (.event o) := by
  cases hposted : w.posted with
  | nil =>
    rw [Worker.takeEvent,hposted]
    exact iff_of_true h fun hne => absurd hposted hne
  | cons ev rest =>
    cases hp : w.point with
    | yielded =>
      have hnot : Event.continue∉ev::rest := by rwa [WellPaused,hp,hposted] at hw
      rw [Worker.takeEvent,hposted]
      refine (deliver_yielded (w:={w with posted := rest})
        (fun hmem => hnot (List.mem_cons_of_mem ev hmem)) hp o ev).2.trans ?_
      simp [OneAtATime,AtYield,hp,hposted]
    | spawned job child =>
      have hnot : Event.continue∉ev::rest := by rwa [WellPaused,hp,hposted] at hw
      rw [Worker.takeEvent,hposted]
      refine iff_of_true (h.deliver_spawned hw hp rest
        (fun hmem => hnot (List.mem_cons_of_mem ev hmem)) w.polled o ev) ?_
      simp [OneAtATime,AtYield,hp]
    | paused =>
      exact iff_of_true (h.takeEvent_paused hw hp o) (by simp [OneAtATime,AtYield,hp])

/-- One step keeps an attended queue attended to exactly if jobs come one at a time. -/
theorem attended_step_iff (hw : WellPaused w) (h : Attended w) (op : Op Job Child) :
    Attended (step w op) ↔ OneAtATime w op := by
  cases op with
  | enqueue job => exact attended_enqueue_iff job
  | poke => exact iff_of_true (fun hne => (h hne).poke) trivial
  | post => exact iff_of_true (fun hne => (h hne).post hw) trivial
  | poll o => exact attended_takePoll_iff hw h o
  | event o => exact attended_takeEvent_iff hw h o

end Exactness

section Stranding

variable {w : Worker Job Child}

/-- After a call of the child the worker is not at its yield. -/
theorem not_atYield_goOn (job : Job) (o : Outcome Child) : ¬AtYield (w.goOn job o) := by
  cases o <;> exact id

/-- A delivery outside of a pause strands no job. -/
theorem not_stranded_deliver (hpoint : w.point≠.paused) (o : Outcome Child) (ev : Event) :
    ¬Stranded (w.deliver o ev) := by
  rintro ⟨hne,hyield,_⟩
  unfold Worker.deliver at hne hyield
  cases hp : w.point with
  | yielded =>
    rw [hp] at hne hyield
    cases hq : w.queue with
    | nil =>
      rw [hq] at hne
      exact hne hq
    | cons job rest =>
      rw [hq] at hyield
      exact not_atYield_goOn job o hyield
  | spawned job child =>
    rw [hp] at hyield
    exact not_atYield_goOn job o hyield
  | paused => exact hpoint hp

/-- A pending poll strands no job. -/
theorem not_stranded_takePoll (h : ¬Stranded w) (o : Outcome Child) :
    ¬Stranded (w.takePoll o) := by
  by_cases hpoint : w.point=.paused
  · rw [takePoll_paused hpoint]
    rintro ⟨_,hyield,_⟩
    rw [AtYield,hpoint] at hyield
    exact hyield
  · unfold Worker.takePoll
    split
    · exact not_stranded_deliver (w:={w with polled := false}) hpoint o .poll
    · exact h

/-- A posted event strands a job exactly if it ends a pause with nothing pending. -/
theorem not_stranded_takeEvent_iff (hw : WellPaused w) (h : ¬Stranded w) (o : Outcome Child) :
    ¬Stranded (w.takeEvent o) ↔ HeardAfterPause w (.event o) := by
  by_cases hpoint : w.point=.paused
  · rw [WellPaused,hpoint] at hw
    obtain ⟨pre,post,hposted,hpre,_⟩ := hw
    rcases takeEvent_paused hpoint hposted hpre o with ⟨rfl,he⟩ | ⟨ev,pre',rfl,he⟩
    · have hyield : AtYield ({w with point := .yielded,posted := post} : Worker Job Child) :=
        trivial
      rw [he]
      simp only [Stranded,hyield,HeardAfterPause,hposted,List.nil_append,List.head?_cons,
        List.tail_cons,true_and,true_imp_iff]
      constructor
      · intro hs
        by_contra hno
        rw [not_or,not_or,not_not] at hno
        exact hs ⟨hno.1,by simpa using hno.2.1,hno.2.2⟩
      · rintro (hq | hp | hpost) ⟨hne,hpolled,hnil⟩
        · exact hne hq
        · rw [hp] at hpolled
          cases hpolled
        · exact hpost hnil
    · have hev : ev≠.continue := fun heq => hpre (heq ▸ List.mem_cons_self)
      refine iff_of_true ?_ fun hhead => ?_
      · rw [he]
        rintro ⟨_,hyield,_⟩
        rw [AtYield,hpoint] at hyield
        exact hyield
      · rw [hposted,List.cons_append,List.head?_cons] at hhead
        exact absurd (Option.some.inj hhead) hev
  · have hnot := hw.awake hpoint
    refine iff_of_true ?_ fun hhead => absurd (List.mem_of_head? hhead) hnot
    unfold Worker.takeEvent
    split
    · exact h
    · next ev rest _ => exact not_stranded_deliver (w:={w with posted := rest}) hpoint o ev

/-- One step strands a job exactly if it ends a pause with nothing pending. -/
theorem not_stranded_step_iff (hw : WellPaused w) (h : ¬Stranded w) (op : Op Job Child) :
    ¬Stranded (step w op) ↔ HeardAfterPause w op := by
  cases op with
  | enqueue job => exact iff_of_true (fun hs => (nomatch hs.2.2.1)) trivial
  | poke => exact iff_of_true (fun hs => (nomatch hs.2.2.1)) trivial
  | post => exact iff_of_true (fun hs => List.append_ne_nil_of_right_ne_nil _
      (List.cons_ne_nil _ _) hs.2.2.2) trivial
  | poll o => exact iff_of_true (not_stranded_takePoll h o) trivial
  | event o => exact not_stranded_takeEvent_iff hw h o

end Stranding

end TrustAlloc.Protothreads
