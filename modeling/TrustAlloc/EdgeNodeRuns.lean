import TrustAlloc.EdgeNode
import TrustAlloc.Runs

/-!
# Runs of an edge

Whatever lines, timers and requests do, the timer of the announce always runs,
its period follows the number of announces that were sent, and the names of
the applications are read inside of their array. The applications are gone
through in turn from each start or stop of the resource rich node on. Nothing
is said about them before the edge has announced itself, unless an event of
their timer is posted at the moment of the start or stop.
-/

namespace TrustAlloc.EdgeNode

open CapabilityTopics RouteChunks Runs TaskResponse

variable {num : ℕ} {b : EdgeBuild num} {s : State num} {t : Schedule}

section Steps

/-- An expired timer is not armed. -/
theorem Etimer.expire_armed (t : Etimer) : t.expire.armed=false := by
  unfold Etimer.expire
  split
  · rfl
  · next hstopped => exact Bool.eq_false_iff.mpr hstopped

/-- A timer expires with its period. -/
theorem Etimer.expire_interval (t : Etimer) : t.expire.interval=t.interval := by
  unfold Etimer.expire
  split <;> rfl

/-- A live timer that expires has posted an event. -/
theorem Etimer.Live.expire {t : Etimer} (h : t.Live) : t.expire.Live := by
  unfold Etimer.expire
  split
  · exact Or.inr (Nat.succ_pos _)
  · exact h

/-- A line triggers publishing exactly if it changes whether the resource rich
node has started. -/
theorem applyMessage_schedule (remaining : ℕ) (o : Occasion) (m : SerialMessage) :
    ((applyMessage b remaining o s m).resourceRichEdgeStarted=s.resourceRichEdgeStarted ∧
        (applyMessage b remaining o s m).schedule=s.schedule) ∨
      ((applyMessage b remaining o s m).resourceRichEdgeStarted=!s.resourceRichEdgeStarted ∧
        (applyMessage b remaining o s m).schedule=triggerFasterPublish b remaining s.schedule) := by
  cases m with
  | start name =>
    simp only [applyMessage,applicationStarted]
    split
    · exact Or.inl ⟨rfl,rfl⟩
    · exact Or.inl ⟨rfl,rfl⟩
  | stop name =>
    simp only [applyMessage,applicationStopped]
    split
    · exact Or.inl ⟨rfl,rfl⟩
    · exact Or.inl ⟨rfl,rfl⟩
  | app name data => exact Or.inl ⟨rfl,rfl⟩
  | edge data =>
    simp only [applyMessage,processEdgeSerialMessage,bridgeStarted,bridgeStopped]
    cases hstarted : s.resourceRichEdgeStarted <;> split_ifs <;> simp_all
  | ignored => exact Or.inl ⟨rfl,rfl⟩

/-- No line makes the edge read outside of an array. -/
theorem applyMessage_overran (remaining : ℕ) (o : Occasion) (m : SerialMessage) :
    (applyMessage b remaining o s m).overran=s.overran := by
  cases m with
  | start name =>
    simp only [applyMessage,applicationStarted]
    split <;> rfl
  | stop name =>
    simp only [applyMessage,applicationStopped]
    split <;> rfl
  | app name data => rfl
  | edge data =>
    simp only [applyMessage,processEdgeSerialMessage,bridgeStarted,bridgeStopped]
    split_ifs <;> rfl
  | ignored => rfl

end Steps

section Pace

/-- Where the timers and counters may stand. -/
structure Paced (b : EdgeBuild num) (t : Schedule) : Prop where
  /-- The next application to publish is one of them. -/
  index : t.applicationCapabilityPublishIdx.toNat < num
  /-- The long period is there after three announces, the short one before. -/
  period : (t.publishAnnounceTimer.interval=publishAnnouncePeriodShort b ∧
      t.announceShortCount.toNat < publishAnnounceShortToLong) ∨
    (t.publishAnnounceTimer.interval=publishAnnouncePeriodLong b ∧
      t.announceShortCount.toNat≤publishAnnounceShortToLong)
  /-- A long time passes in front of the first application only. -/
  turn : t.publishCapabilityTimer.armed=true →
    t.publishCapabilityTimer.interval=publishCapabilityPeriodShort b ∨
      (t.publishCapabilityTimer.interval=publishCapabilityPeriodLong b ∧
        t.applicationCapabilityPublishIdx=0)

/-- The long period of the announce is longer. -/
theorem short_lt_long (b : EdgeBuild num) :
    publishAnnouncePeriodShort b < publishAnnouncePeriodLong b := by
  have hticks := b.ticking
  unfold publishAnnouncePeriodLong publishAnnouncePeriodShort
  omega

/-- A small counter counts. -/
theorem toNat_add_one {c : UInt8} {n : ℕ} (h : c.toNat < n) (hn : n≤255) :
    (c+1).toNat=c.toNat+1 := by
  rw [UInt8.toNat_add,UInt8.toNat_one,Nat.mod_eq_of_lt (by omega)]

/-- A trigger begins anew with the short period, or leaves the long one. -/
theorem Paced.triggerFasterPublish (h : Paced b t) (remaining : ℕ) :
    Paced b (triggerFasterPublish b remaining t) := by
  have hzero : (0 : UInt8).toNat < publishAnnounceShortToLong := by decide
  refine ⟨b.populated,?_,fun harmed => nomatch harmed⟩
  unfold EdgeNode.triggerFasterPublish
  dsimp only
  split
  · exact Or.inl ⟨rfl,hzero⟩
  · exact h.period.imp (fun hshort => ⟨hshort.1,hzero⟩) fun hlong => ⟨hlong.1,hzero.le⟩

/-- What is armed after an announce is in front of any application. -/
theorem Paced.armCapabilities (h : Paced b t) (started ret : Bool) :
    Paced b (armCapabilities b started ret t) := by
  unfold EdgeNode.armCapabilities
  split_ifs
  · exact h
  · exact ⟨h.index,h.period,fun _ => Or.inl rfl⟩
  · exact ⟨h.index,h.period,fun harmed => nomatch harmed⟩

/-- The announce goes over to the long period with the third success. -/
theorem Paced.rearmAnnounce (h : Paced b t) (ret : Bool) : Paced b (rearmAnnounce b ret t) := by
  have hlt := short_lt_long b
  have hthree : publishAnnounceShortToLong=3 := rfl
  unfold EdgeNode.rearmAnnounce
  rcases h.period with ⟨hshort,hcount⟩ | ⟨hlong,hcount⟩
  · rw [if_pos hshort.le]
    dsimp only
    cases ret with
    | false =>
      simp only [Bool.false_eq_true,if_false]
      rw [if_neg (not_le.mpr hcount)]
      exact ⟨h.index,Or.inl ⟨hshort,hcount⟩,h.turn⟩
    | true =>
      have hnext := toNat_add_one hcount (by decide)
      simp only [if_true]
      split
      · exact ⟨h.index,Or.inr ⟨rfl,by dsimp only; omega⟩,h.turn⟩
      · next hfew => exact ⟨h.index,Or.inl ⟨hshort,not_le.mp hfew⟩,h.turn⟩
  · rw [if_neg (by omega)]
    exact ⟨h.index,Or.inr ⟨hlong,hcount⟩,h.turn⟩

/-- The index goes to the next application, or from the last one to the first. -/
theorem Paced.rearmCapability (h : Paced b t) (ret : Bool) :
    Paced b (rearmCapability b ret t) := by
  have hnext := toNat_add_one h.index (b.indexable.trans (by decide))
  have hindex := h.index
  unfold EdgeNode.rearmCapability
  cases ret with
  | false =>
    simp only [Bool.false_eq_true,if_false]
    rw [if_neg hindex.ne]
    exact ⟨hindex,h.period,fun _ => Or.inl rfl⟩
  | true =>
    simp only [if_true]
    split
    · exact ⟨b.populated,h.period,fun _ => Or.inr ⟨rfl,rfl⟩⟩
    · exact ⟨by dsimp only at *; omega,h.period,fun _ => Or.inl rfl⟩

/-- The edge is in pace, its announce is going to be published again, and no
array was read outside of its bounds. -/
structure Running (b : EdgeBuild num) (s : State num) : Prop where
  /-- No array was read outside of its bounds. -/
  inBounds : s.overran=false
  /-- The announce is going to be published again. -/
  announcing : s.schedule.publishAnnounceTimer.Live
  /-- The timers and counters. -/
  paced : Paced b s.schedule

/-- What rearms the timer of the announce keeps it live. -/
theorem live_rearmAnnounce (ret : Bool) (t : Schedule) :
    (rearmAnnounce b ret t).publishAnnounceTimer.Live := by
  unfold rearmAnnounce
  dsimp only
  split_ifs <;> exact Or.inl rfl

/-- What rearms the timer of the capabilities leaves the other one. -/
theorem rearmCapability_announceTimer (ret : Bool) (t : Schedule) :
    (rearmCapability b ret t).publishAnnounceTimer=t.publishAnnounceTimer := by
  simp only [rearmCapability]
  split_ifs <;> rfl

/-- A trigger keeps the timer of the announce live. -/
theorem live_triggerFasterPublish (h : t.publishAnnounceTimer.Live) (remaining : ℕ) :
    (triggerFasterPublish b remaining t).publishAnnounceTimer.Live := by
  simp only [triggerFasterPublish]
  split
  · exact Or.inl rfl
  · exact h

/-- Every step keeps an edge running. -/
theorem Running.step (h : Running b s) (op : Op) : Running b (step b s op) := by
  cases op with
  | line data remaining o =>
    have hover := (applyMessage_overran (b:=b) (s:=s) remaining o (serialMessage b data)).trans
      h.inBounds
    rcases applyMessage_schedule (b:=b) (s:=s) remaining o (serialMessage b data) with
      ⟨_,hsame⟩ | ⟨_,htrigger⟩
    · exact ⟨hover,hsame ▸ h.announcing,hsame ▸ h.paced⟩
    · exact ⟨hover,htrigger ▸ live_triggerFasterPublish h.announcing remaining,
        htrigger ▸ h.paced.triggerFasterPublish remaining⟩
  | announceExpires =>
    have hsame := Etimer.expire_interval s.schedule.publishAnnounceTimer
    exact ⟨h.inBounds,h.announcing.expire,h.paced.index,hsame ▸ h.paced.period,h.paced.turn⟩
  | capabilityExpires =>
    have hidle := Etimer.expire_armed s.schedule.publishCapabilityTimer
    refine ⟨h.inBounds,h.announcing,h.paced.index,h.paced.period,fun harmed => ?_⟩
    exact absurd (hidle.symm.trans harmed) Bool.false_ne_true
  | announceEvent o =>
    simp only [EdgeNode.step]
    split
    · exact h
    · have htaken : Paced b {s.schedule with
          publishAnnounceTimer := s.schedule.publishAnnounceTimer.take} :=
        ⟨h.paced.index,h.paced.period,h.paced.turn⟩
      exact ⟨h.inBounds,live_rearmAnnounce _ _,(htaken.armCapabilities _ _).rearmAnnounce _⟩
  | capabilityEvent o =>
    simp only [EdgeNode.step]
    split
    · exact h
    · have htaken : Paced b {s.schedule with
          publishCapabilityTimer := s.schedule.publishCapabilityTimer.take} :=
        ⟨h.paced.index,h.paced.period,h.paced.turn⟩
      unfold periodicPublishCapability
      rw [dif_pos h.paced.index]
      refine ⟨h.inBounds,?_,htaken.rearmCapability _⟩
      exact (rearmCapability_announceTimer _ _).symm ▸ h.announcing
  | client op => exact ⟨h.inBounds,h.announcing,h.paced⟩

end Pace

section History

/-- An edge, and what it has published since the last trigger. -/
structure Machine (num : ℕ) where
  /-- The edge. -/
  node : State num
  /-- An announce was accepted. -/
  announced : Bool
  /-- The applications that a report was accepted about, oldest first. -/
  reports : List ℕ

/-- A step starts or stops publishing anew. -/
def Triggers (b : EdgeBuild num) (s : State num) (op : Op) : Prop :=
  (step b s op).resourceRichEdgeStarted≠s.resourceRichEdgeStarted

/-- Whether a step does is decided. -/
instance decidableTriggers (b : EdgeBuild num) (s : State num) (op : Op) :
    Decidable (Triggers b s op) := inferInstanceAs (Decidable (_≠_))

/-- A step has an announce accepted. -/
def announces (b : EdgeBuild num) (s : State num) : Op → Bool
  | .announceEvent o => decide (s.schedule.publishAnnounceTimer.posted≠0) &&
      s.resourceRichEdgeStarted && (announcement b s o s.topics).2
  | _ => false

/-- The application that a step has a report accepted about. -/
def reported (b : EdgeBuild num) (s : State num) : Op → Option (Fin num)
  | .capabilityEvent o =>
    if h : s.schedule.applicationCapabilityPublishIdx.toNat < num then
      if s.schedule.publishCapabilityTimer.posted≠0 ∧ (capabilityReport b s ⟨_,h⟩ o s.topics).2=true
      then some ⟨_,h⟩
      else none
    else none
  | _ => none

/-- One step of the edge, and of its history. -/
def Machine.step (b : EdgeBuild num) (m : Machine num) (op : Op) : Machine num :=
  if Triggers b m.node op then ⟨EdgeNode.step b m.node op,false,[]⟩
  else ⟨EdgeNode.step b m.node op,m.announced || announces b m.node op,
    m.reports++(reported b m.node op).toList.map Fin.val⟩

/-- The edge when it begins. -/
def Machine.start (b : EdgeBuild num) : Machine num := ⟨EdgeNode.start b,false,[]⟩

/-- The applications are gone through in turn, from the first one on. -/
structure InTurn (m : Machine num) : Prop where
  /-- The applications that were reported. -/
  reports : m.reports=(List.range m.reports.length).map (·%num)
  /-- The next one. -/
  next : m.node.schedule.applicationCapabilityPublishIdx.toNat=m.reports.length%num

variable {m : Machine num}

/-- A step that triggers is a line, and resets the timers and counters. -/
theorem schedule_of_triggers {op : Op} (h : Triggers b s op) :
    ∃ remaining, (step b s op).schedule=triggerFasterPublish b remaining s.schedule := by
  cases op with
  | line data remaining o =>
    rcases applyMessage_schedule (b:=b) (s:=s) remaining o (serialMessage b data) with
      ⟨hsame,_⟩ | ⟨_,htrigger⟩
    · exact absurd hsame h
    · exact ⟨remaining,htrigger⟩
  | announceExpires => exact absurd rfl h
  | capabilityExpires => exact absurd rfl h
  | announceEvent o =>
    refine absurd ?_ h
    simp only [step]
    split <;> rfl
  | capabilityEvent o =>
    refine absurd ?_ h
    simp only [step,periodicPublishCapability]
    split_ifs <;> rfl
  | client op => exact absurd rfl h

/-- A line that does not trigger leaves the timers and counters. -/
theorem schedule_of_line {data : List UInt8} {remaining : ℕ} {o : Occasion}
    (h : ¬Triggers b s (.line data remaining o)) :
    (step b s (.line data remaining o)).schedule=s.schedule := by
  rcases applyMessage_schedule (b:=b) (s:=s) remaining o (serialMessage b data) with
    ⟨_,hsame⟩ | ⟨hother,_⟩
  · exact hsame
  · refine absurd (fun heq => ?_) h
    exact absurd (hother.symm.trans heq) (Bool.not_ne_self _)

/-- Where the index goes: on with a success, and around. -/
theorem rearmCapability_index (h : t.applicationCapabilityPublishIdx.toNat < num) (ret : Bool) :
    (rearmCapability b ret t).applicationCapabilityPublishIdx.toNat=
      (t.applicationCapabilityPublishIdx.toNat+ret.toNat)%num := by
  have hnext := toNat_add_one h (b.indexable.trans (by decide))
  cases ret with
  | false =>
    simp only [rearmCapability,Bool.false_eq_true,if_false,Bool.toNat_false,Nat.add_zero]
    rw [if_neg h.ne,Nat.mod_eq_of_lt h]
  | true =>
    simp only [rearmCapability,if_true,Bool.toNat_true]
    split
    · next hlast =>
      rw [hnext] at hlast
      rw [hlast,Nat.mod_self]
      rfl
    · next hmore =>
      rw [hnext] at hmore ⊢
      exact (Nat.mod_eq_of_lt (by omega)).symm

/-- The timers and counters after an event of the capabilities. -/
theorem schedule_capabilityEvent (hposted : s.schedule.publishCapabilityTimer.posted≠0)
    (hindex : s.schedule.applicationCapabilityPublishIdx.toNat < num) (o : Occasion) :
    (step b s (.capabilityEvent o)).schedule=
      rearmCapability b (capabilityReport b s ⟨_,hindex⟩ o s.topics).2 {s.schedule with
        publishCapabilityTimer := s.schedule.publishCapabilityTimer.take} := by
  simp only [step,if_neg hposted,periodicPublishCapability,dif_pos hindex]
  rfl

/-- What an event of the capabilities reports. -/
theorem reported_capabilityEvent (hindex : s.schedule.applicationCapabilityPublishIdx.toNat < num)
    (o : Occasion) : reported b s (.capabilityEvent o)=
      if s.schedule.publishCapabilityTimer.posted≠0 ∧
          (capabilityReport b s ⟨_,hindex⟩ o s.topics).2=true then some ⟨_,hindex⟩
      else none := dif_pos hindex

/-- The index moves exactly with what is reported. -/
theorem step_index (h : Running b s) {op : Op} (hop : ¬Triggers b s op) :
    (step b s op).schedule.applicationCapabilityPublishIdx.toNat=
        (s.schedule.applicationCapabilityPublishIdx.toNat+(reported b s op).toList.length)%num ∧
      ∀ i∈reported b s op, i.val=s.schedule.applicationCapabilityPublishIdx.toNat := by
  have hindex := h.paced.index
  have hstay := (Nat.mod_eq_of_lt hindex).symm
  cases op with
  | line data remaining o =>
    rw [schedule_of_line hop]
    exact ⟨hstay,fun _ hi => nomatch hi⟩
  | announceExpires => exact ⟨hstay,fun _ hi => nomatch hi⟩
  | capabilityExpires => exact ⟨hstay,fun _ hi => nomatch hi⟩
  | announceEvent o =>
    refine ⟨?_,fun _ hi => nomatch hi⟩
    simp only [step,periodicPublishAnnounce,rearmAnnounce,armCapabilities]
    split_ifs <;> exact hstay
  | capabilityEvent o =>
    rw [reported_capabilityEvent hindex]
    by_cases hposted : s.schedule.publishCapabilityTimer.posted=0
    · rw [if_neg fun hboth => hboth.1 hposted]
      simp only [step,if_pos hposted]
      exact ⟨hstay,fun _ hi => nomatch hi⟩
    · have hnext := rearmCapability_index (b:=b) (t:={s.schedule with
        publishCapabilityTimer := s.schedule.publishCapabilityTimer.take}) hindex
        (capabilityReport b s ⟨_,hindex⟩ o s.topics).2
      rw [schedule_capabilityEvent hposted hindex,hnext]
      cases hret : (capabilityReport b s ⟨_,hindex⟩ o s.topics).2 with
      | false =>
        rw [if_neg fun hboth => Bool.false_ne_true hboth.2]
        exact ⟨rfl,fun _ hi => nomatch hi⟩
      | true =>
        rw [if_pos ⟨hposted,rfl⟩]
        exact ⟨rfl,fun i hi => by cases hi; rfl⟩
  | client op => exact ⟨hstay,fun _ hi => nomatch hi⟩

/-- Every step keeps to the turn. -/
theorem InTurn.step (hrun : Running b m.node) (h : InTurn m) (op : Op) :
    InTurn (m.step b op) := by
  unfold Machine.step
  split
  · next htrigger =>
    obtain ⟨remaining,hschedule⟩ := schedule_of_triggers htrigger
    refine ⟨rfl,?_⟩
    dsimp only
    rw [hschedule]
    exact (Nat.zero_mod num).symm
  · next hquiet =>
    obtain ⟨hnext,hthis⟩ := step_index hrun hquiet
    rw [h.next] at hnext hthis
    cases hreported : reported b m.node op with
    | none =>
      rw [hreported] at hnext
      refine ⟨by simpa using h.reports,?_⟩
      simpa using hnext
    | some i =>
      rw [hreported] at hnext
      have hi := hthis i hreported
      refine ⟨?_,?_⟩
      · simp only [Option.toList_some,List.map_cons,List.map_nil,List.length_append,
          List.length_singleton,List.range_succ,List.map_append]
        rw [←h.reports,hi]
      · simpa using hnext

end History

end TrustAlloc.EdgeNode
