import TrustAlloc.ChallengeCursor

/-!
# How often a challenge is scored

With a single challenged edge, every challenge whose submission is
acknowledged has been scored exactly once when the next one is generated, in
runs in which acknowledgements, responses and the next challenge arrive in
order. The newest challenge is open until it is answered in time or timed out,
or until a response has stopped the timer of an acknowledged one; what an
orderly run keeps is that a challenge has been scored exactly if it is not open.
-/

namespace TrustAlloc.ChallengeResponse

open EdgeInfo Pools Runs Timers TrustModels

variable {ne nc : ℕ} {ET CT D : Type} {env : Env ne ET CT D} {s : State ne nc ET CT}
  {e₀ c : Fin ne}

section Definitions

/-- Every acknowledged challenge before the newest one was scored exactly once. -/
def ScoredOnce (s : State ne nc ET CT) : Prop := ∀ r∈s.records.tail,r.acked=true → r.scores=1

/-- Scoring once is decided by the records. -/
instance decidableScoredOnce (s : State ne nc ET CT) : Decidable (ScoredOnce s) :=
  inferInstanceAs (Decidable (∀ r∈s.records.tail,_ → _))

/-- A challenge was sent, and its response has not come or came too late. -/
def Unanswered (env : Env ne ET CT D) (v : EdgeChallenger ne) : Prop :=
  v.generated≠0 ∧ (neverReceived v=true ∨ receivedLate env v=true)

/-- Being unanswered is decided by the challenger. -/
instance decidableUnanswered (env : Env ne ET CT D) (v : EdgeChallenger ne) :
    Decidable (Unanswered env v) := inferInstanceAs (Decidable (_ ∧ (_ ∨ _)))

/-- Whether the newest challenge is acknowledged. -/
def latestAcked : List (Record ne) → Bool
  | [] => false
  | r::_ => r.acked

/-- The newest challenge is acknowledged, and no expiry of the response timer waits. -/
def Quiet (s : State ne nc ET CT) : Prop := latestAcked s.records=true ∧ s.responsePending=0

/-- Being quiet is decided by the records and the waiting events. -/
instance decidableQuiet (s : State ne nc ET CT) : Decidable (Quiet s) :=
  inferInstanceAs (Decidable (_ ∧ _))

/-- The challenge is unanswered, and it is not acknowledged with its timer
stopped and its expiry dealt with. -/
def Open (env : Env ne ET CT D) (s : State ne nc ET CT) (c : Fin ne) : Prop :=
  Unanswered env (s.challenger c) ∧ ¬(Quiet s ∧ s.challengeResponseTimer.active=false)

/-- Being open is decided by the state. -/
instance decidableOpen (env : Env ne ET CT D) (s : State ne nc ET CT) (c : Fin ne) :
    Decidable (Open env s c) := inferInstanceAs (Decidable (_ ∧ ¬_))

/-- A response that counts comes while the challenge is open; it comes in time,
or the challenge is quiet. A late one comes while the challenge is open and not
quiet, or quiet and no longer open, unless it was timed out. -/
def ResponseOrderly (env : Env ne ET CT D) (s : State ne nc ET CT) (c : Fin ne) (now : ℕ)
    (p : Post) : Prop :=
  let v := s.challenger c
  (scores (judgeResponse env now p v)=true →
    Open env s c ∧ ((v.generated<now ∧ now≤v.generated+durationTicks env v) ∨ Quiet s)) ∧
  (scores (judgeResponse env now p v)=false → v.generated≠0 → (Open env s c ↔ ¬Quiet s))

/-- The order of responses is decided by the response and the state. -/
instance decidableResponseOrderly (env : Env ne ET CT D) (s : State ne nc ET CT) (c : Fin ne)
    (now : ℕ) (p : Post) : Decidable (ResponseOrderly env s c now p) :=
  inferInstanceAs (Decidable ((_ → _ ∧ (_ ∧ _ ∨ _)) ∧ (_ → _ → (_ ↔ _))))

/-- The step is in order: an acknowledgement is of the newest challenge, the
next challenge is not generated while an acknowledged one is open, and a
response to a challenge is in order. -/
def Orderly (env : Env ne ET CT D) (s : State ne nc ET CT) (op : Op ne nc ET CT) : Prop :=
  match op.action with
  | .callback .response code age => code=content205 → age=0
  | .challengeEvent _ _ => s.challengePending≠0 → s.coapCallbackInUse.locked=false →
      latestAcked s.records=true → ∀ c∈s.nextChallenge,¬Open env s c
  | .post p => ∀ e∈edgeInfoFindAddr s.edges p.src,∀ c∈findEdgeChallenger s e,
      s.records≠[] → ResponseOrderly env s c op.now p
  | _ => True

/-- Whether there are records is decided by looking for one. -/
instance decidableRecordsNe (rs : List (Record ne)) : Decidable (rs≠[]) :=
  decidable_of_iff (rs.isEmpty=false) List.isEmpty_eq_false_iff

/-- Only the given edge is ever challenged and its capability stays, the clock
does not go back, and a challenge is acknowledged after it was sent and once. -/
def SingleEdge (e₀ : Fin ne) (s : State ne nc ET CT) (op : Op ne nc ET CT) : Prop :=
  s.clock≤op.now ∧ match op.action with
  | .capabilityAdd e => e=e₀
  | .capabilityRemove _ => False
  | .callback .response code age => code=content205 → ∃ r∈s.records[age]?,r.acked=false
  | _ => True

/-- Whether a step is in order is decided by the step and the state. -/
instance decidableOrderly (env : Env ne ET CT D) (s : State ne nc ET CT) :
    ∀ op, Decidable (Orderly env s op)
  | ⟨_,.callback .response code age⟩ => inferInstanceAs (Decidable (code=content205 → age=0))
  | ⟨_,.challengeEvent _ _⟩ => inferInstanceAs (Decidable (_ → _ → _ →
      ∀ c∈s.nextChallenge,¬Open env s c))
  | ⟨now,.post p⟩ => inferInstanceAs (Decidable (∀ e∈edgeInfoFindAddr s.edges p.src,
      ∀ c∈findEdgeChallenger s e,s.records≠[] → ResponseOrderly env s c now p))
  | ⟨_,.callback .more _ _⟩ | ⟨_,.callback .finished _ _⟩ | ⟨_,.callback .timeout _ _⟩
  | ⟨_,.callback .blockError _ _⟩ | ⟨_,.capabilityAdd _⟩ | ⟨_,.capabilityRemove _⟩
  | ⟨_,.challengeTimerExpires⟩ | ⟨_,.responseTimerExpires⟩ | ⟨_,.responseEvent⟩
  | ⟨_,.coapExpires⟩ | ⟨_,.edges _⟩ => .isTrue trivial

/-- Whether only one edge is challenged is decided by the step and the state. -/
instance decidableSingleEdge (e₀ : Fin ne) (s : State ne nc ET CT) :
    ∀ op, Decidable (SingleEdge e₀ s op)
  | ⟨_,.callback .response code age⟩ => inferInstanceAs (Decidable (_ ∧ (code=content205 →
      ∃ r∈s.records[age]?,r.acked=false)))
  | ⟨_,.capabilityAdd e⟩ => inferInstanceAs (Decidable (_ ∧ e=e₀))
  | ⟨_,.capabilityRemove _⟩ => inferInstanceAs (Decidable (_ ∧ False))
  | ⟨_,.callback .more _ _⟩ | ⟨_,.callback .finished _ _⟩ | ⟨_,.callback .timeout _ _⟩
  | ⟨_,.callback .blockError _ _⟩ | ⟨_,.challengeTimerExpires⟩ | ⟨_,.responseTimerExpires⟩
  | ⟨_,.challengeEvent _ _⟩ | ⟨_,.responseEvent⟩ | ⟨_,.post _⟩ | ⟨_,.coapExpires⟩
  | ⟨_,.edges _⟩ => inferInstanceAs (Decidable (_ ∧ True))

end Definitions

section Scores

/-- Counting an outcome of another edge changes no record. -/
theorem countScore_of_ne {e : Fin ne} {rs : List (Record ne)} (h : ∀ r∈rs,r.edge≠e) :
    countScore e rs=rs := by
  induction rs with
  | nil => rfl
  | cons r rs ih =>
    have hrest := ih fun r' hr' => h r' (List.mem_cons_of_mem r hr')
    rw [countScore,if_neg (h r List.mem_cons_self),hrest]

/-- Counting an outcome of the edge of the newest challenge. -/
theorem countScore_cons {e : Fin ne} {r : Record ne} (rs : List (Record ne)) (h : r.edge=e) :
    countScore e (r::rs)={r with scores := r.scores+1}::rs := if_pos h

/-- A response does not count only if it is late. -/
theorem late_of_not_scores {now : ℕ} {p : Post} {v : EdgeChallenger ne}
    (h : scores (judgeResponse env now p v)=false) : v.generated+durationTicks env v<now := by
  unfold judgeResponse at h
  split at h
  · cases h
  · split at h
    · cases h
    · have hlate : durationTicks env v<now-v.generated := by
        simpa [scores,tmChallengeResponseGood] using h
      omega

/-- A list with a head is not empty. -/
theorem ne_nil_of_mem_head {α : Type} {l : List α} {x : α} (h : x∈l.head?) : l≠[] :=
  List.ne_nil_of_mem (List.mem_of_mem_head? h)

/-- The only challenger, and what is known of its challenges: the newest one
has been scored exactly if it is not open. -/
structure Tracks (env : Env ne ET CT D) (e₀ c : Fin ne) (s : State ne nc ET CT) : Prop where
  /-- There is no other challenger. -/
  challengers : s.challengers=[c]
  /-- The cursor is on it. -/
  cursor : s.nextChallenge=some c
  /-- It is for the given edge. -/
  edge : (s.challenger c).edge=e₀
  /-- Responses came in the past. -/
  received : (s.challenger c).received ≤ s.clock
  /-- Challenges have the configured duration. -/
  duration : s.records≠[] → (s.challenger c).ch.maxDurationSecs=env.challengeDuration
  /-- All challenges were sent to the edge. -/
  edges : ∀ r∈s.records,r.edge=e₀
  /-- An open challenge has not been scored. -/
  unscored : Open env s c → ∀ r∈s.records.head?,r.scores=0
  /-- A challenge that is not open has been scored once. -/
  scored : ¬Open env s c → ∀ r∈s.records.head?,r.scores=1

/-- While the response timer is armed, an unanswered challenge is open. -/
theorem open_iff_of_armed (h : s.challengeResponseTimer.active=true) :
    Open env s c ↔ Unanswered env (s.challenger c) := by
  unfold Open
  simp [h]

/-- While an expiry of the response timer waits, an unanswered challenge is open. -/
theorem open_iff_of_pending (h : s.responsePending≠0) :
    Open env s c ↔ Unanswered env (s.challenger c) := by
  unfold Open Quiet
  simp [h]

/-- As long as it is not acknowledged, an unanswered challenge is open. -/
theorem open_iff_of_not_acked (h : latestAcked s.records=false) :
    Open env s c ↔ Unanswered env (s.challenger c) := by
  unfold Open Quiet
  simp [h]

/-- What is known depends on the list, the cursor, the challenger, the records
and what is open. -/
theorem Tracks.transfer {s' : State ne nc ET CT} (h : Tracks env e₀ c s)
    (hchallengers : s'.challengers=s.challengers) (hcursor : s'.nextChallenge=s.nextChallenge)
    (hedge : (s'.challenger c).edge=(s.challenger c).edge)
    (hreceived : (s'.challenger c).received ≤ s'.clock)
    (hduration : s.records≠[] → (s'.challenger c).ch.maxDurationSecs=env.challengeDuration)
    (hrecords : s'.records=s.records)
    (hopen : s.records≠[] → (Open env s' c ↔ Open env s c)) : Tracks env e₀ c s' := by
  refine ⟨hchallengers.trans h.challengers,hcursor.trans h.cursor,hedge.trans h.edge,hreceived,
    ?_,?_,?_,?_⟩
  · rwa [hrecords]
  · rw [hrecords]
    exact h.edges
  · rw [hrecords]
    exact fun ho r hr => h.unscored ((hopen (ne_nil_of_mem_head hr)).mp ho) r hr
  · rw [hrecords]
    exact fun ho r hr =>
      h.scored (fun ho' => ho ((hopen (ne_nil_of_mem_head hr)).mpr ho')) r hr

/-- An outcome that is counted while the newest challenge is open settles it. -/
theorem Tracks.score {s' : State ne nc ET CT} (h : Tracks env e₀ c s)
    (hchallengers : s'.challengers=s.challengers) (hcursor : s'.nextChallenge=s.nextChallenge)
    (hedge : (s'.challenger c).edge=(s.challenger c).edge)
    (hreceived : (s'.challenger c).received ≤ s'.clock)
    (hduration : s.records≠[] → (s'.challenger c).ch.maxDurationSecs=env.challengeDuration)
    (hrecords : s'.records=countScore e₀ s.records)
    (hopen : s.records≠[] → Open env s c ∧ ¬Open env s' c) : Tracks env e₀ c s' := by
  cases hs : s.records with
  | nil =>
    rw [hs,countScore] at hrecords
    refine h.transfer hchallengers hcursor hedge hreceived hduration (hrecords.trans hs.symm) ?_
    exact fun hne => absurd hs hne
  | cons r rs =>
    have hne : s.records≠[] := hs ▸ List.cons_ne_nil r rs
    have hr : r∈s.records := hs ▸ List.mem_cons_self
    rw [hs,countScore_cons rs (h.edges r hr)] at hrecords
    obtain ⟨ho,hclosed⟩ := hopen hne
    refine ⟨hchallengers.trans h.challengers,hcursor.trans h.cursor,hedge.trans h.edge,hreceived,
      fun _ => hduration hne,fun r' hm => ?_,fun ho' => absurd ho' hclosed,fun _ r' hm => ?_⟩
    · rw [hrecords] at hm
      rcases List.mem_cons.mp hm with rfl | hm'
      · exact h.edges r hr
      · exact h.edges r' (hs ▸ List.mem_cons_of_mem r hm')
    · rw [hrecords] at hm
      cases hm
      have hzero := h.unscored ho r (by rw [hs]; rfl)
      dsimp only
      omega

/-- Counting an outcome leaves the challenges before the newest one alone. -/
theorem Tracks.tail_countScore (h : Tracks env e₀ c s) :
    (countScore e₀ s.records).tail=s.records.tail := by
  cases hs : s.records with
  | nil => rfl
  | cons r rs => rw [countScore_cons rs (h.edges r (hs ▸ List.mem_cons_self)),List.tail_cons,
      List.tail_cons]

/-- What is open depends on the challengers, the response timer, its waiting
events and the records. -/
theorem open_congr {s' : State ne nc ET CT} (hmemb : s'.challengersMemb=s.challengersMemb)
    (htimer : s'.challengeResponseTimer=s.challengeResponseTimer)
    (hpending : s'.responsePending=s.responsePending) (hrecords : s'.records=s.records) :
    Open env s' c ↔ Open env s c := by
  have hc : s'.challenger c=s.challenger c := congrArg (fun m => Memb.mem m c) hmemb
  unfold Open Quiet
  rw [hc,htimer,hpending,hrecords]

/-- Before the edge has a challenger nothing has been sent. -/
structure Idle (s : State ne nc ET CT) : Prop where
  /-- There is no challenger. -/
  challengers : s.challengers=[]
  /-- The cursor is null. -/
  cursor : s.nextChallenge=none
  /-- No challenge was sent. -/
  records : s.records=[]

/-- What an orderly run keeps. -/
structure ScoresInv (env : Env ne ET CT D) (e₀ : Fin ne) (s : State ne nc ET CT) : Prop where
  /-- There is no challenger yet, or only that of the edge. -/
  single : Idle s ∨ ∃ c,Tracks env e₀ c s
  /-- The challenges before the newest one. -/
  closed : ScoredOnce s
  /-- The challenge timer has the configured interval. -/
  interval : s.challengeTimer.active=true ∨ s.challengePending≠0 →
    s.challengeTimer.interval=env.challengePeriod
  /-- The challenge timer expires after the first tick. -/
  ticking : s.challengePending≠0 → 0<s.clock

/-- Nothing about challenges has changed and no time has been lost. -/
theorem ScoresInv.congr {s' : State ne nc ET CT} (h : ScoresInv env e₀ s)
    (hchallengers : s'.challengers=s.challengers) (hcursor : s'.nextChallenge=s.nextChallenge)
    (hmemb : s'.challengersMemb=s.challengersMemb) (hclock : s.clock ≤ s'.clock)
    (htimer : s'.challengeResponseTimer=s.challengeResponseTimer)
    (hpending : s'.responsePending=s.responsePending) (hrecords : s'.records=s.records)
    (hinterval : s'.challengeTimer.active=true ∨ s'.challengePending≠0 →
      s'.challengeTimer.interval=env.challengePeriod)
    (hticking : s'.challengePending≠0 → 0<s'.clock) : ScoresInv env e₀ s' := by
  refine ⟨?_,?_,hinterval,hticking⟩
  · rcases h.single with ⟨hl,hn,hr⟩ | ⟨c,hc⟩
    · exact Or.inl ⟨hchallengers.trans hl,hcursor.trans hn,hrecords.trans hr⟩
    · have hv : s'.challenger c=s.challenger c := congrArg (fun m => Memb.mem m c) hmemb
      refine Or.inr ⟨c,hc.transfer hchallengers hcursor (by rw [hv]) ?_ ?_ hrecords fun _ =>
        open_congr hmemb htimer hpending hrecords⟩
      · rw [hv]
        exact hc.received.trans hclock
      · rw [hv]
        exact hc.duration
  · unfold ScoredOnce
    rw [hrecords]
    exact h.closed

/-- Time may pass. -/
theorem ScoresInv.tick (h : ScoresInv env e₀ s) {now : ℕ} (hnow : s.clock≤now) :
    ScoresInv env e₀ {s with clock := now} :=
  h.congr rfl rfl rfl hnow rfl rfl rfl h.interval fun hp => (h.ticking hp).trans_le hnow

/-- The configured interval is not zero. -/
theorem challengePeriod_pos (env : Env ne ET CT D) : 0<env.challengePeriod :=
  (Nat.zero_le _).trans_lt env.duration_lt_period

/-- The only challenger is the one that is found, and only for its edge. -/
theorem Tracks.find (h : Tracks env e₀ c s) (e : Fin ne) :
    (e=e₀ ∧ findEdgeChallenger s e=some c) ∨ (e≠e₀ ∧ findEdgeChallenger s e=none) := by
  unfold findEdgeChallenger
  rw [h.challengers]
  by_cases he : e=e₀
  · refine Or.inl ⟨he,?_⟩
    simp [he,h.edge]
  · refine Or.inr ⟨he,?_⟩
    simp [h.edge,Ne.symm he]

/-- The first challenger is the only one and has not been sent anything. -/
theorem Idle.link (h : Idle s) (env : Env ne ET CT D) (e₀ c : Fin ne) :
    Tracks env e₀ c (moveToNextChallenge (linkChallenger e₀ c s)) := by
  have hv := (s.challengersMemb.take c).set_mem_same c {s.challenger c with
    edge := e₀
    generated := 0
    received := 0}
  have hedge := congrArg EdgeChallenger.edge hv
  have hreceived := congrArg EdgeChallenger.received hv
  have hlist : (linkChallenger e₀ c s).challengers=[c] := by
    unfold linkChallenger
    dsimp only
    rw [h.challengers]
    rfl
  have hcursor : (moveToNextChallenge (linkChallenger e₀ c s)).nextChallenge=some c := by
    unfold moveToNextChallenge
    dsimp only
    rw [hlist,show (linkChallenger e₀ c s).nextChallenge=none from h.cursor]
    rfl
  have hrecords : (moveToNextChallenge (linkChallenger e₀ c s)).records=[] := h.records
  refine ⟨hlist,hcursor,hedge,hreceived.trans_le (Nat.zero_le _),fun hne => absurd hrecords hne,
    ?_,?_,?_⟩ <;> rw [hrecords]
  · exact fun r hr => nomatch hr
  · exact fun _ r hr => nomatch hr
  · exact fun _ r hr => nomatch hr

/-- A capability that is added again, or for the first time. -/
theorem ScoresInv.edgeCapabilityAdd (h : ScoresInv env e₀ s) :
    ScoresInv env e₀ (edgeCapabilityAdd env s.clock e₀ s) := by
  have hnote : ScoresInv env e₀ (noteAdd env s.clock s) := by
    refine h.congr rfl rfl rfl le_rfl rfl rfl rfl (fun ht => ?_) h.ticking
    dsimp only [noteAdd] at ht ⊢
    split
    · rfl
    · next hno =>
      rw [if_neg hno] at ht
      exact h.interval ht
  unfold ChallengeResponse.edgeCapabilityAdd
  dsimp only
  split
  · exact hnote
  · next hnone =>
    split
    · exact hnote
    · next c _ =>
      rcases hnote.single with hidle | ⟨d,hd⟩
      · have hcursor : (linkChallenger e₀ c (noteAdd env s.clock s)).nextChallenge=none :=
          hidle.cursor
        rw [if_pos hcursor]
        exact ⟨Or.inr ⟨c,hidle.link env e₀ c⟩,hnote.closed,hnote.interval,hnote.ticking⟩
      · rcases hd.find e₀ with ⟨_,hfind⟩ | ⟨hne,_⟩
        · rw [hfind] at hnone
          cases hnone
        · exact absurd rfl hne

/-- The challenge timer expires. -/
theorem ScoresInv.challengeTimerExpires (h : ScoresInv env e₀ s)
    (hexp : s.challengeTimer.Expired s.clock) : ScoresInv env e₀ {s with
      challengeTimer := s.challengeTimer.stop
      challengePending := s.challengePending+1} := by
  have hinterval := h.interval (Or.inl hexp.1)
  have hperiod := challengePeriod_pos env
  have hdue := hexp.2
  exact h.congr rfl rfl rfl le_rfl rfl rfl rfl (fun _ => hinterval) fun _ => by
    change 0<s.clock
    omega

/-- The response timer expires. -/
theorem ScoresInv.responseTimerExpires (h : ScoresInv env e₀ s)
    (hexp : s.challengeResponseTimer.Expired s.clock) : ScoresInv env e₀ {s with
      challengeResponseTimer := s.challengeResponseTimer.stop
      responsePending := s.responsePending+1} := by
  refine ⟨?_,h.closed,h.interval,h.ticking⟩
  rcases h.single with ⟨hl,hn,hr⟩ | ⟨c,hc⟩
  · exact Or.inl ⟨hl,hn,hr⟩
  · refine Or.inr ⟨c,hc.transfer rfl rfl rfl hc.received hc.duration rfl fun _ => ?_⟩
    rw [open_iff_of_armed hexp.1,open_iff_of_pending (Nat.succ_ne_zero s.responsePending)]

/-- The newest challenge is acknowledged, which arms the response timer. -/
theorem Tracks.acknowledge (h : Tracks env e₀ c s) {r : Record ne} {rs : List (Record ne)}
    (hr : s.records=r::rs) (hacked : r.acked=false) (interval : ℕ) :
    Tracks env e₀ c {s with
      challengeResponseTimer := .set s.clock interval
      records := {r with acked := true}::rs} := by
  have hopen : Open env s c ↔ Unanswered env (s.challenger c) :=
    open_iff_of_not_acked (by rw [hr]; exact hacked)
  have hmem : r∈s.records := hr ▸ List.mem_cons_self
  have hhead : r∈s.records.head? := by rw [hr]; rfl
  refine ⟨h.challengers,h.cursor,h.edge,h.received,
    fun _ => h.duration (List.ne_nil_of_mem hmem),fun r' hm => ?_,fun ho r' hm => ?_,
    fun ho r' hm => ?_⟩
  · rcases List.mem_cons.mp hm with rfl | hm'
    · exact h.edges r hmem
    · exact h.edges r' (hr ▸ List.mem_cons_of_mem r hm')
  · cases hm
    exact h.unscored (hopen.mpr ho.1) r hhead
  · cases hm
    rw [open_iff_of_armed rfl] at ho
    exact h.scored (fun ho' => ho ho'.1) r hhead

/-- An acknowledgement of the newest challenge arms the timer and is recorded. -/
theorem ScoresInv.acknowledge (h : ScoresInv env e₀ s) {r : Record ne}
    (hr : r∈s.records[0]?) (hacked : r.acked=false) :
    ScoresInv env e₀ {s with
      challengeResponseTimer := armResponseTimer env s.clock s
      records := s.records.modify 0 fun r => {r with acked := true}} := by
  rcases h.single with hidle | ⟨c,hc⟩
  · rw [hidle.records] at hr
    cases hr
  · have hclosed := h.closed
    unfold ScoredOnce at hclosed
    cases hs : s.records with
    | nil =>
      rw [hs] at hr
      cases hr
    | cons r' rs =>
      obtain rfl : r'=r := by
        rw [hs] at hr
        exact Option.some.inj hr
      have hrecords : (r'::rs).modify 0 (fun r => {r with acked := true})=
          {r' with acked := true}::rs := rfl
      have htimer : armResponseTimer env s.clock s=
          .set s.clock (durationTicks env (s.challenger c)) := by
        rw [armResponseTimer,hc.cursor]
      have hack := hc.acknowledge hs hacked (durationTicks env (s.challenger c))
      rw [hs] at hclosed
      exact ⟨Or.inr ⟨c,hack.transfer rfl rfl rfl hack.received hack.duration hrecords fun _ =>
        open_congr rfl htimer rfl hrecords⟩,hclosed,h.interval,h.ticking⟩

/-- A callback is about the newest challenge if it acknowledges one. -/
theorem ScoresInv.sendCallback (h : ScoresInv env e₀ s) (status : CoapRequestStatus)
    (code age : ℕ)
    (hage : status=.response → code=content205 → age=0 ∧ ∃ r∈s.records[age]?,r.acked=false) :
    ScoresInv env e₀ (sendCallback env s.clock status code age s) := by
  have hnote : ScoresInv env e₀ (noteStatus env s.clock status code age s) := by
    unfold noteStatus
    cases status with
    | response =>
      dsimp only
      split
      · next hcode =>
        obtain ⟨rfl,r,hr,hacked⟩ := hage rfl hcode
        exact h.acknowledge hr hacked
      · exact h
    | finished | more | timeout | blockError =>
      exact h.congr rfl rfl rfl le_rfl rfl rfl rfl h.interval h.ticking
  unfold ChallengeResponse.sendCallback
  dsimp only
  split
  · exact hnote
  · exact hnote.congr rfl rfl rfl le_rfl rfl rfl rfl hnote.interval hnote.ticking

/-- An expiry of the response timer is dealt with. -/
theorem ScoresInv.responseEvent (h : ScoresInv env e₀ s) (hp : s.responsePending≠0) :
    ScoresInv env e₀
      (challengeResponseTimedOut env {s with responsePending := s.responsePending-1}) := by
  rcases h.single with hidle | ⟨c,hc⟩
  · have hnone : challengeResponseTimedOut env {s with responsePending := s.responsePending-1}=
        {s with responsePending := s.responsePending-1} := by
      unfold challengeResponseTimedOut
      dsimp only
      split
      · rfl
      · next d hd => cases hidle.cursor.symm.trans hd
    rw [hnone]
    exact ⟨Or.inl ⟨hidle.challengers,hidle.cursor,hidle.records⟩,h.closed,h.interval,h.ticking⟩
  · have hopen : Open env s c ↔ Unanswered env (s.challenger c) := open_iff_of_pending hp
    unfold challengeResponseTimedOut
    split
    · next hnone => cases hc.cursor.symm.trans hnone
    · next d hd =>
      obtain rfl : d=c := Option.some.inj (hd.symm.trans hc.cursor)
      dsimp only
      split
      · next hun =>
        have hv := s.challengersMemb.set_mem_same d {s.challenger d with
          generated := 0
          received := 0}
        have hedge := congrArg EdgeChallenger.edge hv
        refine ⟨Or.inr ⟨d,hc.score rfl rfl hedge ?_ ?_ ?_ ?_⟩,?_,h.interval,h.ticking⟩
        · exact (congrArg EdgeChallenger.received hv).trans_le (Nat.zero_le _)
        · exact fun hne => (congrArg (fun v => v.ch.maxDurationSecs) hv).trans (hc.duration hne)
        · exact congrArg (fun e => countScore e s.records) hc.edge
        · exact fun _ => ⟨hopen.mpr hun,fun ho => ho.1.1 (congrArg EdgeChallenger.generated hv)⟩
        · have htail := hc.tail_countScore
          have hclosed := h.closed
          unfold ScoredOnce at hclosed ⊢
          rw [←htail,←hc.edge] at hclosed
          exact hclosed
      · next hun =>
        refine ⟨Or.inr ⟨d,hc.transfer rfl rfl rfl hc.received hc.duration rfl fun _ => ?_⟩,
          h.closed,h.interval,h.ticking⟩
        exact iff_of_false (fun ho => hun ho.1) fun ho => hun (hopen.mp ho)

/-- Being unanswered depends on the two moments and the duration. -/
theorem unanswered_congr (env : Env ne ET CT D) {v v' : EdgeChallenger ne}
    (hgenerated : v'.generated=v.generated) (hreceived : v'.received=v.received)
    (hduration : v'.ch.maxDurationSecs=v.ch.maxDurationSecs) :
    Unanswered env v' ↔ Unanswered env v := by
  unfold Unanswered neverReceived receivedLate durationTicks
  rw [hgenerated,hreceived,hduration]

/-- A new challenge is open and has not been scored. -/
theorem Tracks.challenge {s' : State ne nc ET CT} (h : Tracks env e₀ c s) (hclock : 0<s.clock)
    (hchallengers : s'.challengers=s.challengers) (hcursor : s'.nextChallenge=some c)
    (hnow : s'.clock=s.clock) (hedge : (s'.challenger c).edge=(s.challenger c).edge)
    (hgenerated : (s'.challenger c).generated=s.clock)
    (hreceived : (s'.challenger c).received=(s.challenger c).received)
    (hduration : (s'.challenger c).ch.maxDurationSecs=env.challengeDuration)
    (hrecords : s'.records=⟨e₀,false,0⟩::s.records) : Tracks env e₀ c s' := by
  have hopen : Open env s' c := by
    refine (open_iff_of_not_acked (by rw [hrecords]; rfl)).mpr ⟨?_,Or.inl ?_⟩
    · rw [hgenerated]
      exact hclock.ne'
    · rw [neverReceived,hgenerated,hreceived]
      exact decide_eq_true h.received
  refine ⟨hchallengers.trans h.challengers,hcursor,hedge.trans h.edge,?_,fun _ => hduration,
    fun r hr => ?_,fun _ r hr => ?_,fun ho => absurd hopen ho⟩
  · rw [hreceived,hnow]
    exact h.received
  · rw [hrecords] at hr
    rcases List.mem_cons.mp hr with rfl | hr'
    · rfl
    · exact h.edges r hr'
  · rw [hrecords] at hr
    cases hr
    rfl

/-- A challenge that is generated and not sent, which stops the timer all the
same, leaves an acknowledged challenge scored that was not open any more. -/
theorem Tracks.abandon {s' : State ne nc ET CT} (h : Tracks env e₀ c s)
    (hnot : latestAcked s.records=true → ¬Open env s c)
    (hchallengers : s'.challengers=s.challengers) (hcursor : s'.nextChallenge=some c)
    (hnow : s'.clock=s.clock) (hedge : (s'.challenger c).edge=(s.challenger c).edge)
    (hgenerated : (s'.challenger c).generated=(s.challenger c).generated)
    (hreceived : (s'.challenger c).received=(s.challenger c).received)
    (hduration : (s'.challenger c).ch.maxDurationSecs=env.challengeDuration)
    (hstop : s'.challengeResponseTimer.active=false)
    (hpending : s'.responsePending=s.responsePending) (hrecords : s'.records=s.records) :
    Tracks env e₀ c s' := by
  refine h.transfer hchallengers (hcursor.trans h.cursor.symm) hedge ?_ (fun _ => hduration)
    hrecords fun hne => ?_
  · rw [hreceived,hnow]
    exact h.received
  · have hun := unanswered_congr env hgenerated hreceived
      (hduration.trans (h.duration hne).symm)
    have hquiet : Quiet s' ↔ Quiet s := by
      unfold Quiet
      rw [hrecords,hpending]
    cases hacked : latestAcked s.records with
    | true =>
      refine iff_of_false (fun ho => hnot hacked ⟨hun.mp ho.1,fun hq => ?_⟩) (hnot hacked)
      exact ho.2 ⟨hquiet.mpr hq.1,hstop⟩
    | false =>
      rw [open_iff_of_not_acked hacked,open_iff_of_not_acked (by rw [hrecords,hacked])]
      exact hun

/-- Once an acknowledged challenge is not open any more, all have been scored once. -/
theorem Tracks.closed (h : Tracks env e₀ c s) (hclosed : ScoredOnce s)
    (hnot : latestAcked s.records=true → ¬Open env s c) :
    ∀ r∈s.records,r.acked=true → r.scores=1 := by
  intro r hr hacked
  have hscored := h.scored
  unfold ScoredOnce at hclosed
  cases hs : s.records with
  | nil =>
    rw [hs] at hr
    cases hr
  | cons r' rs =>
    rw [hs] at hr hclosed hnot hscored
    rcases List.mem_cons.mp hr with rfl | hr'
    · exact hscored (hnot hacked) r rfl
    · exact hclosed r hr' hacked

/-- The cursor stays on the only challenger. -/
theorem Tracks.moveToNextChallenge_cursor (h : Tracks env e₀ c s) :
    (moveToNextChallenge s).nextChallenge=some c := by
  unfold moveToNextChallenge
  dsimp only
  rw [h.cursor,h.challengers]
  simp [listItemNext]

/-- The next challenge is generated when the newest one, if it is
acknowledged, is not open. -/
theorem ScoresInv.periodicAction (h : ScoresInv env e₀ s) (data : Vector UInt8 32)
    (accepted : Bool) (hclock : 0<s.clock)
    (hsettled : s.coapCallbackInUse.locked=false → latestAcked s.records=true →
      ∀ c∈s.nextChallenge,¬Open env s c) :
    ScoresInv env e₀ (periodicAction env s.clock data accepted s) := by
  unfold ChallengeResponse.periodicAction
  split
  · exact h
  · next hlock =>
    have hfree : s.coapCallbackInUse.locked=false := by simpa using hlock
    dsimp only
    rcases h.single with hidle | ⟨c,hc⟩
    · have hnone : (moveToNextChallenge s).nextChallenge=none := by
        unfold moveToNextChallenge
        dsimp only
        rw [hidle.cursor,hidle.challengers]
        rfl
      split
      · exact ⟨Or.inl ⟨hidle.challengers,hnone,hidle.records⟩,h.closed,h.interval,h.ticking⟩
      · next d hd => cases hnone.symm.trans hd
    · have hcursor := hc.moveToNextChallenge_cursor
      have hnot : latestAcked s.records=true → ¬Open env s c := fun hacked =>
        hsettled hfree hacked c hc.cursor
      split
      · next hnone => cases hcursor.symm.trans hnone
      · next d hd =>
        obtain rfl : d=c := Option.some.inj (hd.symm.trans hcursor)
        split
        · have hv := s.challengersMemb.set_mem_same d {s.challenger d with
            ch := generateChallenge data env.challengeDifficulty env.challengeDuration}
          have hedge := congrArg EdgeChallenger.edge hv
          have hgenerated := congrArg EdgeChallenger.generated hv
          have hreceived := congrArg EdgeChallenger.received hv
          have hduration := congrArg (fun v => v.ch.maxDurationSecs) hv
          exact ⟨Or.inr ⟨d,hc.abandon hnot rfl hcursor rfl hedge hgenerated hreceived hduration
            rfl rfl rfl⟩,h.closed,h.interval,h.ticking⟩
        · have hv := s.challengersMemb.set_mem_same d {s.challenger d with
            ch := generateChallenge data env.challengeDifficulty env.challengeDuration
            generated := s.clock}
          have hedge := congrArg EdgeChallenger.edge hv
          have hgenerated := congrArg EdgeChallenger.generated hv
          have hreceived := congrArg EdgeChallenger.received hv
          have hduration := congrArg (fun v => v.ch.maxDurationSecs) hv
          have hrecords := congrArg (fun e => Record.mk e false 0::s.records) hc.edge
          have hclosed := hc.closed h.closed hnot
          split
          · exact ⟨Or.inr ⟨d,hc.challenge hclock rfl hcursor rfl hedge hgenerated hreceived
              hduration hrecords⟩,hclosed,h.interval,h.ticking⟩
          · exact ⟨Or.inr ⟨d,hc.challenge hclock rfl hcursor rfl hedge hgenerated hreceived
              hduration hrecords⟩,hclosed,h.interval,h.ticking⟩

/-- A response that is in order leaves the newest challenge scored exactly if
it is not open. -/
theorem Tracks.respond (h : Tracks env e₀ c s) {p : Post}
    (hord : s.records≠[] → ResponseOrderly env s c s.clock p) {s' : State ne nc ET CT}
    (hchallengers : s'.challengers=s.challengers) (hcursor : s'.nextChallenge=s.nextChallenge)
    (hv : s'.challenger c={s.challenger c with received := s.clock}) (hnow : s'.clock=s.clock)
    (hstop : s'.challengeResponseTimer.active=false)
    (hpending : s'.responsePending=s.responsePending)
    (hacked : latestAcked s'.records=latestAcked s.records)
    (hrecords : s'.records=if scores (judgeResponse env s.clock p (s.challenger c))=true then
      countScore e₀ s.records else s.records) : Tracks env e₀ c s' := by
  have hedge := congrArg EdgeChallenger.edge hv
  have hreceived : (s'.challenger c).received ≤ s'.clock := by rw [hv,hnow]
  have hduration : s.records≠[] → (s'.challenger c).ch.maxDurationSecs=env.challengeDuration := by
    rw [hv]
    exact h.duration
  have hquiet : Quiet s' ↔ Quiet s := by
    unfold Quiet
    rw [hacked,hpending]
  -- The timer is stopped now, so only an acknowledgement to come or a waiting
  -- expiry keeps an unanswered challenge open.
  have hopen : Open env s' c ↔ Unanswered env (s'.challenger c) ∧ ¬Quiet s := by
    unfold Open
    rw [hquiet]
    simp [hstop]
  have hun : Unanswered env (s'.challenger c) ↔ (s.challenger c).generated≠0 ∧
      ¬((s.challenger c).generated<s.clock ∧
        s.clock≤(s.challenger c).generated+durationTicks env (s.challenger c)) := by
    rw [hv]
    unfold Unanswered neverReceived receivedLate durationTicks
    simp only [decide_eq_true_eq]
    refine and_congr_right fun _ => ?_
    omega
  cases hscores : scores (judgeResponse env s.clock p (s.challenger c)) with
  | true =>
    rw [hscores,if_pos rfl] at hrecords
    refine h.score hchallengers hcursor hedge hreceived hduration hrecords fun hne => ?_
    obtain ⟨ho,hend⟩ := (hord hne).1 hscores
    refine ⟨ho,fun ho' => ?_⟩
    obtain ⟨hlate,hnot⟩ := hopen.mp ho'
    exact hend.elim (hun.mp hlate).2 hnot
  | false =>
    rw [hscores,if_neg (by decide)] at hrecords
    refine h.transfer hchallengers hcursor hedge hreceived hduration hrecords fun hne => ?_
    by_cases hzero : (s.challenger c).generated=0
    · refine iff_of_false (fun ho => ?_) fun ho => ho.1.1 hzero
      exact (hun.mp (hopen.mp ho).1).1 hzero
    · have hlate := late_of_not_scores hscores
      have hun' : Unanswered env (s'.challenger c) := hun.mpr ⟨hzero,by omega⟩
      rw [hopen,(hord hne).2 hscores hzero]
      exact and_iff_right hun'

/-- Counting an outcome does not change what is acknowledged. -/
theorem latestAcked_countScore (e : Fin ne) (rs : List (Record ne)) :
    latestAcked (countScore e rs)=latestAcked rs := by
  cases rs with
  | nil => rfl
  | cons r rs =>
    rw [countScore]
    split <;> rfl

/-- A message is in order, if it is a response to a challenge. -/
theorem ScoresInv.resCoapCrPostHandler (h : ScoresInv env e₀ s) (p : Post)
    (hord : ∀ e∈edgeInfoFindAddr s.edges p.src,∀ c∈findEdgeChallenger s e,
      s.records≠[] → ResponseOrderly env s c s.clock p) :
    ScoresInv env e₀ (resCoapCrPostHandler env s.clock p s) := by
  unfold ChallengeResponse.resCoapCrPostHandler
  split
  · exact h
  · next e he =>
    split
    · next hnone =>
      have hother : countScore e s.records=s.records := by
        rcases h.single with hidle | ⟨c,hc⟩
        · rw [hidle.records]
          rfl
        · rcases hc.find e with ⟨_,hfind⟩ | ⟨hne,_⟩
          · rw [hfind] at hnone
            cases hnone
          · exact countScore_of_ne fun r hr heq => hne (heq.symm.trans (hc.edges r hr))
      exact h.congr rfl rfl rfl le_rfl rfl rfl hother h.interval h.ticking
    · next c hfound =>
      rcases h.single with hidle | ⟨d,hd⟩
      · unfold findEdgeChallenger at hfound
        rw [hidle.challengers] at hfound
        cases hfound
      · obtain ⟨rfl,rfl⟩ : e=e₀ ∧ d=c := by
          rcases hd.find e with ⟨heq,hfind⟩ | ⟨_,hfind⟩
          · exact ⟨heq,Option.some.inj (hfind.symm.trans hfound)⟩
          · rw [hfind] at hfound
            cases hfound
        have hv := s.challengersMemb.set_mem_same d {s.challenger d with received := s.clock}
        have hjudge : judgeResponse env s.clock p {s.challenger d with received := s.clock}=
            judgeResponse env s.clock p (s.challenger d) := rfl
        dsimp only [report,State.setChallenger,State.challenger]
        rw [hv,hjudge]
        refine ⟨Or.inr ⟨d,hd.respond (p:=p) (fun hne => hord e he d hfound hne) rfl rfl hv rfl rfl
          rfl ?_ rfl⟩,?_,h.interval,h.ticking⟩
        · dsimp only
          split
          · exact latestAcked_countScore e s.records
          · rfl
        · have hclosed := h.closed
          unfold ScoredOnce at hclosed ⊢
          dsimp only
          split
          · rwa [hd.tail_countScore]
          · exact hclosed

/-- Sending a challenge leaves its own timer alone. -/
theorem periodicAction_challengeTimer (env : Env ne ET CT D) (now : ℕ) (data : Vector UInt8 32)
    (accepted : Bool) (s : State ne nc ET CT) :
    (periodicAction env now data accepted s).challengeTimer=s.challengeTimer := by
  unfold periodicAction
  split
  · rfl
  · dsimp only
    split
    · rfl
    · split
      · rfl
      · split <;> rfl

/-- An expiry of the challenge timer is dealt with. -/
theorem ScoresInv.challengeEvent (h : ScoresInv env e₀ s) (data : Vector UInt8 32)
    (accepted : Bool) (hp : s.challengePending≠0)
    (hsettled : s.coapCallbackInUse.locked=false → latestAcked s.records=true →
      ∀ c∈s.nextChallenge,¬Open env s c) {sent : State ne nc ET CT}
    (hsent : sent=ChallengeResponse.periodicAction env s.clock data accepted
      {s with challengePending := s.challengePending-1}) :
    ScoresInv env e₀ {sent with challengeTimer := sent.challengeTimer.reset} := by
  have htaken : ScoresInv env e₀ {s with challengePending := s.challengePending-1} :=
    h.congr rfl rfl rfl le_rfl rfl rfl rfl (fun _ => h.interval (Or.inr hp))
      fun _ => h.ticking hp
  have hinv := htaken.periodicAction data accepted (h.ticking hp) hsettled
  have htimer := periodicAction_challengeTimer env s.clock data accepted
    {s with challengePending := s.challengePending-1}
  rw [←hsent] at htimer
  dsimp only at hinv
  rw [←hsent] at hinv
  refine hinv.congr rfl rfl rfl le_rfl rfl rfl rfl (fun _ => ?_) hinv.ticking
  rw [htimer]
  exact h.interval (Or.inr hp)

/-- An orderly step with a single challenged edge keeps the invariant. -/
theorem ScoresInv.step (h : ScoresInv env e₀ s) {op : Op ne nc ET CT}
    (hsingle : SingleEdge e₀ s op) (hord : Orderly env s op) :
    ScoresInv env e₀ (step env s op) := by
  obtain ⟨now,action⟩ := op
  obtain ⟨hnow,haction⟩ := hsingle
  have htick := h.tick hnow
  unfold ChallengeResponse.step act
  cases action with
  | capabilityAdd e =>
    obtain rfl : e=e₀ := haction
    exact htick.edgeCapabilityAdd
  | capabilityRemove e => exact haction.elim
  | challengeTimerExpires =>
    dsimp only
    split
    · next hexp => exact htick.challengeTimerExpires hexp
    · exact htick
  | responseTimerExpires =>
    dsimp only
    split
    · next hexp => exact htick.responseTimerExpires hexp
    · exact htick
  | challengeEvent data accepted =>
    dsimp only
    split
    · exact htick
    · next hp => exact htick.challengeEvent data accepted hp (hord hp) rfl
  | responseEvent =>
    dsimp only
    split
    · exact htick
    · next hp => exact htick.responseEvent hp
  | callback status code age =>
    refine htick.sendCallback status code age fun hstatus hcode => ?_
    subst hstatus
    exact ⟨hord hcode,haction hcode⟩
  | post p => exact htick.resCoapCrPostHandler p hord
  | coapExpires =>
    dsimp only
    split
    · exact htick.congr rfl rfl rfl le_rfl rfl rfl rfl htick.interval htick.ticking
    · exact htick
  | edges edges =>
    exact htick.congr rfl rfl rfl le_rfl rfl rfl rfl htick.interval htick.ticking

/-- **Scores over a whole run.** In an orderly run with a single challenged
edge, every acknowledged challenge has been scored exactly once by the time
the next one is generated, in every state reached. -/
theorem scoredOnce_always (env : Env ne ET CT D) (edges : EdgeStore ne nc ET CT)
    (blocks : Fin ne → EdgeChallenger ne) (e₀ : Fin ne) (ops : List (Op ne nc ET CT))
    (hsingle : Along (step env) (SingleEdge e₀) (start env edges blocks) ops)
    (hord : Along (step env) (Orderly env) (start env edges blocks) ops) :
    Always (step env) ScoredOnce (start env edges blocks) ops := by
  have hstart : ScoresInv env e₀ (start env edges blocks) :=
    ⟨Or.inl ⟨rfl,rfl,rfl⟩,fun r hr => (nomatch hr),fun ht => ht.elim (fun ha => nomatch ha)
      fun hp => absurd rfl hp,fun hp => absurd rfl hp⟩
  have hinv := always_of_step (I:=ScoresInv env e₀) (C:=fun s op => SingleEdge e₀ s op ∧
    Orderly env s op) (fun _ _ hI hC => hI.step hC.1 hC.2) hstart (along_and.mpr ⟨hsingle,hord⟩)
  exact hinv.mono fun _ hI => hI.closed

/-- The first challenge is answered in time; the second one times out, and its
answer comes late. -/
def sampleRun : List (Op 4 3 ℕ ℕ) :=
  [⟨0,.capabilityAdd sampleFirst⟩]++sampleChallenge 120++sampleAck 121++
    [samplePost 130 1 sampleAnswer]++sampleChallenge 240++sampleAck 241++
    [⟨281,.responseTimerExpires⟩,⟨281,.responseEvent⟩,samplePost 300 1 sampleAnswer]++
    sampleChallenge 360

/-- Both challenges of the sample run are scored once. -/
theorem scoredOnce_always_sample : Always (step sampleEnv) ScoredOnce sampleStart sampleRun :=
  scoredOnce_always sampleEnv (sampleStore challengeResponseApplicationName) sampleBlocks
    sampleFirst sampleRun (by decide) (by decide)

/-- The acknowledgement is delayed by ten seconds; the answer comes five
seconds late and stops the timer, so that the challenge is never scored. -/
theorem not_scoredOnce_of_late_answer :
    Along (step sampleEnv) (SingleEdge sampleFirst) sampleStart ([⟨0,.capabilityAdd sampleFirst⟩]++
        sampleChallenge 120++sampleAck 130++[samplePost 165 1 sampleAnswer]++
        sampleChallenge 240) ∧
      ¬Always (step sampleEnv) ScoredOnce sampleStart ([⟨0,.capabilityAdd sampleFirst⟩]++
        sampleChallenge 120++sampleAck 130++[samplePost 165 1 sampleAnswer]++
        sampleChallenge 240) := by
  decide

end Scores

end TrustAlloc.ChallengeResponse
