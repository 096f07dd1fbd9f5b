import TrustAlloc.ChallengeResponse
import TrustAlloc.Runs

/-!
# The cursor and the timer of the challenge-response application

Two properties of whole runs. The cursor stays on a listed challenger exactly
when the only challenger is never removed while the cursor is on it. A message
from another edge leaves the timeout of the challenged edge alone exactly when
its sender has no challenger.
-/

namespace TrustAlloc.ChallengeResponse

open EdgeInfo Pools Runs Timers TrustModels

variable {ne nc : ℕ} {ET CT D : Type} {env : Env ne ET CT D} {s : State ne nc ET CT}

section Cursor

/-- The cursor is null or listed, the used blocks are exactly the listed
challengers, each once, and no two of them are for one edge. -/
structure CursorValid (s : State ne nc ET CT) : Prop where
  /-- The cursor points to a listed challenger. -/
  cursor : ∀ c∈s.nextChallenge,c∈s.challengers
  /-- The used blocks are the listed challengers. -/
  owns : Owns s.challengersMemb.used s.challengers
  /-- The challenged edges are distinct. -/
  distinct : ∀ c∈s.challengers,∀ d∈s.challengers,
    (s.challenger c).edge=(s.challenger d).edge → c=d

/-- A challenger that is found is listed and is for the edge. -/
theorem mem_of_findEdgeChallenger {e c : Fin ne} (h : findEdgeChallenger s e=some c) :
    c∈s.challengers ∧ (s.challenger c).edge=e :=
  ⟨List.mem_of_find?_eq_some h,by simpa using List.find?_some h⟩

/-- When no challenger is found, none that is listed is for the edge. -/
theorem edge_ne_of_findEdgeChallenger {e : Fin ne} (h : findEdgeChallenger s e=none) :
    ∀ c∈s.challengers,(s.challenger c).edge≠e := fun c hc => by
  simpa using List.find?_eq_none.mp h c hc

/-- Validity depends on the cursor, the list, the used blocks and their edges. -/
theorem CursorValid.congr {s' : State ne nc ET CT} (h : CursorValid s)
    (hcursor : s'.nextChallenge=s.nextChallenge) (hlist : s'.challengers=s.challengers)
    (hused : s'.challengersMemb.used=s.challengersMemb.used)
    (hedge : ∀ c,(s'.challenger c).edge=(s.challenger c).edge) : CursorValid s' where
  cursor := by
    rw [hcursor,hlist]
    exact h.cursor
  owns := by
    rw [hused,hlist]
    exact h.owns
  distinct := by
    simp only [hlist,hedge]
    exact h.distinct

/-- Changing a challenger that stays with its edge keeps validity. -/
theorem CursorValid.setChallenger (h : CursorValid s) {c : Fin ne} {v : EdgeChallenger ne}
    (hv : v.edge=(s.challenger c).edge) : CursorValid (s.setChallenger c v) := by
  refine h.congr rfl rfl rfl fun d => ?_
  by_cases hd : d=c
  · subst hd
    exact (congrArg EdgeChallenger.edge (s.challengersMemb.set_mem_same d v)).trans hv
  · exact congrArg EdgeChallenger.edge (s.challengersMemb.set_mem_other v hd)

/-- Moving the cursor on keeps validity. -/
theorem CursorValid.moveToNextChallenge (h : CursorValid s) :
    CursorValid (moveToNextChallenge s) := by
  refine ⟨fun c hc => ?_,h.owns,h.distinct⟩
  rcases Option.or_eq_some_iff.mp hc with hnext | ⟨_,hhead⟩
  · obtain ⟨d,_,hd⟩ := Option.bind_eq_some_iff.mp hnext
    exact mem_of_listItemNext hd
  · exact List.mem_of_mem_head? hhead

/-- Reporting an outcome keeps validity. -/
theorem CursorValid.report (h : CursorValid s) (e : Fin ne) (info : ChallengeResponseInfo) :
    CursorValid (report env e info s) := h.congr rfl rfl rfl fun _ => rfl

/-- A callback keeps validity. -/
theorem CursorValid.sendCallback (h : CursorValid s) (now : ℕ) (status : CoapRequestStatus)
    (code age : ℕ) : CursorValid (sendCallback env now status code age s) := by
  have hnote : CursorValid (noteStatus env now status code age s) := by
    unfold noteStatus
    cases status with
    | response =>
      dsimp only
      split
      · exact h.congr rfl rfl rfl fun _ => rfl
      · exact h
    | finished | more | timeout | blockError => exact h.congr rfl rfl rfl fun _ => rfl
  unfold ChallengeResponse.sendCallback
  dsimp only
  split
  · exact hnote
  · exact hnote.report ..

/-- A timeout keeps validity. -/
theorem CursorValid.challengeResponseTimedOut (h : CursorValid s) :
    CursorValid (challengeResponseTimedOut env s) := by
  unfold ChallengeResponse.challengeResponseTimedOut
  split
  · exact h
  · dsimp only
    split
    · exact (h.report _ _).setChallenger rfl
    · exact h

/-- Sending a challenge keeps validity. -/
theorem CursorValid.periodicAction (h : CursorValid s) (now : ℕ) (data : Vector UInt8 32)
    (accepted : Bool) : CursorValid (periodicAction env now data accepted s) := by
  unfold ChallengeResponse.periodicAction
  split
  · exact h
  · dsimp only
    split
    · exact h.moveToNextChallenge
    · split
      · exact h.moveToNextChallenge.setChallenger rfl
      · next c _ _ =>
        have hset : CursorValid ((ChallengeResponse.moveToNextChallenge s).setChallenger c
            {s.challenger c with
              ch := generateChallenge data env.challengeDifficulty env.challengeDuration
              generated := now}) := h.moveToNextChallenge.setChallenger rfl
        split <;> exact hset.congr rfl rfl rfl fun _ => rfl

/-- A message keeps validity. -/
theorem CursorValid.resCoapCrPostHandler (h : CursorValid s) (received : ℕ) (p : Post) :
    CursorValid (resCoapCrPostHandler env received p s) := by
  unfold ChallengeResponse.resCoapCrPostHandler
  split
  · exact h
  · split
    · exact h.report ..
    · next c _ =>
      have hset : CursorValid (s.setChallenger c {s.challenger c with received := received}) :=
        h.setChallenger rfl
      exact hset.congr rfl rfl rfl fun _ => rfl

/-- A challenger for an edge without one, in a free block, keeps validity. -/
theorem CursorValid.link (h : CursorValid s) {e c : Fin ne}
    (he : ∀ d∈s.challengers,(s.challenger d).edge≠e) (hc : s.challengersMemb.used c=false) :
    CursorValid (linkChallenger e c s) := by
  have hnew := h.owns.not_mem hc
  have hsame : ((linkChallenger e c s).challenger c).edge=e :=
    congrArg EdgeChallenger.edge ((s.challengersMemb.take c).set_mem_same c _)
  have hold : ∀ d∈s.challengers,(linkChallenger e c s).challenger d=s.challenger d :=
    fun d hd => (s.challengersMemb.take c).set_mem_other _ fun heq => hnew (heq ▸ hd)
  have hlist : (linkChallenger e c s).challengers=c::s.challengers := listPush_of_not_mem hnew
  refine ⟨fun d hd => ?_,?_,?_⟩
  · rw [hlist]
    exact List.mem_cons_of_mem c (h.cursor d hd)
  · rw [hlist]
    exact h.owns.take hc
  · rw [hlist]
    intro d hd d' hd' heq
    rcases List.mem_cons.mp hd with rfl | hm <;> rcases List.mem_cons.mp hd' with rfl | hm'
    · rfl
    · rw [hsame,hold d' hm'] at heq
      exact absurd heq.symm (he d' hm')
    · rw [hsame,hold d hm] at heq
      exact absurd heq (he d hm)
    · rw [hold d hm,hold d' hm'] at heq
      exact h.distinct d hm d' hm' heq

/-- A capability that is added keeps validity. -/
theorem CursorValid.edgeCapabilityAdd (h : CursorValid s) (now : ℕ) (e : Fin ne) :
    CursorValid (edgeCapabilityAdd env now e s) := by
  have hnote : CursorValid (noteAdd env now s) := h.congr rfl rfl rfl fun _ => rfl
  unfold ChallengeResponse.edgeCapabilityAdd
  dsimp only
  split
  · exact hnote
  · next hnone =>
    split
    · exact hnote
    · next c hc =>
      have hlink := hnote.link (edge_ne_of_findEdgeChallenger hnone)
        (env.challengerAllocator.pick_free hc)
      split
      · exact hlink.moveToNextChallenge
      · exact hlink

/-- The challenger of the edge, if it is the only one, does not carry the cursor. -/
def CursorElsewhere (s : State ne nc ET CT) (e : Fin ne) : Prop :=
  ∀ c∈findEdgeChallenger s e,s.challengers=[c] → s.nextChallenge≠some c

/-- Freeing a listed challenger keeps validity exactly when the cursor is left
on one that is still listed. -/
theorem cursorValid_unlinkChallenger_iff (h : CursorValid s) {c : Fin ne}
    (hc : c∈s.challengers) :
    CursorValid (unlinkChallenger c s) ↔ ∀ d∈s.nextChallenge,d∈s.challengers.erase c := by
  refine ⟨fun hv => hv.cursor,fun hd => ⟨hd,h.owns.free hc,fun d hm d' hm' => ?_⟩⟩
  exact h.distinct d (List.mem_of_mem_erase hm) d' (List.mem_of_mem_erase hm')

/-- Removing a challenger keeps validity exactly when it is not the only one
with the cursor on it. -/
theorem cursorValid_edgeCapabilityRemove_iff (h : CursorValid s) (e : Fin ne) :
    CursorValid (edgeCapabilityRemove e s) ↔ CursorElsewhere s e := by
  have hnote : CursorValid (noteRemove s) := h.congr rfl rfl rfl fun _ => rfl
  have hfind : findEdgeChallenger (noteRemove s) e=findEdgeChallenger s e := rfl
  unfold edgeCapabilityRemove CursorElsewhere
  dsimp only
  rw [hfind]
  cases hc : findEdgeChallenger s e with
  | none => exact iff_of_true hnote fun c hc' => nomatch hc'
  | some c =>
    obtain ⟨hm,_⟩ := mem_of_findEdgeChallenger hc
    dsimp only
    by_cases hcur : (noteRemove s).nextChallenge=some c
    · rw [if_pos hcur]
      have hvalid := cursorValid_unlinkChallenger_iff hnote.moveToNextChallenge hm
      have hcursor : (moveToNextChallenge (noteRemove s)).nextChallenge=
          (listItemNext s.challengers c).or s.challengers.head? := by
        change (((noteRemove s).nextChallenge.bind _).or _)=_
        rw [hcur]
        rfl
      rw [hvalid,hcursor]
      refine (mem_erase_of_next h.owns.nodup hm).trans
        ⟨fun hl c' hc' hl' => ?_,fun hno hl => hno c rfl hl hcur⟩
      cases hc'
      exact absurd hl' hl
    · rw [if_neg hcur,cursorValid_unlinkChallenger_iff hnote hm]
      refine iff_of_true (fun d hd => ?_) fun c' hc' _ => ?_
      · exact (h.owns.nodup.mem_erase_iff).mpr ⟨fun he => hcur (he ▸ hd),h.cursor d hd⟩
      · cases hc'
        exact hcur

/-- The step does not remove the only challenger while the cursor is on it. -/
def CursorSpared (s : State ne nc ET CT) (op : Op ne nc ET CT) : Prop :=
  match op.action with
  | .capabilityRemove e => CursorElsewhere s e
  | _ => True

/-- In a valid state an action keeps validity exactly when it spares the cursor. -/
theorem cursorValid_act_iff (h : CursorValid s) (now : ℕ) (action : Action ne nc ET CT) :
    CursorValid (act env now s action) ↔ CursorSpared s ⟨now,action⟩ := by
  unfold act CursorSpared
  cases action with
  | capabilityAdd e => exact iff_of_true (h.edgeCapabilityAdd now e) trivial
  | capabilityRemove e => exact cursorValid_edgeCapabilityRemove_iff h e
  | challengeTimerExpires =>
    refine iff_of_true ?_ trivial
    dsimp only
    split
    · exact h.congr rfl rfl rfl fun _ => rfl
    · exact h
  | responseTimerExpires =>
    refine iff_of_true ?_ trivial
    dsimp only
    split
    · exact h.congr rfl rfl rfl fun _ => rfl
    · exact h
  | challengeEvent data accepted =>
    refine iff_of_true ?_ trivial
    dsimp only
    split
    · exact h
    · have hevent : CursorValid {s with challengePending := s.challengePending-1} :=
        h.congr rfl rfl rfl fun _ => rfl
      exact (hevent.periodicAction now data accepted).congr rfl rfl rfl fun _ => rfl
  | responseEvent =>
    refine iff_of_true ?_ trivial
    dsimp only
    split
    · exact h
    · have hevent : CursorValid {s with responsePending := s.responsePending-1} :=
        h.congr rfl rfl rfl fun _ => rfl
      exact hevent.challengeResponseTimedOut
  | callback status code age => exact iff_of_true (h.sendCallback now status code age) trivial
  | post p => exact iff_of_true (h.resCoapCrPostHandler now p) trivial
  | coapExpires =>
    refine iff_of_true ?_ trivial
    dsimp only
    split
    · exact h.congr rfl rfl rfl fun _ => rfl
    · exact h
  | edges edges => exact iff_of_true (h.congr rfl rfl rfl fun _ => rfl) trivial

/-- In a valid state a step keeps validity exactly when it spares the cursor. -/
theorem cursorValid_step_iff (h : CursorValid s) (op : Op ne nc ET CT) :
    CursorValid (step env s op) ↔ CursorSpared s op := by
  have htick : CursorValid {s with clock := op.now} := h.congr rfl rfl rfl fun _ => rfl
  exact cursorValid_act_iff htick op.now op.action

/-- **Cursor over a whole run.** In every reachable state the cursor is null
or listed and the used blocks are the listed challengers with distinct edges,
exactly when the only challenger is never removed while the cursor is on it. -/
theorem cursorValid_always_iff (env : Env ne ET CT D) (edges : EdgeStore ne nc ET CT)
    (blocks : Fin ne → EdgeChallenger ne) (ops : List (Op ne nc ET CT)) :
    Always (step env) CursorValid (start env edges blocks) ops ↔
      Along (step env) CursorSpared (start env edges blocks) ops := by
  have hstart : CursorValid (start env edges blocks) :=
    ⟨fun c hc => (nomatch hc),⟨List.nodup_nil,fun c => by simp [start]⟩,fun c hc => nomatch hc⟩
  exact always_iff_along_of_step (fun _ op h => cursorValid_step_iff h op) hstart

/-- The only edge is added and removed again, which leaves the cursor on its
freed challenger. -/
theorem not_cursorValid_of_last_removed :
    ¬Always (step sampleEnv) CursorValid sampleStart
      [⟨1,.capabilityAdd sampleFirst⟩,⟨2,.capabilityRemove sampleFirst⟩] := by
  intro h
  have hcursor := h.last.cursor 0 (by decide)
  exact absurd hcursor (by decide)

end Cursor

section Timeout

/-- The response timer is armed for the challenger under the cursor, which is
not the only one, and the message is not from its edge. -/
def FromOther (s : State ne nc ET CT) (p : Post) (a : Fin ne) : Prop :=
  s.nextChallenge=some a ∧ s.challengeResponseTimer.active=true ∧ 2 ≤ s.challengers.length ∧
    p.src≠(s.edges.edge (s.challenger a).edge).ep

/-- Whether a message is from another edge is decided by the state. -/
instance decidableFromOther (s : State ne nc ET CT) (p : Post) (a : Fin ne) :
    Decidable (FromOther s p a) := inferInstanceAs (Decidable (_ ∧ _ ∧ _ ∧ _))

/-- A message from another edge leaves the response timer armed with the same
expiry, and the entry of the challenged edge unchanged. -/
def TimeoutKept (env : Env ne ET CT D) (s : State ne nc ET CT) (op : Op ne nc ET CT) : Prop :=
  match op.action with
  | .post p => ∀ a,FromOther s p a →
      (step env s op).challengeResponseTimer=s.challengeResponseTimer ∧
        (step env s op).challenger a=s.challenger a
  | _ => True

/-- The sender of a message, if it is an edge that is known, has no challenger. -/
def SenderUnlisted (s : State ne nc ET CT) (p : Post) : Prop :=
  ∀ e∈edgeInfoFindAddr s.edges p.src,findEdgeChallenger s e=none

/-- Messages from other edges come from edges without a challenger. -/
def OthersUnlisted (s : State ne nc ET CT) (op : Op ne nc ET CT) : Prop :=
  match op.action with
  | .post p => ∀ a,FromOther s p a → SenderUnlisted s p
  | _ => True

/-- A message leaves timer and entry alone when its sender has no challenger,
and else it stops the timer. -/
theorem resCoapCrPostHandler_cases (env : Env ne ET CT D) (received : ℕ) (p : Post)
    (s : State ne nc ET CT) :
    (SenderUnlisted s p ∧
      (resCoapCrPostHandler env received p s).challengeResponseTimer=s.challengeResponseTimer ∧
      (resCoapCrPostHandler env received p s).challengersMemb=s.challengersMemb) ∨
    (¬SenderUnlisted s p ∧
      (resCoapCrPostHandler env received p s).challengeResponseTimer.active=false) := by
  unfold resCoapCrPostHandler SenderUnlisted
  cases he : edgeInfoFindAddr s.edges p.src with
  | none => exact Or.inl ⟨fun e hm => (nomatch hm),rfl,rfl⟩
  | some e =>
    dsimp only
    cases hc : findEdgeChallenger s e with
    | none =>
      refine Or.inl ⟨fun e' hm => ?_,rfl,rfl⟩
      cases hm
      exact hc
    | some c =>
      refine Or.inr ⟨fun h => ?_,rfl⟩
      have hnone := h e rfl
      rw [hc] at hnone
      cases hnone

/-- **One edge and the timeout of another.** Along a run, no message from
another edge touches the armed response timer or the entry of the challenged
edge, exactly when all such messages come from edges without a challenger. -/
theorem timeoutKept_along_iff (env : Env ne ET CT D) (edges : EdgeStore ne nc ET CT)
    (blocks : Fin ne → EdgeChallenger ne) (ops : List (Op ne nc ET CT)) :
    Along (step env) (TimeoutKept env) (start env edges blocks) ops ↔
      Along (step env) OthersUnlisted (start env edges blocks) ops := by
  refine along_congr_of_forall fun s op => ?_
  obtain ⟨now,action⟩ := op
  unfold TimeoutKept OthersUnlisted
  cases action with
  | post p =>
    refine forall_congr' fun a => forall_congr' fun hother => ?_
    rcases resCoapCrPostHandler_cases env now p {s with clock := now} with
      ⟨hun,htimer,hmemb⟩ | ⟨hlisted,hstop⟩
    · exact iff_of_true ⟨htimer,congrArg (fun m => Memb.mem m a) hmemb⟩ hun
    · refine iff_of_false (fun h => ?_) hlisted
      have hactive := hother.2.1
      rw [←h.1] at hactive
      cases hactive.symm.trans hstop
  | capabilityAdd e => exact Iff.rfl
  | capabilityRemove e => exact Iff.rfl
  | challengeTimerExpires => exact Iff.rfl
  | responseTimerExpires => exact Iff.rfl
  | challengeEvent data accepted => exact Iff.rfl
  | responseEvent => exact Iff.rfl
  | callback status code age => exact Iff.rfl
  | coapExpires => exact Iff.rfl
  | edges edges => exact Iff.rfl

/-- Both edges are challengers; while the edge with the address of twos is to
answer, a message with an empty payload from the other one stops the timer. -/
theorem not_timeoutKept_of_other_edge :
    ¬Along (step sampleEnv) (TimeoutKept sampleEnv) sampleStart
      ([⟨0,.capabilityAdd sampleFirst⟩,⟨0,.capabilityAdd sampleSecond⟩]++sampleChallenge 120++
        sampleAck 121++[samplePost 122 1 []]) := by
  rintro ⟨_,_,_,_,_,_,hkept,_⟩
  have htimer := (hkept 1 (by decide)).1
  exact absurd htimer (by decide)

end Timeout

end TrustAlloc.ChallengeResponse
