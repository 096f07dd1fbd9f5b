import TrustAlloc.CborCodec
import TrustAlloc.Stereotypes
import TrustAlloc.Timers
import TrustAlloc.TrustModels

/-!
# Asking for stereotypes

The process of `stereotypes.c` sends a request for the first of the requested
tags when it is polled and when its lock releases itself. The CoAP library
calls back later. A request that is finished polls the process again, so that
the next tags are asked for. A request that fails does not, and neither does
one that could not be sent.
-/

namespace TrustAlloc.StereotypeRequests

open Certificates Keystore Runs Stereotypes Timers TrustModels

/-- What the process is built against. -/
structure RequestEnv (n : ℕ) (D ET : Type) extends StereotypeEnv n D ET where
  /-- The CBOR emitter. -/
  nanocbor : Nanocbor
  /-- `CLOCK_SECOND`. -/
  clockSecond : ℕ

/-- The data of `stereotypes.c` with its surroundings. `pe_timed_unlock_unlocked`
is posted synchronously, so that no such event is ever pending. -/
structure State (n m : ℕ) (ET : Type) where
  /-- The two lists and their pool. -/
  store : StereotypeStore n ET
  /-- The data of `keystore.c`. -/
  keystore : Store m
  /-- `coap_callback_in_use`. -/
  coapCallbackInUse : TimedUnlock
  /-- Requests that the CoAP library has not finished with. -/
  inFlight : ℕ
  /-- Whether a poll of the process is pending. -/
  polled : Bool

variable {n m : ℕ} {D ET : Type}

/-- Size of `msg_buf`. -/
def msgBufSize : ℕ := 1+1+(1+1)

/-- `serialise_request`. -/
def serialiseRequest (env : RequestEnv n D ET) (enc : Encoder) (tags : StereotypeTags) :
    Encoder×ℤ :=
  let enc := enc.emit (env.nanocbor.arrayHead 2)
  let model := env.nanocbor.uintHead env.trustModelTag.toNat
  if env.nanocbor.result (enc.fits model)<0 then
    (enc.emit model,env.nanocbor.result (enc.fits model))
  else
    let (enc,result) := serialiseStereotypeTags env.nanocbor (enc.emit model) tags
    if result<0 then (enc,result) else (enc,0)

/-- A request for the tags fits `msg_buf`. -/
def Serialises (env : RequestEnv n D ET) (tags : StereotypeTags) : Prop :=
  (serialiseRequest env (nanocborEncoderInit msgBufSize) tags).2=0

/-- Serialising is decided by its result. -/
instance decidableSerialises (env : RequestEnv n D ET) (tags : StereotypeTags) :
    Decidable (Serialises env tags) := inferInstanceAs (Decidable (_=_))

/-- `stereotypes_send_request`; `coap_send_request` accepts the message or not. -/
def stereotypesSendRequest (env : RequestEnv n D ET) (now : ℕ) (accepted : Bool)
    (s : State n m ET) (tags : StereotypeTags) : State n m ET×Bool :=
  if s.coapCallbackInUse.locked=true then (s,false)
  else if ¬Serialises env tags then (s,false)
  else if accepted=true then ({s with
      coapCallbackInUse := timedUnlockLock now s.coapCallbackInUse
      inFlight := s.inFlight+1},true)
  else (s,false)

/-- The thread of the process when it is polled or its lock has released itself. -/
def stereotypeThread (env : RequestEnv n D ET) (now : ℕ) (accepted : Bool) (s : State n m ET) :
    State n m ET :=
  if s.coapCallbackInUse.locked=true then s
  else match s.store.stereotypesRequesting with
    | [] => s
    | i::_ => (stereotypesSendRequest env now accepted s (s.store.entry i).tags).1

/-- `send_callback`, with the code and the contents of a response. -/
def sendCallback (env : RequestEnv n D ET) (status : CoapRequestStatus) (code : ℕ)
    (r : Response ET) (s : State n m ET) : State n m ET :=
  match status with
  | .response =>
    if code=content205 then
      {s with store := processSterotypeResponse env.toStereotypeEnv s.store r}
    else s
  | .finished => {s with
      coapCallbackInUse := timedUnlockUnlock s.coapCallbackInUse
      polled := true}
  | .more | .timeout | .blockError =>
    {s with coapCallbackInUse := timedUnlockUnlock s.coapCallbackInUse}

/-- What happens to the process, in any order. -/
inductive Op (m : ℕ) (ET : Type) where
  /-- `stereotypes_request`. -/
  | request (tags : StereotypeTags)
  /-- A pending poll is delivered. -/
  | poll (now : ℕ) (accepted : Bool)
  /-- The timer of `coap_callback_in_use` expires. -/
  | coapExpires (now : ℕ) (accepted : Bool)
  /-- The CoAP library calls back. -/
  | callback (status : CoapRequestStatus) (code : ℕ) (r : Response ET)
  /-- The keystore changes. -/
  | keystore (k : Store m)

/-- Requests in flight after a callback: all but an interim one end a request. -/
def afterCallback (status : CoapRequestStatus) (inFlight : ℕ) : ℕ :=
  match status with
  | .response | .more => inFlight
  | .finished | .timeout | .blockError => inFlight-1

/-- One step. A poll that is not pending is not delivered, a timer that is not
due does not expire, and there is no callback without a request. -/
def step (env : RequestEnv n D ET) (s : State n m ET) : Op m ET → State n m ET
  | .request tags =>
    let (store,added) := stereotypesRequest env.toStereotypeEnv s.keystore s.store tags
    {s with store := store,polled := s.polled || added}
  | .poll now accepted =>
    if s.polled=true then stereotypeThread env now accepted {s with polled := false} else s
  | .coapExpires now accepted =>
    if s.coapCallbackInUse.timer.Expired now then stereotypeThread env now accepted
      {s with coapCallbackInUse := timedUnlockUnlock s.coapCallbackInUse}
    else s
  | .callback status code r =>
    if s.inFlight=0 then s
    else sendCallback env status code r {s with inFlight := afterCallback status s.inFlight}
  | .keystore k => {s with keystore := k}

/-- `stereotypes_init`. -/
def stereotypeStart (env : RequestEnv n D ET) (et : ET) (k : Store m) : State n m ET where
  store := stereotypesInit n et
  keystore := k
  coapCallbackInUse := timedUnlockInit (1*60*env.clockSecond)
  inFlight := 0
  polled := false

/-- Requested tags are going to be asked for again: a request is in flight
under the lock, or a poll is pending. -/
def NotStranded (s : State n m ET) : Prop :=
  s.store.stereotypesRequesting≠[] →
    (s.coapCallbackInUse.locked=true ∧ 0 < s.inFlight) ∨ s.polled=true

/-- The lock is taken only while a request is in flight. -/
def LockedInFlight (s : State n m ET) : Prop := s.coapCallbackInUse.locked=true → 0 < s.inFlight

/-- The first of the requested tags, if there are any, can be sent. -/
def HeadSent (env : RequestEnv n D ET) (accepted : Bool) (s : State n m ET) : Prop :=
  ∀ i∈s.store.stereotypesRequesting.head?, Serialises env (s.store.entry i).tags ∧ accepted=true

/-- What keeps requested tags from being stranded: a poll that finds the lock
free sends the first of them; so does a lock that releases itself, unless a
poll is pending; and a request fails only when nothing is requested any more or
a poll is pending. -/
def Rescheduled (env : RequestEnv n D ET) (s : State n m ET) : Op m ET → Prop
  | .poll _ accepted =>
    s.polled=true → s.coapCallbackInUse.locked=false → HeadSent env accepted s
  | .coapExpires now accepted =>
    s.coapCallbackInUse.timer.Expired now → s.polled=true ∨ HeadSent env accepted s
  | .callback status _ _ =>
    0 < s.inFlight → status=.more ∨ status=.timeout ∨ status=.blockError →
      s.polled=true ∨ s.store.stereotypesRequesting=[]
  | .request _ | .keystore _ => True

section Steps

variable (env : RequestEnv n D ET) {s : State n m ET}

/-- The thread leaves the list of requested tags and the pending poll alone. -/
theorem stereotypeThread_frame (now : ℕ) (accepted : Bool) (s : State n m ET) :
    (stereotypeThread env now accepted s).store=s.store ∧
      (stereotypeThread env now accepted s).polled=s.polled := by
  unfold stereotypeThread
  split
  · exact ⟨rfl,rfl⟩
  · split
    · exact ⟨rfl,rfl⟩
    · unfold stereotypesSendRequest
      split_ifs <;> exact ⟨rfl,rfl⟩

/-- The thread takes the lock for a request in flight, if it can send one. -/
theorem stereotypeThread_locked_iff (now : ℕ) (accepted : Bool)
    (hfree : s.coapCallbackInUse.locked=false) (hlist : s.store.stereotypesRequesting≠[]) :
    ((stereotypeThread env now accepted s).coapCallbackInUse.locked=true ∧
        0 < (stereotypeThread env now accepted s).inFlight) ↔ HeadSent env accepted s := by
  unfold stereotypeThread HeadSent
  rw [if_neg (by rw [hfree]; decide)]
  cases hrequesting : s.store.stereotypesRequesting with
  | nil => exact absurd hrequesting hlist
  | cons i rest =>
    simp only [List.head?_cons,Option.mem_some_iff,forall_eq']
    unfold stereotypesSendRequest
    rw [if_neg (by rw [hfree]; decide)]
    by_cases hserialises : Serialises env (s.store.entry i).tags
    · rw [if_neg (not_not.mpr hserialises)]
      by_cases haccepted : accepted=true
      · rw [if_pos haccepted]
        exact iff_of_true ⟨rfl,Nat.succ_pos _⟩ ⟨hserialises,haccepted⟩
      · rw [if_neg haccepted]
        exact iff_of_false (fun h => by rw [hfree] at h; cases h.1) fun h => haccepted h.2
    · rw [if_pos hserialises]
      exact iff_of_false (fun h => by rw [hfree] at h; cases h.1) fun h => hserialises h.1

/-- The thread strands nothing if a poll is pending or it can send a request. -/
theorem notStranded_thread_iff (now : ℕ) (accepted : Bool)
    (hfree : s.coapCallbackInUse.locked=false) :
    NotStranded (stereotypeThread env now accepted s) ↔
      s.polled=true ∨ HeadSent env accepted s := by
  obtain ⟨hstore,hpolled⟩ := stereotypeThread_frame env now accepted s
  unfold NotStranded
  rw [hstore,hpolled]
  by_cases hlist : s.store.stereotypesRequesting=[]
  · refine iff_of_true (fun hne => absurd hlist hne) (Or.inr fun i hi => ?_)
    rw [hlist] at hi
    cases hi
  · rw [stereotypeThread_locked_iff env now accepted hfree hlist,or_comm]
    exact ⟨fun h => h hlist,fun h _ => h⟩

/-- The thread takes the lock only for a request in flight. -/
theorem lockedInFlight_thread (now : ℕ) (accepted : Bool) (h : LockedInFlight s) :
    LockedInFlight (stereotypeThread env now accepted s) := by
  unfold stereotypeThread
  split
  · exact h
  · split
    · exact h
    · unfold stereotypesSendRequest
      split
      · exact h
      · split
        · exact h
        · split
          · exact fun _ => Nat.succ_pos _
          · exact h

/-- Every step keeps the lock to requests in flight. -/
theorem lockedInFlight_step (h : LockedInFlight s) (op : Op m ET) :
    LockedInFlight (step env s op) := by
  cases op with
  | request tags => exact h
  | poll now accepted =>
    dsimp only [step]
    split
    · exact lockedInFlight_thread env now accepted (s:={s with polled := false}) h
    · exact h
  | coapExpires now accepted =>
    dsimp only [step]
    split
    · exact lockedInFlight_thread env now accepted fun hl => nomatch hl
    · exact h
  | callback status code r =>
    dsimp only [step]
    split
    · exact h
    · cases status with
      | response =>
        dsimp only [sendCallback]
        split <;> exact h
      | finished | more | timeout | blockError => exact fun hl => nomatch hl
  | keystore k => exact h

/-- A response requests nothing more. -/
theorem requesting_response (s : StereotypeStore n ET) (r : Response ET)
    (h : s.stereotypesRequesting=[]) :
    (processSterotypeResponse env.toStereotypeEnv s r).stereotypesRequesting=[] := by
  rcases processSterotypeResponse_cases env.toStereotypeEnv s r with hr | ⟨_,i,_,hi,_,_⟩
  · rw [hr,h]
  · rw [h] at hi
    cases hi

/-- A request strands nothing: it polls the process when it adds tags. -/
theorem notStranded_request (h : NotStranded s) (tags : StereotypeTags) :
    NotStranded (step env s (.request tags)) := by
  rcases stereotypesRequest_cases env.toStereotypeEnv s.keystore s.store tags with
    ⟨_,hr⟩ | ⟨_,⟨_,_,hr⟩ | ⟨_,_,hr⟩ | ⟨_,_,_,_,_,hr⟩⟩ <;> rw [step,hr]
  · simpa [NotStranded] using h
  · simpa [NotStranded] using h
  · exact fun _ => Or.inr (Bool.or_true _)
  · exact fun _ => Or.inr (Bool.or_true _)

/-- A callback strands nothing exactly if it is none of a request that fails
while something is requested and no poll is pending. -/
theorem notStranded_callback_iff (h : NotStranded s) (status : CoapRequestStatus) (code : ℕ)
    (r : Response ET) :
    NotStranded (step env s (.callback status code r)) ↔
      Rescheduled env s (.callback status code r) := by
  by_cases hnone : s.inFlight=0
  · rw [step,if_pos hnone]
    exact iff_of_true h fun hpos => absurd hnone hpos.ne'
  · rw [step,if_neg hnone]
    cases status with
    | response =>
      refine iff_of_true ?_ fun _ herror => by simp at herror
      dsimp only [sendCallback,afterCallback]
      split
      · exact fun hlist => h fun hempty => hlist (requesting_response env s.store r hempty)
      · exact h
    | finished => exact iff_of_true (fun _ => Or.inr rfl) fun _ herror => by simp at herror
    | more | timeout | blockError =>
      dsimp only [sendCallback]
      constructor
      · intro hstep _ _
        by_cases hlist : s.store.stereotypesRequesting=[]
        · exact Or.inr hlist
        · exact Or.inl ((hstep hlist).resolve_left fun hl => nomatch hl.1)
      · intro hsched hlist
        exact Or.inr ((hsched (Nat.pos_of_ne_zero hnone) (by simp)).resolve_right hlist)

/-- A step strands no requested tags exactly if it reschedules the process. -/
theorem notStranded_step_iff (hlocked : LockedInFlight s) (h : NotStranded s) (op : Op m ET) :
    NotStranded (step env s op) ↔ Rescheduled env s op := by
  cases op with
  | request tags => exact iff_of_true (notStranded_request env h tags) trivial
  | poll now accepted =>
    by_cases hpolled : s.polled=true
    · rw [step,if_pos hpolled]
      by_cases hlock : s.coapCallbackInUse.locked=true
      · refine iff_of_true (fun _ => Or.inl ?_) fun _ hfree => by rw [hlock] at hfree; cases hfree
        rw [stereotypeThread,if_pos hlock]
        exact ⟨hlock,hlocked hlock⟩
      · have hfree := Bool.eq_false_iff.mpr hlock
        rw [notStranded_thread_iff env now accepted (s:={s with polled := false}) hfree]
        exact ⟨fun hsent _ _ => hsent.resolve_left fun hp => (nomatch hp),
          fun hsched => Or.inr (hsched hpolled hfree)⟩
    · rw [step,if_neg hpolled]
      exact iff_of_true h fun hp => absurd hp hpolled
  | coapExpires now accepted =>
    by_cases hexpired : s.coapCallbackInUse.timer.Expired now
    · rw [step,if_pos hexpired,notStranded_thread_iff env now accepted rfl]
      exact ⟨fun hsent _ => hsent,fun hsched => hsched hexpired⟩
    · rw [step,if_neg hexpired]
      exact iff_of_true h fun he => absurd he hexpired
  | callback status code r => exact notStranded_callback_iff env h status code r
  | keystore k => exact iff_of_true h trivial

end Steps

/-- **No requested tags are stranded**, in any state of a run, if and only if
every step of the run reschedules the process. -/
theorem notStranded_always_iff (env : RequestEnv n D ET) (et : ET) (k : Store m)
    (ops : List (Op m ET)) :
    Always (step env) NotStranded (stereotypeStart env et k) ops ↔
      Along (step env) (Rescheduled env) (stereotypeStart env et k) ops :=
  always_iff_along (I:=LockedInFlight) (A:=fun _ _ => True)
    (fun _ op hI _ => lockedInFlight_step env hI op)
    (fun _ op hI hP _ => notStranded_step_iff env hI hP op)
    (fun hl => (nomatch hl)) (fun hne => absurd rfl hne) (along_of_forall fun _ _ => trivial)

section Sample

/-- Five stereotypes of the model with tag 1, which has one byte for an edge. -/
def sampleRequestEnv : RequestEnv 5 CborCodec.Position UInt8 where
  allocator := Pools.firstFit 5
  cbor := CborCodec.byteDecoder.toPublishDecoder
  trustModelTag := 1
  deserialiseTrustEdgeResource dec _ := Decoding.nanocborCheck (CborCodec.byteDecoder.getUint8 dec)
  nanocbor := CborCodec.standardNanocbor.toNanocbor
  clockSecond := 128

/-- Tags are requested, the request is sent, and it times out. -/
def sampleTimeout : List (Op 2 UInt8) :=
  [.request ⟨6⟩,.poll 0 true,.callback .timeout 0 ⟨none,[],0⟩]

/-- Nothing asks for the tags again after that. -/
theorem stranded_after_timeout :
    ¬Always (step sampleRequestEnv) NotStranded
      (stereotypeStart sampleRequestEnv 0 (emptyStore 2)) sampleTimeout := by
  intro h
  have hlast := h.last
  revert hlast
  unfold NotStranded
  decide

end Sample

end TrustAlloc.StereotypeRequests
