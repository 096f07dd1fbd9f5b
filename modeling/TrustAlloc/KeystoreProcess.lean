import TrustAlloc.KeystoreSubjects

/-!
# The keystore process and the certificates it makes usable

The process waits for polls and for verdicts that the verifier posts. A
verdict about a good signature publishes the item, pins it and runs the ECDH
child, which consumes every event that arrives until it ends. Other processes
add and remove certificates at any time in between. A certificate becomes
usable only after the root's signature over its current contents was
verified, because the shared buffer and the item under verification are left
alone for as long as an entry is with the verifier.
-/

namespace TrustAlloc.Keystore

open Certificates Pools Runs

variable {n : ℕ} {E : Env n} {k : Store n}

/-- The store, the ECDH child and the events under way to the process. -/
structure ProcessState (n : ℕ) where
  /-- Static data of the keystore. -/
  store : Store n
  /-- Item whose ECDH child is running, if the process is inside one. -/
  ecdh : Option (Fin n)
  /-- Posted `pe_message_verified` events, oldest first, with the results. -/
  posted : List (VerifyEntry n × UInt8)

/-- What can happen next, in any order. -/
inductive Event (n : ℕ) where
  /-- Another process calls `keystore_add`. -/
  | add (cert : Certificate)
  /-- Another process calls `keystore_remove`. -/
  | remove (item : Fin n)
  /-- Another process pins a key. -/
  | pin (item : Fin n)
  /-- Another process unpins a key. -/
  | unpin (item : Fin n)
  /-- The verifier stores a result in an entry and posts it. -/
  | verified (entry : VerifyEntry n) (result : UInt8)
  /-- The pending poll is delivered, with or without room at the verifier. -/
  | poll (queued : Bool)
  /-- The oldest posted event is delivered. -/
  | deliver
  /-- The ECDH child ends. -/
  | ecdhDone (success : Bool) (secret : List UInt8)

/-- The branch of the process for a delivered verdict. -/
def onVerified (E : Env n) (s : ProcessState n) (entry : VerifyEntry n) (result : UInt8)
    (rest : List (VerifyEntry n × UInt8)) : ProcessState n :=
  match (keystoreAddContinued E s.store entry result).2 with
  | some pkitem =>
    ⟨keystorePin (keystoreAddContinued E s.store entry result).1 pkitem,some pkitem,rest⟩
  | none => ⟨{(keystoreAddContinued E s.store entry result).1 with polled := true},none,rest⟩

/-- The end of that branch, once the child has ended. -/
def onEcdhDone (E : Env n) (s : ProcessState n) (pkitem : Fin n) (success : Bool)
    (secret : List UInt8) : ProcessState n :=
  let store := if success=true then generateSharedSecret E s.store pkitem secret else s.store
  ⟨{keystoreUnpin store pkitem with polled := true},none,s.posted⟩

/-- One event of the process or of its surroundings. -/
def processStep (E : Env n) (s : ProcessState n) : Event n → ProcessState n
  | .add cert => {s with store := (keystoreAdd E s.store cert).1}
  | .remove item => {s with store := (keystoreRemove E s.store item).1}
  | .pin item => {s with store := keystorePin s.store item}
  | .unpin item => {s with store := keystoreUnpin s.store item}
  | .verified entry result => {s with posted := s.posted++[(entry,result)]}
  | .poll queued =>
    match s.ecdh with
    -- the child yields on every event, so a poll that reaches it is spent
    | some _ => {s with store := {s.store with polled := false}}
    | none => {s with store := keystoreAddStart E {s.store with polled := false} queued}
  | .deliver =>
    match s.posted,s.ecdh with
    | [],_ => s
    | _::rest,some _ => {s with posted := rest}
    | (entry,result)::rest,none => onVerified E s entry result rest
  | .ecdhDone success secret =>
    match s.ecdh with
    | none => s
    | some pkitem => onEcdhDone E s pkitem success secret

/-- The process after `keystore_init`. -/
def processInit (E : Env n) : ProcessState n := ⟨keystoreInit E,none,[]⟩

/-- Which events can happen: the verifier reports an entry it holds, at most
once, and reports success only for a valid signature over the bytes and under
the key that were queued; polls are delivered only when pending. -/
def ProcessAdmitted (E : Env n) (verifies : PublicKey → List UInt8 → Bool)
    (s : ProcessState n) : Event n → Prop
  | .verified entry result => entry∈s.store.outstanding ∧ entry∉s.posted.map Prod.fst ∧
      (E.platformCryptoSuccess result=true → verifies entry.pubkey entry.message=true)
  | .poll _ => s.store.polled=true
  | .deliver => s.posted≠[]
  | .ecdhDone _ _ => s.ecdh≠none
  | _ => True

/-- Admission is decided by the current state. -/
instance decidableProcessAdmitted (E : Env n) (verifies : PublicKey → List UInt8 → Bool)
    (s : ProcessState n) : ∀ ev, Decidable (ProcessAdmitted E verifies s ev)
  | .verified _ _ => inferInstanceAs (Decidable (_ ∧ _ ∧ (_ → _)))
  | .poll _ => inferInstanceAs (Decidable (s.store.polled=true))
  | .deliver => inferInstanceAs (Decidable (s.posted≠[]))
  | .ecdhDone _ _ => inferInstanceAs (Decidable (s.ecdh≠none))
  | .add _ | .remove _ | .pin _ | .unpin _ => .isTrue trivial

/-- The re-encoded signed bytes of a certificate and its signature are valid
under the root's public key. -/
def RootSigned (E : Env n) (verifies : PublicKey → List UInt8 → Bool) (c : Certificate) : Prop :=
  verifies E.rootCert.publicKey (tbsBytes E.nanocbor c++c.signature.bytes)=true

/-- Every verified item holds a certificate that the root has signed. -/
def AllRootSigned (E : Env n) (verifies : PublicKey → List UInt8 → Bool) (k : Store n) : Prop :=
  ∀ i∈k.publicKeys, RootSigned E verifies (k.item i).cert

section Signed

variable {verifies : PublicKey → List UInt8 → Bool}

/-- Evictions keep only signed items. -/
theorem AllRootSigned.evicted {k' : Store n} (h : AllRootSigned E verifies k)
    (he : Evicted k k') : AllRootSigned E verifies k' := fun i hi => by
  rw [Store.item,he.mem]
  exact h i (he.publicKeys.subset hi)

/-- Rewriting an item in place with the same certificate keeps items signed. -/
theorem AllRootSigned.setItem (h : AllRootSigned E verifies k) (i : Fin n) {v : PublicKeyItem}
    (hv : v.cert=(k.item i).cert) : AllRootSigned E verifies (k.setItem i v) := fun j hj => by
  rw [setItem_cert i hv]
  exact h j hj

/-- `keystore_pin` keeps items signed. -/
theorem AllRootSigned.pin (h : AllRootSigned E verifies k) (i : Fin n) :
    AllRootSigned E verifies (keystorePin k i) := h.setItem i rfl

/-- `keystore_unpin` keeps items signed. -/
theorem AllRootSigned.unpin (h : AllRootSigned E verifies k) (i : Fin n) :
    AllRootSigned E verifies (keystoreUnpin k i) := h.setItem i rfl

/-- `generate_shared_secret` keeps items signed. -/
theorem AllRootSigned.sharedSecret (h : AllRootSigned E verifies k) (i : Fin n)
    (secret : List UInt8) : AllRootSigned E verifies (generateSharedSecret E k i secret) :=
  h.setItem i rfl

/-- A free block holds no verified item, so filling it keeps items signed. -/
theorem AllRootSigned.enqueue (h : AllRootSigned E verifies k)
    (hown : Owns k.memb.used k.listed) {i : Fin n} (hi : k.memb.used i=false)
    (cert : Certificate) : AllRootSigned E verifies (k.enqueue i cert) := fun j hj => by
  have hne : j≠i := hown.ne_of_mem (List.mem_append_left _ hj) hi
  rw [enqueue_item_other hne]
  exact h j hj

/-- `keystore_add` publishes nothing. -/
theorem AllRootSigned.add (h : AllRootSigned E verifies k) (hI : Inv E k) (cert : Certificate) :
    AllRootSigned E verifies (keystoreAdd E k cert).1 := by
  rcases keystoreAdd_cases E k cert hI.owns with ⟨_,ha⟩ | ⟨_,_,hev,_⟩ | ⟨_,_,k',i,hev,hi,ha⟩
  · rw [ha]
    exact h
  · exact h.evicted hev
  · rw [ha]
    exact (h.evicted hev).enqueue (hev.owns hI.owns) hi cert

/-- `keystore_add_start` publishes nothing. -/
theorem AllRootSigned.addStart (h : AllRootSigned E verifies k) (queued : Bool) :
    AllRootSigned E verifies (keystoreAddStart E k queued) := by
  rcases keystoreAddStart_cases E k queued with hk | ⟨_,i,rest,buffer,_,hk⟩ |
    ⟨_,i,rest,_,_,_,hk⟩ <;> rw [hk] <;> exact h

/-- `keystore_add_continued` publishes only the item whose queued bytes were
verified, and those are the bytes its certificate encodes to now. -/
theorem AllRootSigned.addContinued (h : AllRootSigned E verifies k) (hI : Inv E k)
    {e : VerifyEntry n} (he : e∈k.outstanding) {result : UInt8}
    (hres : E.platformCryptoSuccess result=true → verifies e.pubkey e.message=true) :
    AllRootSigned E verifies (keystoreAddContinued E k e result).1 := by
  have hheld := (hI.entry he).2.2
  unfold keystoreAddContinued
  split
  · next hok =>
    have hver := hres hok
    rw [hheld.pubkey,hheld.message] at hver
    intro i hi
    change i∈listPush k.publicKeys e.data at hi
    rw [listPush_of_not_mem (hI.not_verified hheld.waiting)] at hi
    rcases List.mem_cons.mp hi with rfl | hold
    · change RootSigned E verifies (k.item e.data).cert
      rw [hheld.cert]
      exact hver
    · exact h i hold
  · exact h

end Signed

/-- The invariant of the process: the store's own, signed items only, and
posted results that are about distinct entries with the verifier and valid. -/
structure ProcessInv (E : Env n) (verifies : PublicKey → List UInt8 → Bool)
    (s : ProcessState n) : Prop where
  /-- The invariant of the store. -/
  store : Inv E s.store
  /-- Only root-signed certificates are usable. -/
  signed : AllRootSigned E verifies s.store
  /-- No entry is posted twice. -/
  nodup : (s.posted.map Prod.fst).Nodup
  /-- Posted entries are still with the verifier. -/
  posted : ∀ p∈s.posted, p.1∈s.store.outstanding
  /-- Posted successes are about valid signatures. -/
  valid : ∀ p∈s.posted, E.platformCryptoSuccess p.2=true →
    verifies p.1.pubkey p.1.message=true

section Steps

variable {verifies : PublicKey → List UInt8 → Bool} {s : ProcessState n}

/-- A change of the store that keeps its invariant, its signed items and its
entries keeps the invariant of the process. -/
theorem ProcessInv.withStore (h : ProcessInv E verifies s) {k' : Store n} (hI : Inv E k')
    (hs : AllRootSigned E verifies k') (hsub : ∀ e∈s.store.outstanding, e∈k'.outstanding) :
    ProcessInv E verifies {s with store := k'} :=
  ⟨hI,hs,h.nodup,fun p hp => hsub _ (h.posted p hp),h.valid⟩

/-- `keystore_add` leaves the entries with the verifier alone. -/
theorem keystoreAdd_outstanding (hown : Owns k.memb.used k.listed) (cert : Certificate) :
    (keystoreAdd E k cert).1.outstanding=k.outstanding := by
  rcases keystoreAdd_cases E k cert hown with ⟨_,ha⟩ | ⟨_,_,hev,_⟩ | ⟨_,_,k',i,hev,_,ha⟩
  · rw [ha]
  · exact hev.outstanding
  · rw [ha]
    exact hev.outstanding

/-- `keystore_add_start` only ever adds to the entries with the verifier. -/
theorem mem_outstanding_addStart {e : VerifyEntry n} (he : e∈k.outstanding) (queued : Bool) :
    e∈(keystoreAddStart E k queued).outstanding := by
  rcases keystoreAddStart_cases E k queued with hk | ⟨_,i,rest,buffer,_,hk⟩ |
    ⟨_,i,rest,_,_,_,hk⟩ <;> rw [hk]
  · exact he
  · exact he
  · exact List.mem_append_left _ he

/-- A delivered verdict keeps the invariant: no other result can be posted. -/
theorem ProcessInv.onVerified (h : ProcessInv E verifies s) {entry : VerifyEntry n}
    {result : UInt8} {rest : List (VerifyEntry n × UInt8)}
    (hposted : s.posted=(entry,result)::rest) :
    ProcessInv E verifies (onVerified E s entry result rest) := by
  have hhead : (entry,result)∈s.posted := by
    rw [hposted]
    exact List.mem_cons_self
  have hout := h.posted _ hhead
  have hI := h.store.addContinued hout result
  have hs := h.signed.addContinued h.store hout (h.valid _ hhead)
  have hrest : rest=[] := by
    have hnd := h.nodup
    rw [hposted,List.map_cons,List.nodup_cons] at hnd
    refine List.eq_nil_iff_forall_not_mem.mpr fun p hp => hnd.1 ?_
    have hmem := h.posted p (by rw [hposted]; exact List.mem_cons_of_mem _ hp)
    rw [(h.store.entry hout).1,List.mem_singleton] at hmem
    exact hmem ▸ List.mem_map_of_mem hp
  subst hrest
  unfold Keystore.onVerified
  split
  · next pkitem _ =>
    exact ⟨hI.pin pkitem,hs.pin pkitem,List.nodup_nil,
      fun p hp => absurd hp List.not_mem_nil,fun p hp => absurd hp List.not_mem_nil⟩
  · exact ⟨hI.withPolled true,hs,List.nodup_nil,
      fun p hp => absurd hp List.not_mem_nil,fun p hp => absurd hp List.not_mem_nil⟩

/-- The end of the ECDH child keeps the invariant. -/
theorem ProcessInv.onEcdhDone (h : ProcessInv E verifies s) (pkitem : Fin n) (success : Bool)
    (secret : List UInt8) : ProcessInv E verifies (onEcdhDone E s pkitem success secret) := by
  cases success with
  | true =>
    have hI := (h.store.sharedSecret pkitem secret).unpin pkitem
    have hs := (h.signed.sharedSecret pkitem secret).unpin pkitem
    exact ⟨hI.withPolled true,hs,h.nodup,h.posted,h.valid⟩
  | false =>
    exact ⟨(h.store.unpin pkitem).withPolled true,h.signed.unpin pkitem,h.nodup,h.posted,h.valid⟩

/-- A new result keeps the invariant when it is the entry's first one. -/
theorem ProcessInv.onResult (h : ProcessInv E verifies s) {entry : VerifyEntry n} {result : UInt8}
    (hadm : ProcessAdmitted E verifies s (.verified entry result)) :
    ProcessInv E verifies (processStep E s (.verified entry result)) := by
  obtain ⟨hout,hnew,hver⟩ := hadm
  refine ⟨h.store,h.signed,?_,fun p hp => ?_,fun p hp => ?_⟩
  · change ((s.posted++[(entry,result)]).map Prod.fst).Nodup
    rw [List.map_append]
    exact h.nodup.append (List.nodup_singleton entry)
      (List.disjoint_singleton.mpr hnew)
  · rcases List.mem_append.mp hp with hold | hlast
    · exact h.posted p hold
    · rw [List.mem_singleton.mp hlast]
      exact hout
  · rcases List.mem_append.mp hp with hold | hlast
    · exact h.valid p hold
    · rw [List.mem_singleton.mp hlast]
      exact hver

/-- Every admitted event keeps the invariant. -/
theorem ProcessInv.step (h : ProcessInv E verifies s) {ev : Event n}
    (hev : ProcessAdmitted E verifies s ev) : ProcessInv E verifies (processStep E s ev) := by
  cases ev with
  | add cert =>
    exact h.withStore (h.store.add cert) (h.signed.add h.store cert) fun e he => by
      rwa [keystoreAdd_outstanding h.store.owns]
  | remove item =>
    have hr := keystoreRemove_evicted E s.store item
    exact h.withStore (h.store.evicted hr) (h.signed.evicted hr) fun e he => by
      rwa [hr.outstanding]
  | pin item =>
    exact h.withStore (h.store.pin item) (h.signed.pin item) fun _ he => he
  | unpin item =>
    exact h.withStore (h.store.unpin item) (h.signed.unpin item) fun _ he => he
  | verified entry result => exact h.onResult hev
  | poll queued =>
    have hI := h.store.withPolled false
    have hs : AllRootSigned E verifies {s.store with polled := false} := h.signed
    dsimp only [processStep]
    split
    · exact h.withStore hI hs fun _ he => he
    · exact h.withStore (hI.addStart queued) (hs.addStart queued) fun _ he =>
        mem_outstanding_addStart (k:={s.store with polled := false}) he queued
  | deliver =>
    dsimp only [processStep]
    split
    · exact h
    · next p rest _ hp _ =>
      have hnd := h.nodup
      rw [hp,List.map_cons,List.nodup_cons] at hnd
      have hsub : ∀ q∈rest, q∈s.posted := fun q hq => by
        rw [hp]
        exact List.mem_cons_of_mem p hq
      exact ⟨h.store,h.signed,hnd.2,fun q hq => h.posted q (hsub q hq),
        fun q hq => h.valid q (hsub q hq)⟩
    · next hp _ => exact h.onVerified hp
  | ecdhDone success secret =>
    dsimp only [processStep]
    split
    · exact h
    · next pkitem _ => exact h.onEcdhDone pkitem success secret

end Steps

/-- The invariant of the process holds after `keystore_init`. -/
theorem processInv_init (E : Env n) (verifies : PublicKey → List UInt8 → Bool) :
    ProcessInv E verifies (processInit E) := by
  have hempty : AllRootSigned E verifies (emptyStore n) := fun i hi => absurd hi List.not_mem_nil
  exact ⟨inv_keystoreInit E,hempty.add (inv_emptyStore E) E.rootCert,List.nodup_nil,
    fun p hp => absurd hp List.not_mem_nil,fun p hp => absurd hp List.not_mem_nil⟩

/-- The shared buffer is not written while an entry is with the verifier. -/
def BufferKept (E : Env n) (s : ProcessState n) (ev : Event n) : Prop :=
  s.store.outstanding≠[] → (processStep E s ev).store.addBuffer=s.store.addBuffer

/-- `keystore_add_start` does not write a buffer that is in use. -/
theorem addBuffer_addStart (huse : k.addBufferInUse=true) (queued : Bool) :
    (keystoreAddStart E k queued).addBuffer=k.addBuffer := by
  rw [keystoreAddStart,if_pos huse]

/-- `keystore_add` never writes the buffer. -/
theorem addBuffer_add (hown : Owns k.memb.used k.listed) (cert : Certificate) :
    (keystoreAdd E k cert).1.addBuffer=k.addBuffer := by
  rcases keystoreAdd_cases E k cert hown with ⟨_,ha⟩ | ⟨_,_,hev,_⟩ | ⟨_,_,k',i,hev,_,ha⟩
  · rw [ha]
  · exact hev.addBuffer
  · rw [ha]
    exact hev.addBuffer

/-- `keystore_add_continued` never writes the buffer. -/
theorem addBuffer_addContinued (entry : VerifyEntry n) (result : UInt8) :
    (keystoreAddContinued E k entry result).1.addBuffer=k.addBuffer := by
  unfold keystoreAddContinued
  split <;> rfl

/-- No event writes the buffer while an entry is with the verifier. -/
theorem ProcessInv.bufferKept {verifies : PublicKey → List UInt8 → Bool} {s : ProcessState n}
    (h : ProcessInv E verifies s) (ev : Event n) : BufferKept E s ev := by
  intro hout
  cases ev with
  | add cert => exact addBuffer_add h.store.owns cert
  | remove item => exact (keystoreRemove_evicted E s.store item).addBuffer
  | pin item => rfl
  | unpin item => rfl
  | verified entry result => rfl
  | poll queued =>
    obtain ⟨e,he⟩ := List.exists_mem_of_ne_nil _ hout
    have huse := (h.store.entry he).2.1
    dsimp only [processStep]
    split
    · rfl
    · exact addBuffer_addStart (k:={s.store with polled := false}) huse queued
  | deliver =>
    dsimp only [processStep]
    split
    · rfl
    · rfl
    · next entry result _ _ _ =>
      have hcont := addBuffer_addContinued (E:=E) (k:=s.store) entry result
      dsimp only [Keystore.onVerified]
      split <;> exact hcont
  | ecdhDone success secret =>
    dsimp only [processStep]
    split
    · rfl
    · cases success <;> rfl

/-- What the keystore process guarantees about usable certificates and about
the one that is being verified. -/
structure CertificatesSafe (E : Env n) (verifies : PublicKey → List UInt8 → Bool)
    (s : ProcessState n) : Prop where
  /-- Every usable certificate, as stored now, is signed by the root. -/
  signed : AllRootSigned E verifies s.store
  /-- The shared buffer serves at most one entry. -/
  single : s.store.outstanding.length≤1
  /-- The block under verification is allocated and not usable yet. -/
  allocated : ∀ e∈s.store.outstanding,
    s.store.memb.used e.data=true ∧ e.data∉s.store.publicKeys
  /-- That block and the buffer hold what was queued. -/
  held : ∀ e∈s.store.outstanding, EntryHeld E s.store e

/-- The invariant contains the guarantee. -/
theorem ProcessInv.safe {verifies : PublicKey → List UInt8 → Bool} {s : ProcessState n}
    (h : ProcessInv E verifies s) : CertificatesSafe E verifies s := by
  refine ⟨h.signed,?_,fun e he => ?_,fun e he => (h.store.entry he).2.2⟩
  · rcases h.store.outstanding with ⟨_,hnone⟩ | ⟨_,e,hone,_⟩
    · simp [hnone]
    · simp [hone]
  · have hwait := (h.store.entry he).2.2.waiting
    exact ⟨(h.store.owns.used_iff _).mpr (List.mem_append_right _ hwait),
      h.store.not_verified hwait⟩

/-- **Usable certificates over a whole run.** Whatever certificates are added
and removed and however verdicts, polls and the ECDH child interleave, in
every reachable state the usable certificates are signed by the root and the
one under verification is untouched, and no step rewrites its buffer. -/
theorem certificatesSafe_always (E : Env n) (verifies : PublicKey → List UInt8 → Bool)
    (events : List (Event n))
    (hevents : Along (processStep E) (ProcessAdmitted E verifies) (processInit E) events) :
    Always (processStep E) (CertificatesSafe E verifies) (processInit E) events ∧
      Along (processStep E) (BufferKept E) (processInit E) events := by
  have hinit := processInv_init E verifies
  constructor
  · exact (always_of_step (fun _ _ hI hA => hI.step hA) hinit hevents).mono fun _ hI => hI.safe
  · exact along_of_step (fun _ _ hI hA => hI.step hA) (fun _ ev hI _ => hI.bufferKept ev) hinit
      hevents

/-- A signature check that accepts messages ending like the key. -/
def sampleVerifies (key : PublicKey) (message : List UInt8) : Bool :=
  decide (message.getLast?=key.y.toList.getLast?)

/-- The root certificate's entry in the sample environment. -/
def sampleEntry : VerifyEntry 12 :=
  entryFor (sampleEnv 12) (keystoreInit (sampleEnv 12)) 0
    (filledBuffer (sampleEnv 12) (keystoreInit (sampleEnv 12)) 0)

/-- The root certificate is queued, verified and published, then its ECDH
child ends and another certificate is added. -/
theorem certificatesSafe_always_sample :
    Always (processStep (sampleEnv 12)) (CertificatesSafe (sampleEnv 12) sampleVerifies)
        (processInit (sampleEnv 12))
        [.poll true,.verified sampleEntry 0,.deliver,.ecdhDone true [7],
          .add (sampleCertificate 3)] ∧
      Along (processStep (sampleEnv 12)) (BufferKept (sampleEnv 12)) (processInit (sampleEnv 12))
        [.poll true,.verified sampleEntry 0,.deliver,.ecdhDone true [7],
          .add (sampleCertificate 3)] :=
  certificatesSafe_always (sampleEnv 12) sampleVerifies
    [.poll true,.verified sampleEntry 0,.deliver,.ecdhDone true [7],.add (sampleCertificate 3)]
    (by decide)

end TrustAlloc.Keystore
