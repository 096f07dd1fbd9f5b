import TrustAlloc.Keystore
import Mathlib.Data.UInt

/-!
# What each keystore operation does, and the invariant of all runs

Eviction only ever shrinks the verified list. `keystore_add` has three
outcomes: nothing to do, no room, or a new waiting item in a free block. From
these the structural invariant follows for every interleaving: the pool is
owned by the two lists together, and at most one entry is with the verifier,
with its bytes in `add_buffer` and its item waiting and untouched.
-/

namespace TrustAlloc.Keystore

open Certificates Pools Runs

variable {n : ℕ} {E : Env n} {k : Store n}

/-- `k'` is `k` after the eviction of some verified items, and nothing else. -/
structure Evicted (k k' : Store n) : Prop where
  /-- Verified items are only removed. -/
  publicKeys : k'.publicKeys.Sublist k.publicKeys
  /-- The waiting list is unchanged. -/
  publicKeysToVerify : k'.publicKeysToVerify=k.publicKeysToVerify
  /-- No block is written. -/
  mem : k'.memb.mem=k.memb.mem
  /-- The shared buffer is unchanged. -/
  addBuffer : k'.addBuffer=k.addBuffer
  /-- The buffer flag is unchanged. -/
  addBufferInUse : k'.addBufferInUse=k.addBufferInUse
  /-- The entries with the verifier are unchanged. -/
  outstanding : k'.outstanding=k.outstanding
  /-- The lists still own the pool. -/
  owns : Owns k.memb.used k.listed → Owns k'.memb.used k'.listed

/-- Evicting nothing. -/
theorem Evicted.refl (k : Store n) : Evicted k k :=
  ⟨List.Sublist.refl _,rfl,rfl,rfl,rfl,rfl,id⟩

/-- Evictions compose. -/
theorem Evicted.trans {k' k'' : Store n} (h : Evicted k k') (h' : Evicted k' k'') :
    Evicted k k'' :=
  ⟨h'.publicKeys.trans h.publicKeys,h'.publicKeysToVerify.trans h.publicKeysToVerify,
    h'.mem.trans h.mem,h'.addBuffer.trans h.addBuffer,h'.addBufferInUse.trans h.addBufferInUse,
    h'.outstanding.trans h.outstanding,fun ho => h'.owns (h.owns ho)⟩

/-- Freeing one verified item is an eviction. -/
theorem evicted_freeVerified {i : Fin n} (hi : i∈k.publicKeys) : Evicted k (k.freeVerified i) := by
  refine ⟨List.erase_sublist,rfl,rfl,rfl,rfl,rfl,fun ho => ?_⟩
  have hfree := ho.free (i:=i) (List.mem_append_left _ hi)
  rwa [Store.listed,List.erase_append_left _ hi] at hfree

/-- A block that eviction may take: verified, not the root's and not pinned. -/
def Evictable (E : Env n) (k : Store n) (i : Fin n) : Prop :=
  k.subject i≠E.rootCert.subject ∧ (k.item i).pinCount=0

/-- Evictability is decided by the item alone. -/
instance decidableEvictable (E : Env n) (k : Store n) (i : Fin n) :
    Decidable (Evictable E k i) :=
  inferInstanceAs (Decidable (k.subject i≠E.rootCert.subject ∧ (k.item i).pinCount=0))

/-- An item is pinned exactly when its count is not zero. -/
theorem keystoreIsPinned_iff (k : Store n) (i : Fin n) :
    keystoreIsPinned k i=true ↔ (k.item i).pinCount≠0 := by
  simp only [keystoreIsPinned,decide_eq_true_eq,UInt16.pos_iff_ne_zero]

/-- `keystore_remove` either refuses and changes nothing, or frees a listed,
evictable item and returns what `memb_free` returned. -/
theorem keystoreRemove_cases (E : Env n) (k : Store n) (i : Fin n) :
    keystoreRemove E k i=(k,false) ∨
      (i∈k.publicKeys ∧ Evictable E k i ∧
        keystoreRemove E k i=(k.freeVerified i,decide (E.membFreed≠0))) := by
  by_cases hp : keystoreIsPinned k i=true
  · exact Or.inl (by rw [keystoreRemove,if_pos hp])
  · by_cases hr : k.subject i=E.rootCert.subject
    · exact Or.inl (by rw [keystoreRemove,if_neg hp,if_pos hr])
    · by_cases hm : i∈k.publicKeys
      · have hpin : (k.item i).pinCount=0 :=
          not_not.mp fun h => hp ((keystoreIsPinned_iff k i).mpr h)
        exact Or.inr ⟨hm,⟨hr,hpin⟩,by rw [keystoreRemove,if_neg hp,if_neg hr,if_pos hm]⟩
      · exact Or.inl (by rw [keystoreRemove,if_neg hp,if_neg hr,if_neg hm])

/-- A listed, evictable item is removed. -/
theorem keystoreRemove_of_evictable {i : Fin n} (hi : i∈k.publicKeys) (he : Evictable E k i) :
    keystoreRemove E k i=(k.freeVerified i,decide (E.membFreed≠0)) := by
  have hp : ¬keystoreIsPinned k i=true := fun h => (keystoreIsPinned_iff k i).mp h he.2
  rw [keystoreRemove,if_neg hp,if_neg he.1,if_pos hi]

/-- Every call of `keystore_remove` is an eviction. -/
theorem keystoreRemove_evicted (E : Env n) (k : Store n) (i : Fin n) :
    Evicted k (keystoreRemove E k i).1 := by
  rcases keystoreRemove_cases E k i with h | ⟨hi,_,h⟩
  · rw [h]
    exact Evicted.refl k
  · rw [h]
    exact evicted_freeVerified hi

/-- The eviction loop over a part of the verified list: it only evicts, and
it reports success exactly when `memb_free` reports success for some
evictable item; then a block is free. -/
theorem freeUpSpaceLoop_spec (E : Env n) (l : List (Fin n)) (k : Store n)
    (hsub : ∀ i∈l, i∈k.publicKeys) (hnd : l.Nodup) :
    Evicted k (freeUpSpaceLoop E l k).1 ∧
      ((freeUpSpaceLoop E l k).2=true ↔ E.membFreed≠0 ∧ ∃ i∈l, Evictable E k i) ∧
      ((freeUpSpaceLoop E l k).2=true → ∃ i, (freeUpSpaceLoop E l k).1.memb.used i=false) := by
  induction l generalizing k with
  | nil =>
    refine ⟨Evicted.refl k,?_,?_⟩ <;> simp [freeUpSpaceLoop]
  | cons i rest ih =>
    obtain ⟨hi,hrest⟩ := List.nodup_cons.mp hnd
    have hmem : i∈k.publicKeys := hsub i List.mem_cons_self
    have hskip := ih k (fun j hj => hsub j (List.mem_cons_of_mem i hj)) hrest
    by_cases he : Evictable E k i
    · have hp : ¬keystoreIsPinned k i=true := fun h => (keystoreIsPinned_iff k i).mp h he.2
      have hev := evicted_freeVerified hmem
      rw [freeUpSpaceLoop,if_neg he.1,if_neg hp,keystoreRemove_of_evictable hmem he]
      dsimp only
      by_cases hf : E.membFreed=0
      · simp only [hf,ne_eq,not_true_eq_false,decide_false,Bool.false_eq_true,if_false,
          false_and,iff_false,Bool.not_eq_true]
        split
        · exact ⟨hev,rfl,fun h => by cases h⟩
        · have hnext := ih (k.freeVerified i) (fun j hj => by
            have hne : j≠i := fun h => hi (h ▸ hj)
            exact (List.mem_erase_of_ne hne).mpr (hsub j (List.mem_cons_of_mem i hj))) hrest
          have hfalse : (freeUpSpaceLoop E rest (k.freeVerified i)).2=false := by
            rw [←Bool.not_eq_true,hnext.2.1]
            exact fun h => h.1 hf
          refine ⟨hev.trans hnext.1,hfalse,fun h => ?_⟩
          rw [hfalse] at h
          cases h
      · simp only [ne_eq,hf,not_false_eq_true,decide_true,if_true,true_and,true_iff]
        exact ⟨hev,⟨i,List.mem_cons_self,he⟩,fun _ => ⟨i,k.memb.free_used_same i⟩⟩
    · have hloop : freeUpSpaceLoop E (i::rest) k=freeUpSpaceLoop E rest k := by
        by_cases hr : k.subject i=E.rootCert.subject
        · rw [freeUpSpaceLoop,if_pos hr]
        · have hp : keystoreIsPinned k i=true :=
            (keystoreIsPinned_iff k i).mpr fun h => he ⟨hr,h⟩
          rw [freeUpSpaceLoop,if_neg hr,if_pos hp]
      rw [hloop]
      refine ⟨hskip.1,hskip.2.1.trans ?_,hskip.2.2⟩
      simp only [List.mem_cons,exists_eq_or_imp,he,false_or]

/-- `keystore_add` can place a new certificate: a block is free, or eviction
takes an item and reports it. -/
def HasRoom (E : Env n) (k : Store n) : Prop :=
  (∃ i, k.memb.used i=false) ∨ (E.membFreed≠0 ∧ ∃ i∈k.publicKeys, Evictable E k i)

/-- Room is decided by the flags, the verified list and its items. -/
instance decidableHasRoom (E : Env n) (k : Store n) : Decidable (HasRoom E k) :=
  inferInstanceAs (Decidable (_ ∨ (_ ∧ _)))

/-- Lookup in the verified list finds nothing exactly for unknown subjects. -/
theorem keystoreFindInList_none_iff (k : Store n) (eui64 : Eui64) (l : List (Fin n)) :
    keystoreFindInList k eui64 l=none ↔ ∀ i∈k.publicKeys, k.subject i≠eui64 := by
  simp [keystoreFindInList]

/-- The outcomes of `keystore_add`: known as verified; unknown there and
without room; or unknown there and placed in a free block after evictions. -/
theorem keystoreAdd_cases (E : Env n) (k : Store n) (cert : Certificate)
    (hown : Owns k.memb.used k.listed) :
    ((∃ i∈k.publicKeys, k.subject i=cert.subject) ∧ keystoreAdd E k cert=(k,true)) ∨
    ((∀ i∈k.publicKeys, k.subject i≠cert.subject) ∧ ¬HasRoom E k ∧
      Evicted k (keystoreAdd E k cert).1 ∧ (keystoreAdd E k cert).2=false) ∨
    ((∀ i∈k.publicKeys, k.subject i≠cert.subject) ∧ HasRoom E k ∧
      ∃ k' i, Evicted k k' ∧ k'.memb.used i=false ∧
        keystoreAdd E k cert=(k'.enqueue i cert,true)) := by
  cases hf : keystoreFind k cert.subject with
  | some j =>
    have hj := List.mem_of_find?_eq_some hf
    have hs : k.subject j=cert.subject := by simpa using List.find?_some hf
    exact Or.inl ⟨⟨j,hj,hs⟩,by rw [keystoreAdd,hf]⟩
  | none =>
    have hnone := (keystoreFindInList_none_iff k cert.subject k.publicKeys).mp hf
    have hwait : keystoreFindInList k cert.subject k.publicKeysToVerify=none :=
      (keystoreFindInList_none_iff k cert.subject _).mpr hnone
    have hnd : k.publicKeys.Nodup := (List.nodup_append.mp hown.nodup).1
    obtain ⟨hev,hiff,hfree⟩ := freeUpSpaceLoop_spec E k.publicKeys k (fun _ h => h) hnd
    cases hpick : E.allocator.pick k.memb.used with
    | some i =>
      have hi := E.allocator.pick_free hpick
      refine Or.inr (Or.inr ⟨hnone,Or.inl ⟨i,hi⟩,k,i,Evicted.refl k,hi,?_⟩)
      simp only [keystoreAdd,hf,hwait,hpick]
    | none =>
      have hused := E.allocator.pick_none hpick
      by_cases hup : (keystoreFreeUpSpace E k).2=true
      · have hsome := (E.allocator.pick_isSome _).mpr (hfree hup)
        obtain ⟨i,hi⟩ := Option.isSome_iff_exists.mp hsome
        refine Or.inr (Or.inr ⟨hnone,Or.inr (hiff.mp hup),(keystoreFreeUpSpace E k).1,i,hev,
          E.allocator.pick_free hi,?_⟩)
        simp only [keystoreAdd,hf,hwait,hpick,if_pos hup]
        rw [keystoreFreeUpSpace,hi]
      · have hroom : ¬HasRoom E k := by
          rintro (⟨i,hi⟩ | h)
          · rw [hused i] at hi
            cases hi
          · exact hup (hiff.mpr h)
        have hadd : keystoreAdd E k cert=((keystoreFreeUpSpace E k).1,false) := by
          simp only [keystoreAdd,hf,hwait,hpick,if_neg hup]
        rw [hadd]
        exact Or.inr (Or.inl ⟨hnone,hroom,hev,rfl⟩)

/-- The entry with the verifier agrees with the shared buffer and the item:
the bytes are the signed bytes and the signature of the item's certificate. -/
structure EntryHeld (E : Env n) (k : Store n) (e : VerifyEntry n) : Prop where
  /-- The item is still waiting. -/
  waiting : e.data∈k.publicKeysToVerify
  /-- The item holds the certificate that was queued. -/
  cert : (k.item e.data).cert=e.cert
  /-- The queued bytes are the signed bytes followed by the signature. -/
  message : e.message=tbsBytes E.nanocbor e.cert++e.cert.signature.bytes
  /-- The buffer still holds the queued bytes. -/
  buffer : k.addBuffer.take e.message.length=e.message
  /-- The key is the root's. -/
  pubkey : e.pubkey=E.rootCert.publicKey

/-- The invariant of every run of the keystore. -/
structure Inv (E : Env n) (k : Store n) : Prop where
  /-- The used blocks are those of the two lists, each once. -/
  owns : Owns k.memb.used k.listed
  /-- No entry is with the verifier, or exactly one that agrees with the store. -/
  outstanding : (k.addBufferInUse=false ∧ k.outstanding=[]) ∨
    (k.addBufferInUse=true ∧ ∃ e, k.outstanding=[e] ∧ EntryHeld E k e)

/-- What the entry relies on survives any change that keeps the waiting
list, the certificate under verification and the buffer. -/
theorem EntryHeld.of_eq {k' : Store n} {e : VerifyEntry n} (h : EntryHeld E k e)
    (hwait : e.data∈k'.publicKeysToVerify)
    (hcert : (k'.item e.data).cert=(k.item e.data).cert)
    (hbuf : k'.addBuffer=k.addBuffer) : EntryHeld E k' e :=
  ⟨hwait,hcert.trans h.cert,h.message,by rw [hbuf]; exact h.buffer,h.pubkey⟩

/-- Whether a poll is pending plays no part in the invariant. -/
theorem Inv.withPolled (h : Inv E k) (polled : Bool) : Inv E {k with polled := polled} :=
  ⟨h.owns,h.outstanding.imp id fun ⟨hu,e,he,hh⟩ =>
    ⟨hu,e,he,hh.of_eq hh.waiting rfl rfl⟩⟩

/-- Evictions keep the invariant. -/
theorem Inv.evicted {k' : Store n} (h : Inv E k) (he : Evicted k k') : Inv E k' := by
  refine ⟨he.owns h.owns,?_⟩
  rw [he.addBufferInUse,he.outstanding]
  rcases h.outstanding with hnone | ⟨huse,e,hout,hheld⟩
  · exact Or.inl hnone
  · refine Or.inr ⟨huse,e,hout,hheld.of_eq ?_ ?_ he.addBuffer⟩
    · rw [he.publicKeysToVerify]
      exact hheld.waiting
    · rw [Store.item,he.mem]

/-- Rewriting an item with the same certificate changes no certificate. -/
theorem setItem_cert (i : Fin n) {v : PublicKeyItem} (hv : v.cert=(k.item i).cert) (j : Fin n) :
    ((k.setItem i v).item j).cert=(k.item j).cert := by
  by_cases hj : j=i
  · subst hj
    exact (congrArg PublicKeyItem.cert (k.memb.set_mem_same j v)).trans hv
  · exact congrArg PublicKeyItem.cert (k.memb.set_mem_other v hj)

/-- Queueing a new item changes no other item. -/
theorem enqueue_item_other {i j : Fin n} (hj : j≠i) (cert : Certificate) :
    (k.enqueue i cert).item j=k.item j := (k.memb.take i).set_mem_other _ hj

/-- Rewriting an item in place keeps the invariant as long as it keeps the
certificate. -/
theorem Inv.setItem (h : Inv E k) (i : Fin n) {v : PublicKeyItem}
    (hv : v.cert=(k.item i).cert) : Inv E (k.setItem i v) := by
  refine ⟨h.owns,?_⟩
  rcases h.outstanding with hnone | ⟨huse,e,hout,hheld⟩
  · exact Or.inl hnone
  · exact Or.inr ⟨huse,e,hout,hheld.of_eq hheld.waiting (setItem_cert i hv e.data) rfl⟩

/-- `keystore_pin` keeps the invariant. -/
theorem Inv.pin (h : Inv E k) (i : Fin n) : Inv E (keystorePin k i) := h.setItem i rfl

/-- `keystore_unpin` keeps the invariant. -/
theorem Inv.unpin (h : Inv E k) (i : Fin n) : Inv E (keystoreUnpin k i) := h.setItem i rfl

/-- `generate_shared_secret` keeps the invariant. -/
theorem Inv.sharedSecret (h : Inv E k) (i : Fin n) (secret : List UInt8) :
    Inv E (generateSharedSecret E k i secret) := h.setItem i rfl

/-- Filling a free block and queueing it keeps the invariant. -/
theorem Inv.enqueue (h : Inv E k) {i : Fin n} (hi : k.memb.used i=false) (cert : Certificate) :
    Inv E (k.enqueue i cert) := by
  have hnew : i∉k.listed := h.owns.not_mem hi
  have hnewv : i∉k.publicKeysToVerify := fun hm => hnew (List.mem_append_right _ hm)
  constructor
  · have hown := (h.owns.take hi).perm
      (show (i::k.listed).Perm (k.listed++[i]) from (List.perm_append_singleton i _).symm)
    change Owns (k.memb.take i).used (k.publicKeys++listAdd k.publicKeysToVerify i)
    rw [listAdd_of_not_mem hnewv]
    simpa only [Store.listed,List.append_assoc] using hown
  · rcases h.outstanding with hnone | ⟨huse,e,hout,hheld⟩
    · exact Or.inl hnone
    · refine Or.inr ⟨huse,e,hout,hheld.of_eq ?_ ?_ rfl⟩
      · rw [Store.enqueue,listAdd_of_not_mem hnewv]
        exact List.mem_append_left _ hheld.waiting
      · have hne : e.data≠i := fun he => hnewv (he ▸ hheld.waiting)
        rw [enqueue_item_other hne]

/-- `keystore_add` keeps the invariant. -/
theorem Inv.add (h : Inv E k) (cert : Certificate) : Inv E (keystoreAdd E k cert).1 := by
  rcases keystoreAdd_cases E k cert h.owns with ⟨_,ha⟩ | ⟨_,_,hev,_⟩ | ⟨_,_,k',i,hev,hi,ha⟩
  · rw [ha]
    exact h
  · exact h.evicted hev
  · rw [ha]
    exact (h.evicted hev).enqueue hi cert

/-- Two writes, one after the other from the start of a buffer, leave both
parts next to each other. -/
theorem take_overwrite_overwrite (buffer first second : List UInt8) :
    (overwrite (overwrite buffer 0 first) first.length second).take
      (first.length+second.length)=first++second := by
  simp [overwrite,List.take_append]

/-- `keystore_add_start` does nothing while the buffer is in use or nothing
waits; else it drops the first waiting item, or hands it to the verifier. -/
theorem keystoreAddStart_cases (E : Env n) (k : Store n) (queued : Bool) :
    keystoreAddStart E k queued=k ∨
    (k.addBufferInUse=false ∧ ∃ i rest buffer, k.publicKeysToVerify=i::rest ∧
      keystoreAddStart E k queued={k.freeUnverified i with addBuffer := buffer}) ∨
    (k.addBufferInUse=false ∧ ∃ i rest, k.publicKeysToVerify=i::rest ∧
      (encodeItem E k i).2=0 ∧ (encodeItem E k i).1.len≤tbsCertificateCborLength ∧
      keystoreAddStart E k queued={k with
        addBuffer := filledBuffer E k i
        addBufferInUse := true
        outstanding := k.outstanding++[entryFor E k i (filledBuffer E k i)]}) := by
  cases huse : k.addBufferInUse with
  | true => exact Or.inl (by rw [keystoreAddStart,if_pos huse])
  | false =>
    have hn : ¬k.addBufferInUse=true := by simp [huse]
    cases hw : k.publicKeysToVerify with
    | nil => exact Or.inl (by rw [keystoreAddStart,if_neg hn,hw])
    | cons i rest =>
      by_cases hbad : (encodeItem E k i).2≠0 ∨ tbsCertificateCborLength<(encodeItem E k i).1.len
      · exact Or.inr (Or.inl ⟨rfl,i,rest,_,rfl,by
          rw [keystoreAddStart,if_neg hn,hw]; exact if_pos hbad⟩)
      · obtain ⟨hok,hlen⟩ := not_or.mp hbad
        cases queued with
        | false => exact Or.inr (Or.inl ⟨rfl,i,rest,_,rfl,by
            rw [keystoreAddStart,if_neg hn,hw]; exact (if_neg hbad).trans (if_pos rfl)⟩)
        | true => exact Or.inr (Or.inr ⟨rfl,i,rest,rfl,not_not.mp hok,not_lt.mp hlen,by
            rw [keystoreAddStart,if_neg hn,hw]
            exact (if_neg hbad).trans (if_neg Bool.noConfusion)⟩)

/-- Dropping a waiting item while nothing is with the verifier keeps the
invariant, whatever the buffer holds. -/
theorem Inv.freeUnverified (h : Inv E k) (huse : k.addBufferInUse=false) {i : Fin n}
    (hi : i∈k.publicKeysToVerify) (buffer : List UInt8) :
    Inv E {k.freeUnverified i with addBuffer := buffer} := by
  have hnot : i∉k.publicKeys := fun hm =>
    (List.nodup_append.mp h.owns.nodup).2.2 i hm i hi rfl
  constructor
  · have hfree := h.owns.free (i:=i) (List.mem_append_right _ hi)
    rwa [Store.listed,List.erase_append_right _ hnot] at hfree
  · rcases h.outstanding with hnone | ⟨hin,_⟩
    · exact Or.inl hnone
    · rw [huse] at hin
      cases hin

/-- `keystore_add_start` keeps the invariant. -/
theorem Inv.addStart (h : Inv E k) (queued : Bool) : Inv E (keystoreAddStart E k queued) := by
  rcases keystoreAddStart_cases E k queued with hk | ⟨huse,i,rest,buffer,hw,hk⟩ |
    ⟨huse,i,rest,hw,hok,hlen,hk⟩
  · rw [hk]
    exact h
  · rw [hk]
    exact h.freeUnverified huse (by rw [hw]; exact List.mem_cons_self) buffer
  · rw [hk]
    have hstored : (encodeItem E k i).1.stored=tbsBytes E.nanocbor (k.item i).cert :=
      certificateEncodeTbs_stored hok hlen
    have hcount : (encodeItem E k i).1.len=(tbsBytes E.nanocbor (k.item i).cert).length :=
      certificateEncodeTbs_len hok
    have htake : (filledBuffer E k i).take ((encodeItem E k i).1.len+dtlsEcSigSize)=
        tbsBytes E.nanocbor (k.item i).cert++(k.item i).cert.signature.bytes := by
      rw [filledBuffer,hcount,hstored,←(k.item i).cert.signature.bytes_length]
      exact take_overwrite_overwrite ..
    have hempty : k.outstanding=[] := by
      rcases h.outstanding with hnone | ⟨hin,_⟩
      · exact hnone.2
      · rw [huse] at hin
        cases hin
    refine ⟨h.owns,Or.inr ⟨rfl,entryFor E k i (filledBuffer E k i),by
      simp [hempty],?_,rfl,htake,?_,rfl⟩⟩
    · change i∈k.publicKeysToVerify
      rw [hw]
      exact List.mem_cons_self
    · change (filledBuffer E k i).take (entryFor E k i (filledBuffer E k i)).message.length=
        (entryFor E k i (filledBuffer E k i)).message
      simp only [entryFor,List.length_take,List.take_eq_take_iff]
      omega

/-- The entry handed back is the only one with the verifier. -/
theorem Inv.entry (h : Inv E k) {e : VerifyEntry n} (he : e∈k.outstanding) :
    k.outstanding=[e] ∧ k.addBufferInUse=true ∧ EntryHeld E k e := by
  rcases h.outstanding with ⟨_,hnone⟩ | ⟨huse,e',hout,hheld⟩
  · rw [hnone] at he
    cases he
  · rw [hout,List.mem_singleton] at he
    subst he
    exact ⟨hout,huse,hheld⟩

/-- A waiting item is not verified as well. -/
theorem Inv.not_verified (h : Inv E k) {i : Fin n} (hi : i∈k.publicKeysToVerify) :
    i∉k.publicKeys := fun hm => (List.nodup_append.mp h.owns.nodup).2.2 i hm i hi rfl

/-- Moving a waiting item to the verified list only reorders the owning list. -/
theorem Inv.perm_verified (h : Inv E k) {i : Fin n} (hi : i∈k.publicKeysToVerify) :
    k.listed.Perm (listPush k.publicKeys i++k.publicKeysToVerify.erase i) := by
  rw [listPush_of_not_mem (h.not_verified hi)]
  exact ((List.perm_cons_erase hi).append_left k.publicKeys).trans List.perm_middle

/-- `keystore_add_continued` on the entry that is with the verifier keeps
the invariant, whatever the verdict. -/
theorem Inv.addContinued (h : Inv E k) {e : VerifyEntry n} (he : e∈k.outstanding)
    (result : UInt8) : Inv E (keystoreAddContinued E k e result).1 := by
  obtain ⟨hout,_,hheld⟩ := h.entry he
  have hempty : k.outstanding.erase e=[] := by simp [hout]
  unfold keystoreAddContinued
  split
  · exact ⟨h.owns.perm (h.perm_verified hheld.waiting),Or.inl ⟨rfl,hempty⟩⟩
  · have hfree := h.owns.free (i:=e.data) (List.mem_append_right _ hheld.waiting)
    rw [Store.listed,List.erase_append_right _ (h.not_verified hheld.waiting)] at hfree
    exact ⟨hfree,Or.inl ⟨rfl,hempty⟩⟩

/-- The operations on the keystore, in any interleaving. -/
inductive Op (n : ℕ) where
  /-- `keystore_add` of any certificate. -/
  | add (cert : Certificate)
  /-- `keystore_remove` of any block. -/
  | remove (item : Fin n)
  /-- `keystore_pin`. -/
  | pin (item : Fin n)
  /-- `keystore_unpin`. -/
  | unpin (item : Fin n)
  /-- `keystore_add_start`, with or without room in the verifier's pool. -/
  | addStart (queued : Bool)
  /-- `keystore_add_continued` for an entry with a verdict. -/
  | addContinued (entry : VerifyEntry n) (result : UInt8)

/-- One operation. -/
def step (E : Env n) (k : Store n) : Op n → Store n
  | .add cert => (keystoreAdd E k cert).1
  | .remove item => (keystoreRemove E k item).1
  | .pin item => keystorePin k item
  | .unpin item => keystoreUnpin k item
  | .addStart queued => keystoreAddStart E k queued
  | .addContinued entry result => (keystoreAddContinued E k entry result).1

/-- Only an entry that is with the verifier is ever handed back. -/
def Admitted (k : Store n) : Op n → Prop
  | .addContinued entry _ => entry∈k.outstanding
  | _ => True

/-- Admission is decided by the list of entries. -/
instance decidableAdmitted (k : Store n) : ∀ op, Decidable (Admitted k op)
  | .addContinued entry _ => inferInstanceAs (Decidable (entry∈k.outstanding))
  | .add _ | .remove _ | .pin _ | .unpin _ | .addStart _ => .isTrue trivial

/-- Every admitted operation keeps the invariant. -/
theorem Inv.step (h : Inv E k) {op : Op n} (hop : Admitted k op) : Inv E (step E k op) := by
  cases op with
  | add cert => exact h.add cert
  | remove item => exact h.evicted (keystoreRemove_evicted E k item)
  | pin item => exact h.pin item
  | unpin item => exact h.unpin item
  | addStart queued => exact h.addStart queued
  | addContinued entry result => exact h.addContinued hop result

/-- The empty store satisfies the invariant. -/
theorem inv_emptyStore (E : Env n) : Inv E (emptyStore n) :=
  ⟨⟨List.nodup_nil,fun i => by simp [emptyStore,Store.listed]⟩,Or.inl ⟨rfl,rfl⟩⟩

/-- The invariant holds after `keystore_init`. -/
theorem inv_keystoreInit (E : Env n) : Inv E (keystoreInit E) :=
  (inv_emptyStore E).add E.rootCert

end TrustAlloc.Keystore
