import TrustAlloc.KeystoreSubjects

/-!
# A new certificate when the keystore is full

`keystore_add` makes room by evicting a verified item. Eviction reads the
value of `memb_free` as a success flag, while a successful `memb_free` returns
zero, so an eviction is never reported and the next item is tried.
-/

namespace TrustAlloc.Keystore

open Certificates Pools

variable {n : ℕ} {E : Env n} {k : Store n} {cert : Certificate}

section Eviction

/-- Where nothing can be evicted, the loop changes nothing. -/
theorem freeUpSpaceLoop_of_none {l : List (Fin n)} (h : ∀ i∈l, ¬Evictable E k i) :
    freeUpSpaceLoop E l k=(k,false) := by
  induction l with
  | nil => rfl
  | cons i rest ih =>
    have hrest := ih fun j hj => h j (List.mem_cons_of_mem _ hj)
    by_cases hroot : k.subject i=E.rootCert.subject
    · rw [freeUpSpaceLoop,if_pos hroot,hrest]
    · have hpinned : keystoreIsPinned k i=true :=
        (keystoreIsPinned_iff k i).mpr fun hzero => h i (List.mem_cons_self ..) ⟨hroot,hzero⟩
      rw [freeUpSpaceLoop,if_neg hroot,if_pos hpinned,hrest]

/-- Where `memb_free` returns zero, the loop never reports a success. -/
theorem freeUpSpaceLoop_of_zero (hfreed : E.membFreed=0) (l : List (Fin n)) (k : Store n) :
    (freeUpSpaceLoop E l k).2=false := by
  induction l generalizing k with
  | nil => rfl
  | cons i rest ih =>
    have hremove : (keystoreRemove E k i).2=false := by
      rcases keystoreRemove_cases E k i with h | ⟨_,_,h⟩
      · rw [h]
      · rw [h,hfreed]
        rfl
    unfold freeUpSpaceLoop
    split_ifs with _ _ hreported
    · exact ih k
    · exact ih k
    · rw [hremove] at hreported
      cases hreported
    · rfl
    · exact ih _

end Eviction

section Pressure

/-- An item was evicted for the new certificate, which waits in a block of its
own with no pins. -/
def Replaced (E : Env n) (k : Store n) (cert : Certificate) (out : Store n×Bool) : Prop :=
  out.2=true ∧ ∃ i∈k.publicKeys, Evictable E k i ∧ out.1.publicKeys=k.publicKeys.erase i ∧
    ∃ j, out.1.publicKeysToVerify=listAdd k.publicKeysToVerify j ∧
      (out.1.item j).cert=cert ∧ (out.1.item j).pinCount=0

/-- What `keystore_add` is for when the pool is full. -/
structure MakesRoom (E : Env n) (k : Store n) (cert : Certificate) : Prop where
  /-- An item that may go makes room for the certificate. -/
  replaced : (∃ i∈k.publicKeys, Evictable E k i) → Replaced E k cert (keystoreAdd E k cert)
  /-- Without one nothing changes. -/
  refused : (∀ i∈k.publicKeys, ¬Evictable E k i) → keystoreAdd E k cert=(k,false)
  /-- The root's item and pinned ones stay. -/
  kept : ∀ i∈k.publicKeys, ¬Evictable E k i → i∈(keystoreAdd E k cert).1.publicKeys

/-- With a full pool, a certificate of a subject that is not verified is as
welcome as eviction says. -/
theorem keystoreAdd_of_full (hfreed : E.membFreed=0) (hfull : ∀ i, k.memb.used i=true)
    (hverified : ∀ i∈k.publicKeys, k.subject i≠cert.subject) :
    keystoreAdd E k cert=((keystoreFreeUpSpace E k).1,false) := by
  have hunknown := fun l => (keystoreFindInList_none_iff k cert.subject l).mpr hverified
  have hpick : E.allocator.pick k.memb.used=none := by
    refine Option.eq_none_iff_forall_ne_some.mpr fun i hi => ?_
    have hfree := E.allocator.pick_free hi
    rw [hfull i] at hfree
    cases hfree
  have hevict : (keystoreFreeUpSpace E k).2=false := freeUpSpaceLoop_of_zero hfreed k.publicKeys k
  unfold keystoreAdd keystoreFind
  simp only [hunknown]
  rw [hpick]
  dsimp only
  rw [if_neg (by rw [hevict]; decide)]

/-- **Certificates under memory pressure.** `keystore_add` does what it is for
exactly if no item may be evicted. -/
theorem makesRoom_iff (hfreed : E.membFreed=0) (hfull : ∀ i, k.memb.used i=true)
    (hverified : ∀ i∈k.publicKeys, k.subject i≠cert.subject) :
    MakesRoom E k cert ↔ ∀ i∈k.publicKeys, ¬Evictable E k i := by
  have hadd := keystoreAdd_of_full hfreed hfull hverified
  constructor
  · intro hmakes i hi hevictable
    have htrue := (hmakes.replaced ⟨i,hi,hevictable⟩).1
    rw [hadd] at htrue
    cases htrue
  · intro hnone
    have hsame : keystoreAdd E k cert=(k,false) := by
      rw [hadd,keystoreFreeUpSpace,freeUpSpaceLoop_of_none hnone]
    refine ⟨?_,fun _ => hsame,fun i hi _ => ?_⟩
    · rintro ⟨i,hi,hevictable⟩
      exact absurd hevictable (hnone i hi)
    · rw [hsame]
      exact hi

/-- A store with a pool of two: the root's item, and one for another subject
with the given pin count. -/
def sampleFull (pinCount : UInt16) : Store 2 := {emptyStore 2 with
  memb := ⟨fun _ => true,fun i => if i.val=0 then ⟨sampleCertificate 1,none,0⟩
    else ⟨sampleCertificate 3,none,pinCount⟩⟩
  publicKeys := List.finRange 2}

/-- With the other item pinned the certificate is refused, as it should be. -/
theorem makesRoom_iff_sample : MakesRoom (sampleEnv 2) (sampleFull 1) (sampleCertificate 4) :=
  (makesRoom_iff rfl (fun _ => rfl) (by decide)).mpr (by decide)

/-- Without a pin it is evicted, and the certificate is refused all the same. -/
theorem not_makesRoom_of_evictable :
    (∀ i, (sampleFull 0).memb.used i=true) ∧
      (∀ i∈(sampleFull 0).listed, (sampleFull 0).subject i≠(sampleCertificate 4).subject) ∧
        ¬MakesRoom (sampleEnv 2) (sampleFull 0) (sampleCertificate 4) :=
  ⟨fun _ => rfl,by decide,fun h => absurd (h.replaced (by decide)).1 (by decide)⟩

end Pressure

end TrustAlloc.Keystore
