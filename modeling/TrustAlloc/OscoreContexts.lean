import TrustAlloc.KeyFiles
import TrustAlloc.KeystoreContexts

/-!
# Security contexts of two parties

Nodes derive a context from the certificate of a peer. The root reads its
contexts from files that `setup.py` writes, which it finds by the identities in
its certificates. Two parties that have a context for each other's certificate
have the same secret and the same two identities, the other way round, however
the steps of their keystores interleave.
-/

namespace TrustAlloc.OscoreContexts

open AddressConversions Addresses CertificateCodec Certificates EdgeInfo KeyFiles Keystore
open KeystoreContexts Pools RootKeystore Runs TrustReceive

section Setup

variable {Priv : Type}

end Setup

section Files

variable {Priv : Type}

end Files

section Nodes

variable {n m v : ℕ} {E : Env n} {T : TrustEnv n m v} {k k' : Store n} {c : ContextState n m v}
  {exchange : PublicKey → List UInt8} {derived : Fin n → Option (PublicKey×OscoreContext)}

/-- The context for a certificate, given the secrets with public keys. -/
def contextOf (E : Env n) (exchange : PublicKey → List UInt8) (cert : Certificate) :
    OscoreContext :=
  ⟨exchange cert.publicKey,oscoreId E.ourCert.subject,oscoreId cert.subject⟩

/-- The ECDH child tells the secret with the key that it was started with. -/
def Honest (exchange : PublicKey → List UInt8) (c : ContextState n m v) :
    KeystoreContexts.Op v n → Prop
  | .run (.ecdhDone true secret) => secret=exchange c.peer
  | _ => True

/-- Honesty is decided by the secret. -/
instance decidableHonest (exchange : PublicKey → List UInt8) (c : ContextState n m v) :
    ∀ op : KeystoreContexts.Op v n, Decidable (Honest exchange c op)
  | .run (.ecdhDone true secret) => inferInstanceAs (Decidable (secret=exchange c.peer))
  | .run (.ecdhDone false _) | .run (.post _ _) | .run (.add _) | .run (.remove _) | .run .poll
  | .run .dequeue | .run (.verify _) | .run (.deliver _) | .protect _ => .isTrue trivial

/-- An item that messages are protected with. -/
def Usable (c : ContextState n m v) (i : Fin n) : Prop :=
  i∈c.system.store.publicKeys ∧ c.system.ecdh≠some i ∧ c.failed i=false

/-- What was derived for a verified item is between its subject and us. -/
def Derives (E : Env n) (exchange : PublicKey → List UInt8) (k : Store n)
    (derived : Fin n → Option (PublicKey×OscoreContext)) : Prop :=
  ∀ i∈k.publicKeys, ∀ p, derived i=some p →
    p.2=⟨exchange p.1,oscoreId E.ourCert.subject,oscoreId (k.subject i)⟩

/-- Changes that are quiet derive nothing. -/
theorem Derives.quiet (h : Derives E exchange k derived) (hq : Quiet k k') :
    Derives E exchange k' derived := by
  intro i hi p hp
  have hsubject : k'.subject i=k.subject i := congrArg Certificate.subject (hq.cert i)
  rw [hsubject]
  exact h i (hq.publicKeys i hi) p hp

/-- Adding a certificate publishes nothing and leaves published items alone. -/
theorem add_published {cert : Certificate} (hown : Owns k.memb.used k.listed) {i : Fin n}
    (hi : i∈(keystoreAdd E k cert).1.publicKeys) :
    i∈k.publicKeys ∧ (keystoreAdd E k cert).1.item i=k.item i := by
  rcases keystoreAdd_cases E k cert hown with ⟨_,ha⟩ | ⟨_,_,hev,_⟩ | ⟨_,_,k',j,hev,hj,ha⟩
  · rw [ha] at hi ⊢
    exact ⟨hi,rfl⟩
  · exact ⟨hev.publicKeys.subset hi,by rw [Store.item,hev.mem]⟩
  · rw [ha] at hi ⊢
    have hfree := (hev.owns hown).not_mem hj
    have hne : i≠j := fun he => hfree (List.mem_append_left _ (he ▸ hi))
    refine ⟨hev.publicKeys.subset hi,?_⟩
    show (k'.enqueue j cert).item i=k.item i
    rw [enqueue_item_other hne,Store.item,hev.mem]

/-- A verdict publishes an item that nothing was derived for. -/
theorem Derives.verified (h : Derives E exchange k derived) {e : VerifyEntry n}
    (hnone : derived e.data=none) (result : UInt8) :
    Derives E exchange (onVerified E ⟨k,none,[]⟩ e result []).store derived := by
  unfold onVerified keystoreAddContinued
  split_ifs
  · dsimp only
    have hq := quiet_pin {k with
        publicKeysToVerify := k.publicKeysToVerify.erase e.data
        publicKeys := listPush k.publicKeys e.data
        outstanding := k.outstanding.erase e
        addBufferInUse := false} e.data
    refine Derives.quiet (fun i hi p hp => ?_) hq
    rcases List.mem_cons.mp hi with rfl | hmem
    · rw [hnone] at hp
      exact nomatch hp
    · exact h i (List.mem_of_mem_erase hmem) p hp
  · exact h.quiet (quiet_of_mem (fun _ hi => hi) (fun _ hi => List.mem_of_mem_erase hi) rfl)

/-- A child that ends leaves the context with the secret it tells. -/
theorem Derives.ecdhDone (h : Derives E exchange k derived) (i : Fin n) (peer : PublicKey) :
    Derives E exchange (onEcdhDone E ⟨k,some i,[]⟩ i true (exchange peer)).store
      (Function.update derived i (((onEcdhDone E ⟨k,some i,[]⟩ i true
        (exchange peer)).store.item i).context.map fun o => (peer,o))) := by
  have hunpin : Quiet (generateSharedSecret E k i (exchange peer))
      (onEcdhDone E ⟨k,some i,[]⟩ i true (exchange peer)).store := (quiet_unpin _ i).withPolled true
  have hitem : (generateSharedSecret E k i (exchange peer)).item i={k.item i with
      context := some ⟨exchange peer,oscoreId E.ourCert.subject,oscoreId (k.subject i)⟩} :=
    k.memb.set_mem_same i _
  have hcontext : ((onEcdhDone E ⟨k,some i,[]⟩ i true (exchange peer)).store.item i).context=
      some ⟨exchange peer,oscoreId E.ourCert.subject,oscoreId (k.subject i)⟩ := by
    refine (hunpin.context i).trans ?_
    rw [hitem]
  rw [hcontext]
  refine Derives.quiet (fun j hj p hp => ?_) hunpin
  by_cases hij : j=i
  · subst hij
    rw [Function.update_self,Option.map_some] at hp
    cases hp
    have hsubject : (generateSharedSecret E k j (exchange peer)).subject j=k.subject j := by
      rw [Store.subject,hitem]
    rw [hsubject]
  · rw [Function.update_of_ne hij] at hp
    have hsubject : (generateSharedSecret E k i (exchange peer)).subject j=k.subject j :=
      congrArg (fun item : PublicKeyItem => item.cert.subject) (k.memb.set_mem_other _ hij)
    rw [hsubject]
    exact h j hj p hp

/-- A delivered event derives nothing. -/
theorem observe_deliver (c : ContextState n m v) (s : System n m v) (entry : Fin v) :
    (observe c s (.deliver entry)).system=s ∧
      (observe c s (.deliver entry)).derived=c.derived := by
  simp only [observe]
  split <;> exact ⟨rfl,rfl⟩

/-- The history of a node whose child is honest. -/
structure HonestInv (T : TrustEnv n m v) (exchange : PublicKey → List UInt8)
    (c : ContextState n m v) : Prop where
  /-- The history is right. -/
  inv : Inv T c
  /-- So are the secrets in it. -/
  derives : Derives T.keystore exchange c.system.store c.derived

/-- A step that an honest child takes part in. -/
theorem HonestInv.run (h : HonestInv T exchange c) {op : TrustReceive.Op v n}
    (hop : TrustReceive.Admitted c.system op) (hhonest : Honest exchange c (.run op)) :
    HonestInv T exchange (observe c (TrustReceive.step T c.system op) op) := by
  refine ⟨h.inv.run hop,?_⟩
  cases op with
  | post src payload => exact h.derives.quiet (quiet_post T c.system src payload)
  | add cert =>
    intro i hi p hp
    obtain ⟨hmem,hitem⟩ := add_published h.inv.system.ledger.store.owns hi
    have hsubject : (keystoreAdd T.keystore c.system.store cert).1.subject i=
        c.system.store.subject i := congrArg (fun item : PublicKeyItem => item.cert.subject) hitem
    have hold : c.derived i=some p := by
      have hif : (if i∈(keystoreAdd T.keystore c.system.store cert).1.publicKeysToVerify.drop
        c.system.store.publicKeysToVerify.length then none else c.derived i)=some p := hp
      split_ifs at hif
      exact hif
    show p.2=⟨_,_,oscoreId ((keystoreAdd T.keystore c.system.store cert).1.subject i)⟩
    rw [hsubject]
    exact h.derives i hmem p hold
  | remove item =>
    exact h.derives.quiet (quiet_of_evicted (keystoreRemove_evicted T.keystore c.system.store item))
  | poll => exact h.derives.quiet (quiet_poll T c.system).1
  | dequeue => exact h.derives
  | verify codes => exact h.derives
  | deliver entry =>
    obtain ⟨hsystem,hkept⟩ :=
      observe_deliver c (TrustReceive.step T c.system (.deliver entry)) entry
    rw [hkept,hsystem]
    dsimp only [TrustReceive.step]
    unfold deliver
    split
    · next e he =>
      obtain ⟨hout,hidle⟩ := h.inv.system.entry hop he
      have hstore : (keystoreVerified T c.system entry e).store=
          (onVerified T.keystore ⟨c.system.store,none,[]⟩ e
            (c.system.verifier.memb.mem entry).result []).store := by
        unfold keystoreVerified
        rw [hidle]
        rfl
      rw [hstore]
      have hwait := (h.inv.system.ledger.store.entry hout).2.2.waiting
      exact h.derives.verified (h.inv.contexts.waiting _ hwait).1 _
    · exact h.derives.quiet (quiet_unpin _ _)
  | ecdhDone success secret =>
    obtain ⟨i,hi⟩ := Option.ne_none_iff_exists'.mp hop
    have hstore : (keystoreEcdhDone T c.system success secret).store=
        (onEcdhDone T.keystore ⟨c.system.store,some i,[]⟩ i success secret).store := by
      unfold keystoreEcdhDone
      rw [hi]
    dsimp only [TrustReceive.step]
    unfold observe
    rw [hi]
    dsimp only
    cases success with
    | true =>
      rw [if_pos rfl]
      dsimp only
      rw [hstore,show secret=exchange c.peer from hhonest]
      exact h.derives.ecdhDone i c.peer
    | false =>
      rw [if_neg Bool.noConfusion]
      dsimp only
      rw [hstore]
      exact h.derives.quiet ((quiet_unpin _ i).withPolled true)

/-- Every step does. -/
theorem HonestInv.step (h : HonestInv T exchange c) {op : KeystoreContexts.Op v n}
    (hop : KeystoreContexts.Admitted c op) (hhonest : Honest exchange c op) :
    HonestInv T exchange (KeystoreContexts.step T c op) := by
  cases op with
  | run op => exact h.run hop hhonest
  | protect ep => exact h

/-- The context of an item that messages are protected with. -/
theorem HonestInv.context (h : HonestInv T exchange c) {i : Fin n} (hi : Usable c i) :
    (c.system.store.item i).context=
      some (contextOf T.keystore exchange (c.system.store.item i).cert) := by
  obtain ⟨hmem,hchild,hfailed⟩ := hi
  rcases h.inv.contexts.usable i hmem hchild with ⟨hfail,-⟩ | ⟨-,o,ho,hderived⟩
  · rw [hfailed] at hfail
    exact nomatch hfail
  · have heq := h.derives i hmem _ hderived
    rw [Option.mem_def] at ho
    rw [ho]
    exact congrArg some heq

end Nodes

section Network

variable {Priv : Type} {n m v : ℕ}

/-- One step of the node at an address. -/
def step (T : IpAddr → TrustEnv n m v) (w : IpAddr → ContextState n m v)
    (op : IpAddr×KeystoreContexts.Op v n) : IpAddr → ContextState n m v :=
  Function.update w op.1 (KeystoreContexts.step (T op.1) (w op.1) op.2)

/-- The steps that can happen at that node. -/
def Admitted (w : IpAddr → ContextState n m v) (op : IpAddr×KeystoreContexts.Op v n) : Prop :=
  KeystoreContexts.Admitted (w op.1) op.2

/-- Its child computes with its own key. -/
def HonestKey (d : Deployment Priv) (w : IpAddr → ContextState n m v)
    (op : IpAddr×KeystoreContexts.Op v n) : Prop :=
  Honest (d.exchange (d.key op.1)) (w op.1) op.2

/-- Admission is decided by the node. -/
instance decidableAdmitted (w : IpAddr → ContextState n m v)
    (op : IpAddr×KeystoreContexts.Op v n) : Decidable (Admitted w op) :=
  KeystoreContexts.decidableAdmitted (w op.1) op.2

/-- So is honesty. -/
instance decidableHonestKey (d : Deployment Priv) (w : IpAddr → ContextState n m v)
    (op : IpAddr×KeystoreContexts.Op v n) : Decidable (HonestKey d w op) :=
  decidableHonest (d.exchange (d.key op.1)) (w op.1) op.2

/-- All nodes after their start. -/
def init (T : IpAddr → TrustEnv n m v) (item : Fin m → TrustRxItem n) (data : Requester n m) :
    IpAddr → ContextState n m v := fun a => KeystoreContexts.init (T a) item data

variable {d : Deployment Priv} {T : IpAddr → TrustEnv n m v} {w : IpAddr → ContextState n m v}

/-- The histories of all nodes are right. -/
def NetworkInv (d : Deployment Priv) (T : IpAddr → TrustEnv n m v)
    (w : IpAddr → ContextState n m v) : Prop :=
  ∀ a, HonestInv (T a) (d.exchange (d.key a)) (w a)

/-- A step of one node keeps them right. -/
theorem NetworkInv.step (h : NetworkInv d T w) {op : IpAddr×KeystoreContexts.Op v n}
    (hop : Admitted w op ∧ HonestKey d w op) : NetworkInv d T (step T w op) := by
  intro a
  by_cases ha : a=op.1
  · subst ha
    rw [OscoreContexts.step,Function.update_self]
    exact (h op.1).step hop.1 hop.2
  · rw [OscoreContexts.step,Function.update_of_ne ha]
    exact h a

/-- A node that is built with other certificates. -/
def withCerts (T : TrustEnv n m v) (rootCert ourCert : Certificate) : TrustEnv n m v :=
  {T with keystore := {T.keystore with rootCert := rootCert, ourCert := ourCert}}

/-- A node that was built for an address of the sample deployment. -/
def sampleNode (a : IpAddr) : TrustEnv 2 2 3 :=
  withCerts sampleTrustEnv (issued sampleDeployment rootIpAddr ⟨6⟩ 0)
    (issued sampleDeployment a ⟨6⟩ (if a=rootIpAddr then 0 else 1))

end Network

end TrustAlloc.OscoreContexts
