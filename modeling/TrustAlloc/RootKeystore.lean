import Mathlib.Data.Sym.Sym2
import Mathlib.Logic.Function.Basic

/-!
# The keystore of the root server

The lookups of `root/keystore.py` with their caches, and `shared_secret`. A
lookup gives what the key directory holds, whatever was looked up before. The
private key that `shared_secret` looks up for `from_address` is not the one it
exchanges with.
-/

namespace TrustAlloc.RootKeystore

section Source

variable (Addr Priv Pub Cert : Type)

/-- The files of a key directory. -/
structure KeyDir where
  /-- The key in `private.pem`. -/
  server : Priv
  /-- The keys in `*-private.pem`. -/
  privateKeys : Addr → Option Priv
  /-- The keys in `*-public.pem`. -/
  publicKeys : Addr → Option Pub
  /-- The files `*-cert.iot-trust-cert`. -/
  certs : Addr → Option Cert

/-- An object of the class `Keystore`. -/
structure Keystore where
  /-- `key_dir` and its files. -/
  keyDir : KeyDir Addr Priv Pub Cert
  /-- The cached public keys. -/
  keystore : Addr → Option Pub
  /-- The cached certificates. -/
  certstore : Addr → Option Cert
  /-- The cached private keys. -/
  privkeystore : Addr → Option Priv
  /-- The server's private key. -/
  privkey : Priv

variable {Addr Priv Pub Cert}

/-- `Keystore.__init__`. -/
def init (dir : KeyDir Addr Priv Pub Cert) : Keystore Addr Priv Pub Cert :=
  ⟨dir,fun _ => none,fun _ => none,fun _ => none,dir.server⟩

/-- What a method raises when a file is missing. -/
inductive Raised where
  /-- `FileNotFoundError`. -/
  | fileNotFound
  deriving DecidableEq

/-- What a method returns or raises, and the object after it. -/
abbrev Result (Addr Priv Pub Cert α : Type) := Except Raised α×Keystore Addr Priv Pub Cert

variable [DecidableEq Addr]

/-- A lookup in a cache that loads what is not there from a file. -/
def lookUp {α : Type} (cache : Keystore Addr Priv Pub Cert → Addr → Option α)
    (setCache : (Addr → Option α) → Keystore Addr Priv Pub Cert → Keystore Addr Priv Pub Cert)
    (load : KeyDir Addr Priv Pub Cert → Addr → Option α) (self : Keystore Addr Priv Pub Cert)
    (requestAddress : Addr) : Result Addr Priv Pub Cert α :=
  match cache self requestAddress with
  | some key => (.ok key,self)
  | none =>
    match load self.keyDir requestAddress with
    | some key => (.ok key,setCache (Function.update (cache self) requestAddress (some key)) self)
    | none => (.error .fileNotFound,self)

/-- `Keystore.get_pubkey`. -/
def getPubkey (self : Keystore Addr Priv Pub Cert) (requestAddress : Addr) :
    Result Addr Priv Pub Cert Pub :=
  lookUp (·.keystore) (fun cache self => {self with keystore := cache}) (·.publicKeys) self
    requestAddress

/-- `Keystore._get_privkey`. -/
def getPrivkey (self : Keystore Addr Priv Pub Cert) (requestAddress : Addr) :
    Result Addr Priv Pub Cert Priv :=
  lookUp (·.privkeystore) (fun cache self => {self with privkeystore := cache}) (·.privateKeys)
    self requestAddress

/-- `Keystore.get_cert`. -/
def getCert (self : Keystore Addr Priv Pub Cert) (requestAddress : Addr) :
    Result Addr Priv Pub Cert Cert :=
  lookUp (·.certstore) (fun cache self => {self with certstore := cache}) (·.certs) self
    requestAddress

/-- The private key that `Keystore.shared_secret` chooses first. -/
def chosenPrivkey (self : Keystore Addr Priv Pub Cert) :
    Option Addr → Result Addr Priv Pub Cert Priv
  | none => (.ok self.privkey,self)
  | some fromAddress => getPrivkey self fromAddress

/-- `Keystore.shared_secret`, with the exchange of the keys. The private key
that was chosen is not used. -/
def sharedSecret {Secret : Type} (exchange : Priv → Pub → Secret)
    (self : Keystore Addr Priv Pub Cert) (requestAddress : Addr) (fromAddress : Option Addr) :
    Result Addr Priv Pub Cert Secret :=
  match chosenPrivkey self fromAddress with
  | (.error e,self) => (.error e,self)
  | (.ok _,self) =>
    match getPubkey self requestAddress with
    | (.error e,self) => (.error e,self)
    | (.ok theirPubkey,self) => (.ok (exchange self.privkey theirPubkey),self)

/-- The lookups that may come before. -/
inductive Lookup (Addr : Type) where
  /-- `get_pubkey`. -/
  | pubkey (requestAddress : Addr)
  /-- `_get_privkey`. -/
  | privkey (requestAddress : Addr)
  /-- `get_cert`, which `oscore_ident` calls as well. -/
  | cert (requestAddress : Addr)
  /-- `shared_secret`. -/
  | sharedSecret (requestAddress : Addr) (fromAddress : Option Addr)

/-- The object after a lookup. -/
def after {Secret : Type} (exchange : Priv → Pub → Secret) (self : Keystore Addr Priv Pub Cert) :
    Lookup Addr → Keystore Addr Priv Pub Cert
  | .pubkey requestAddress => (getPubkey self requestAddress).2
  | .privkey requestAddress => (getPrivkey self requestAddress).2
  | .cert requestAddress => (getCert self requestAddress).2
  | .sharedSecret requestAddress fromAddress =>
    (sharedSecret exchange self requestAddress fromAddress).2

end Source

section Caches

variable {Addr Priv Pub Cert Secret : Type} {dir : KeyDir Addr Priv Pub Cert}
  {ks : Keystore Addr Priv Pub Cert}

/-- The keys that are cached are those of the directory. -/
structure Sound (dir : KeyDir Addr Priv Pub Cert) (ks : Keystore Addr Priv Pub Cert) : Prop where
  /-- The directory stays the same. -/
  keyDir : ks.keyDir=dir
  /-- So does the server's key. -/
  privkey : ks.privkey=dir.server
  /-- Public keys are as in their files. -/
  keystore : ∀ a key, ks.keystore a=some key → dir.publicKeys a=some key
  /-- Private keys are as in their files. -/
  privkeystore : ∀ a key, ks.privkeystore a=some key → dir.privateKeys a=some key

/-- Nothing is cached at first. -/
theorem sound_init (dir : KeyDir Addr Priv Pub Cert) : Sound dir (init dir) :=
  ⟨rfl,rfl,by simp [init],by simp [init]⟩

variable [DecidableEq Addr]

/-- A lookup in a cache that agrees with the files gives what the files hold,
and leaves a cache that agrees with them. -/
theorem lookUp_spec {α : Type} {cache : Keystore Addr Priv Pub Cert → Addr → Option α}
    {setCache : (Addr → Option α) → Keystore Addr Priv Pub Cert → Keystore Addr Priv Pub Cert}
    {load : KeyDir Addr Priv Pub Cert → Addr → Option α}
    (hcache : ∀ a key, cache ks a=some key → load ks.keyDir a=some key)
    (hset : ∀ cache', (∀ a key, cache' a=some key → load ks.keyDir a=some key) →
      Sound dir (setCache cache' ks)) (hself : Sound dir ks) (a : Addr) :
    Sound dir (lookUp cache setCache load ks a).2 ∧
      ∀ key, load ks.keyDir a=some key → (lookUp cache setCache load ks a).1=.ok key := by
  unfold lookUp
  cases hcached : cache ks a with
  | some key =>
    refine ⟨hself,fun key' hkey' => ?_⟩
    have hsame := (hcache a key hcached).symm.trans hkey'
    rw [Option.some.inj hsame]
  | none =>
    cases hload : load ks.keyDir a with
    | none => exact ⟨hself,fun key hkey => by simp at hkey⟩
    | some key =>
      refine ⟨hset _ fun b key' hb => ?_,fun key' hkey' => by rw [Option.some.inj hkey']⟩
      by_cases hba : b=a
      · rw [hba,Function.update_self] at hb
        rw [hba,hload,hb]
      · rw [Function.update_of_ne hba] at hb
        exact hcache b key' hb

variable (h : Sound dir ks) (a : Addr)

include h

/-- Looking up a public key. -/
theorem Sound.getPubkey : Sound dir (getPubkey ks a).2 ∧
    ∀ key, dir.publicKeys a=some key → (RootKeystore.getPubkey ks a).1=.ok key := by
  obtain ⟨rfl,hprivkey,hkeystore,hprivkeystore⟩ := h
  have hset : ∀ cache', (∀ a key, cache' a=some key → ks.keyDir.publicKeys a=some key) →
      Sound ks.keyDir {ks with keystore := cache'} :=
    fun cache' hcache' => ⟨rfl,hprivkey,hcache',hprivkeystore⟩
  exact lookUp_spec hkeystore hset ⟨rfl,hprivkey,hkeystore,hprivkeystore⟩ a

/-- Looking up a private key. -/
theorem Sound.getPrivkey : Sound dir (getPrivkey ks a).2 ∧
    ∀ key, dir.privateKeys a=some key → (RootKeystore.getPrivkey ks a).1=.ok key := by
  obtain ⟨rfl,hprivkey,hkeystore,hprivkeystore⟩ := h
  have hset : ∀ cache', (∀ a key, cache' a=some key → ks.keyDir.privateKeys a=some key) →
      Sound ks.keyDir {ks with privkeystore := cache'} :=
    fun cache' hcache' => ⟨rfl,hprivkey,hkeystore,hcache'⟩
  exact lookUp_spec hprivkeystore hset ⟨rfl,hprivkey,hkeystore,hprivkeystore⟩ a

/-- Looking up a certificate. -/
theorem Sound.getCert : Sound dir (getCert ks a).2 := by
  obtain ⟨rfl,hprivkey,hkeystore,hprivkeystore⟩ := h
  unfold RootKeystore.getCert lookUp
  split
  · exact ⟨rfl,hprivkey,hkeystore,hprivkeystore⟩
  · split <;> exact ⟨rfl,hprivkey,hkeystore,hprivkeystore⟩

/-- Choosing a private key. -/
theorem Sound.chosenPrivkey (fromAddress : Option Addr) :
    Sound dir (chosenPrivkey ks fromAddress).2 ∧
      ((∀ b, fromAddress=some b → ∃ key, dir.privateKeys b=some key) →
        ∃ key, (RootKeystore.chosenPrivkey ks fromAddress).1=.ok key) := by
  cases fromAddress with
  | none => exact ⟨h,fun _ => ⟨_,rfl⟩⟩
  | some b =>
    obtain ⟨hsound,hpriv⟩ := h.getPrivkey b
    refine ⟨hsound,fun hb => ?_⟩
    obtain ⟨key,hkey⟩ := hb b rfl
    exact ⟨key,hpriv key hkey⟩

/-- A secret is computed with the server's key, whoever asks for it. -/
theorem Sound.sharedSecret (exchange : Priv → Pub → Secret) (fromAddress : Option Addr) :
    Sound dir (sharedSecret exchange ks a fromAddress).2 ∧
      ((∀ b, fromAddress=some b → ∃ key, dir.privateKeys b=some key) →
        ∀ key, dir.publicKeys a=some key →
          (RootKeystore.sharedSecret exchange ks a fromAddress).1=
            .ok (exchange dir.server key)) := by
  obtain ⟨hsound₁,hpriv⟩ := h.chosenPrivkey fromAddress
  unfold RootKeystore.sharedSecret
  rcases hchosen : RootKeystore.chosenPrivkey ks fromAddress with ⟨result₁,ks₁⟩
  rw [hchosen] at hsound₁ hpriv
  obtain ⟨hsound,hpub⟩ := hsound₁.getPubkey a
  cases result₁ with
  | error e =>
    refine ⟨hsound₁,fun hb => ?_⟩
    obtain ⟨key,hkey⟩ := hpriv hb
    simp at hkey
  | ok _ =>
    dsimp only at hsound hpub ⊢
    rcases hget : RootKeystore.getPubkey ks₁ a with ⟨result,ks₂⟩
    rw [hget] at hsound hpub
    cases result with
    | error e =>
      refine ⟨hsound,fun _ key hkey => ?_⟩
      have hok := hpub key hkey
      simp at hok
    | ok key =>
      refine ⟨hsound,fun _ key' hkey' => ?_⟩
      dsimp only at hsound hpub ⊢
      rw [hsound.privkey,Except.ok.inj (hpub key' hkey')]

/-- Lookups leave the caches as the files have it. -/
theorem Sound.lookups (exchange : Priv → Pub → Secret) (earlier : List (Lookup Addr)) :
    Sound dir (earlier.foldl (after exchange) ks) := by
  induction earlier generalizing ks with
  | nil => exact h
  | cons lookup earlier ih =>
    rw [List.foldl_cons]
    cases lookup with
    | pubkey a => exact ih (h.getPubkey a).1
    | privkey a => exact ih (h.getPrivkey a).1
    | cert a => exact ih (h.getCert a)
    | sharedSecret a b => exact ih (h.sharedSecret a exchange b).1

end Caches
section Secrets

variable {Addr Priv Pub Cert : Type} [DecidableEq Addr]

/-- Each address has a key pair whose keys belong together. -/
def Matching (pub : Priv → Pub) (dir : KeyDir Addr Priv Pub Cert) : Prop :=
  ∀ a, ∃ x, dir.privateKeys a=some x ∧ dir.publicKeys a=some (pub x)

/-- Both ends of an exchange get the same secret. -/
def SymmetricExchange {Secret : Type} (pub : Priv → Pub) (exchange : Priv → Pub → Secret) : Prop :=
  ∀ x y, exchange x (pub y)=exchange y (pub x)

/-- A keystore after some lookups. -/
def lookedUp {Secret : Type} (exchange : Priv → Pub → Secret) (dir : KeyDir Addr Priv Pub Cert)
    (earlier : List (Lookup Addr)) : Keystore Addr Priv Pub Cert :=
  earlier.foldl (after exchange) (init dir)

/-- For every exchange of keys and after all lookups, two addresses share a
secret whichever of them is asked for, and the secret for one of them is the one
that it computes with the server's public key. -/
def SecretsAgree (pub : Priv → Pub) (dir : KeyDir Addr Priv Pub Cert) (a b : Addr) : Prop :=
  ∀ (Secret : Type) (exchange : Priv → Pub → Secret), SymmetricExchange pub exchange →
    ∀ earlier earlier' : List (Lookup Addr),
      (sharedSecret exchange (lookedUp exchange dir earlier) a (some b)).1=
        (sharedSecret exchange (lookedUp exchange dir earlier') b (some a)).1 ∧
      ∀ x, dir.privateKeys a=some x →
        (sharedSecret exchange (lookedUp exchange dir earlier) a none).1=
          .ok (exchange x (pub dir.server))

variable {pub : Priv → Pub} {dir : KeyDir Addr Priv Pub Cert}

/-- The secret after some lookups is that of the server. -/
theorem sharedSecret_lookedUp (hdir : Matching pub dir) {Secret : Type}
    (exchange : Priv → Pub → Secret) (earlier : List (Lookup Addr)) (a : Addr)
    (fromAddress : Option Addr) {key : Pub} (hkey : dir.publicKeys a=some key) :
    (sharedSecret exchange (lookedUp exchange dir earlier) a fromAddress).1=
      .ok (exchange dir.server key) := by
  have hsound := (sound_init dir).lookups exchange earlier
  refine (hsound.sharedSecret a exchange fromAddress).2 (fun b _ => ?_) key hkey
  obtain ⟨x,hx,_⟩ := hdir b
  exact ⟨x,hx⟩

/-- The exchange that tells every two public keys from every other two. -/
def pairOf (pub : Priv → Pub) (x : Priv) (key : Pub) : Sym2 Pub := s(pub x,key)

/-- It is symmetric. -/
theorem symmetricExchange_pairOf (pub : Priv → Pub) : SymmetricExchange pub (pairOf pub) :=
  fun _ _ => Sym2.eq_swap

/-- `shared_secret` is right for an address on its own. For two addresses it is
symmetric exactly when they have the same public key, as it never uses the
private key of the address that it is asked on behalf of. -/
theorem secretsAgree_iff (pub : Priv → Pub) (dir : KeyDir Addr Priv Pub Cert)
    (hdir : Matching pub dir) (a b : Addr) :
    SecretsAgree pub dir a b ↔ dir.publicKeys a=dir.publicKeys b := by
  obtain ⟨x,hx,hpubx⟩ := hdir a
  obtain ⟨y,hy,hpuby⟩ := hdir b
  constructor
  · intro h
    have hpair := (h (Sym2 Pub) (pairOf pub) (symmetricExchange_pairOf pub) [] []).1
    rw [sharedSecret_lookedUp hdir _ [] a (some b) hpubx,
      sharedSecret_lookedUp hdir _ [] b (some a) hpuby,Except.ok.injEq] at hpair
    rw [hpubx,hpuby,Sym2.congr_right.mp hpair]
  · intro hsame Secret exchange hexchange earlier earlier'
    constructor
    · rw [sharedSecret_lookedUp hdir exchange earlier a (some b) hpubx,
        sharedSecret_lookedUp hdir exchange earlier' b (some a) (hsame.symm.trans hpubx)]
    · intro x' hx'
      rw [sharedSecret_lookedUp hdir exchange earlier a none hpubx,
        Option.some.inj (hx'.symm.trans hx),hexchange]

/-- Keys of a small group: the public key is a power of five. -/
def smallPub (x : ℕ) : ℕ := 5^x%23

/-- The server and three nodes. The last two have the same key. -/
def smallDir : KeyDir ℕ ℕ ℕ Unit where
  server := 7
  privateKeys a := some (if a=0 then 15 else 4)
  publicKeys a := some (smallPub (if a=0 then 15 else 4))
  certs _ := none

/-- The keys of the small directory belong together. -/
theorem matching_smallDir : Matching smallPub smallDir := fun _ => ⟨_,rfl,rfl⟩

/-- With the same key it makes no difference who asks. -/
theorem secretsAgree_iff_same : SecretsAgree smallPub smallDir 1 2 :=
  (secretsAgree_iff smallPub smallDir matching_smallDir 1 2).mpr rfl

/-- Raising to a power is a symmetric exchange, and two nodes with different
keys do not get the same secret from the keystore. -/
theorem not_secretsAgree :
    SymmetricExchange smallPub (fun x key => key^x%23) ∧
      (sharedSecret (fun x key => key^x%23) (init smallDir) 0 (some 1)).1=.ok 15 ∧
      (sharedSecret (fun x key => key^x%23) (init smallDir) 1 (some 0)).1=.ok 8 ∧
      ¬SecretsAgree smallPub smallDir 0 1 := by
  have hexchange : SymmetricExchange smallPub (fun x key : ℕ => key^x%23) := by
    intro x y
    simp only [smallPub,←Nat.pow_mod,←Nat.pow_mul,Nat.mul_comm]
  refine ⟨hexchange,by decide,by decide,fun h => ?_⟩
  have hsame := (h ℕ (fun x key => key^x%23) hexchange [] []).1
  exact absurd hsame (by decide)

end Secrets

end TrustAlloc.RootKeystore
