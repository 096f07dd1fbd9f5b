import TrustAlloc.AddressConversions
import TrustAlloc.CborReading
import TrustAlloc.CertificateCodec
import TrustAlloc.Ipv6Text
import TrustAlloc.RootKeystore
import Mathlib.Data.List.Sort
import Mathlib.Data.Set.List

/-!
# The key directory of a deployment

`setup.py` makes a key and a certificate for every address of a deployment and
writes them to files that are named by the address. The keystore of the root
server reads them back: which addresses there are it learns from the names of
the files. Keys are made from the text of an address; how, and what is written
of them, is a parameter.
-/

namespace TrustAlloc.KeyFiles

open AddressConversions Addresses CertificateCodec Certificates EdgeInfo Ipv6Text RootKeystore

section Names

/-- `text.replace(old, new)`, for single characters. -/
def replaceChar (old new : UInt8) (text : List UInt8) : List UInt8 :=
  text.map fun c => if c=old then new else c

/-- `ip_name`. -/
def ipName (ip : IpAddr) : List UInt8 := replaceChar 0x3A 0x5F (str ip)

/-- The ending `-private.pem`. -/
def privateSuffix : List UInt8 :=
  [0x2D,0x70,0x72,0x69,0x76,0x61,0x74,0x65,0x2E,0x70,0x65,0x6D]

/-- The ending `-public.pem`. -/
def publicSuffix : List UInt8 := [0x2D,0x70,0x75,0x62,0x6C,0x69,0x63,0x2E,0x70,0x65,0x6D]

/-- The ending `-cert.iot-trust-cert`. -/
def certSuffix : List UInt8 :=
  [0x2D,0x63,0x65,0x72,0x74,0x2E,0x69,0x6F,0x74,0x2D,0x74,0x72,0x75,0x73,0x74,0x2D,0x63,0x65,
    0x72,0x74]

/-- `private.pem`. -/
def serverName : List UInt8 := privateSuffix.tail

/-- `Keystore._addr_to_path`, without the directory. -/
def addrToPath (requestAddress : IpAddr) (suffix : List UInt8) : List UInt8 :=
  ipName requestAddress++suffix

/-- What `Keystore.list_addresses` does with the name of an entry. -/
def entryAddress (name : List UInt8) : Option (List ℕ⊕IpAddr) :=
  ipAddress (replaceChar 0x5F 0x3A (name.take (name.length-publicSuffix.length)))

/-- `Keystore.list_addresses`, over the names of the entries; nothing where it
raises. -/
def listAddresses (entries : List (List UInt8)) : Option (List (List ℕ⊕IpAddr)) :=
  (entries.filter fun name => publicSuffix.isSuffixOf name).mapM entryAddress

end Names

section Setup

variable (Priv : Type)

/-- What `setup.py` is configured with, and the cryptography that it uses. -/
structure Deployment where
  /-- `hostname_to_ips`. -/
  ips : List (List UInt8×IpAddr)
  /-- `device_stereotypes`. -/
  deviceStereotypes : List UInt8 → {tags : StereotypeTags // ValidClass tags}
  /-- `derive_private_key`, of the text of an address. -/
  derivePrivateKey : List UInt8 → Priv
  /-- The public key of a private key. -/
  publicKey : Priv → PublicKey
  /-- ECDSA with a private key. -/
  sign : Priv → List UInt8 → Signature
  /-- ECDH of a private key and a public key. -/
  exchange : Priv → PublicKey → List UInt8
  /-- `cbor2.dumps`. -/
  dumps : Cbor.Item → List UInt8
  /-- `cbor2.loads`; nothing where it raises. -/
  loads : List UInt8 → Option Cbor.Item
  /-- Different hosts have different addresses. -/
  distinct : (ips.map Prod.snd).Nodup
  /-- The root is one of them. -/
  root : rootIpAddr∈ips.map Prod.snd
  /-- They can be numbered. -/
  count : ips.length < 2^32
  /-- Items are encoded in the shortest form. -/
  canonical : Cbor.Canonical dumps
  /-- They are read back from it. -/
  readsBack : Cbor.ReadsBack loads

/-- A file of the key directory. -/
inductive File where
  /-- A private key. -/
  | privatePem (key : Priv)
  /-- A public key. -/
  | publicPem (key : PublicKey)
  /-- A certificate. -/
  | cert (bytes : List UInt8)

variable {Priv}

/-- `self.keys[ip]`, made by `generate_and_save_key`. -/
def Deployment.key (d : Deployment Priv) (ip : IpAddr) : Priv := d.derivePrivateKey (str ip)

/-- `save_key`. -/
def saveKey (d : Deployment Priv) (ip : IpAddr) : List (List UInt8×File Priv) :=
  [(addrToPath ip privateSuffix,.privatePem (d.key ip)),
    (addrToPath ip publicSuffix,.publicPem (d.publicKey (d.key ip)))]

/-- `_build_keystore`. -/
def buildKeystore (d : Deployment Priv) : List (List UInt8×File Priv) :=
  (d.ips.flatMap fun host => saveKey d host.2)++[(serverName,.privatePem (d.key rootIpAddr))]

/-- `create_certificate` for a subject, with a serial number. -/
def createCertificate (d : Deployment Priv) (subject : IpAddr)
    (stereotypeTags : StereotypeTags) (serialNumber : ℕ) : SignedCertificate :=
  let tbscert : TBSCertificate := {
    serialNumber := serialNumber
    issuer := (ipToEui64 rootIpAddr).toList
    validityFrom := 0
    validityTo := 0xFFFFFFFF
    subject := (ipToEui64 subject).toList
    deviceClass := stereotypeTags.deviceClass.toNat
    publicKey := (d.publicKey (d.key subject)).bytes}
  tbscert.build d.dumps (d.sign (d.key rootIpAddr))

/-- `sorted(ips.items(), key=lambda x: x[0])`. -/
def Deployment.sorted (d : Deployment Priv) : List (List UInt8×IpAddr) :=
  d.ips.insertionSort fun a b => a.1≤b.1

/-- `self.certs`, made by `_create_certificates`. -/
def Deployment.certs (d : Deployment Priv) : List (IpAddr×SignedCertificate) :=
  d.sorted.zipIdx.map fun host =>
    (host.1.2,createCertificate d host.1.2 (d.deviceStereotypes host.1.1).1 host.2)

/-- What `_create_certificates` writes. -/
def createCertificates (d : Deployment Priv) : List (List UInt8×File Priv) :=
  d.certs.map fun c => (addrToPath c.1 certSuffix,.cert (c.2.encode d.dumps))

/-- The files of the key directory, in the order they are written. -/
def written (d : Deployment Priv) : List (List UInt8×File Priv) :=
  buildKeystore d++createCertificates d

/-- `validity_to`, without one: the largest number. -/
def validityTo : Cbor.Item → Option ℕ
  | .uint v => some v
  | .null => some 0xFFFFFFFF
  | _ => none

/-- `SignedCertificate.decode`, with the checks of the two constructors. -/
def signedDecode (loads : List UInt8 → Option Cbor.Item) (data : List UInt8) :
    Option SignedCertificate :=
  match loads data with
  | some (.array (.array (.uint serialNumber::.bytes issuer::
      .array (.uint validityFrom::last::_)::.bytes subject::.array (.uint deviceClass::_)::
        .bytes publicKey::_)::.bytes signature::_)) =>
    if publicKey.length=64 ∧ 1≤deviceClass ∧ deviceClass≤8 then
      (validityTo last).map fun validityTo =>
        ⟨⟨serialNumber,issuer,validityFrom,validityTo,subject,deviceClass,publicKey⟩,signature⟩
    else none
  | _ => none

/-- `self.certs[ip]`. -/
def Deployment.certOf (d : Deployment Priv) (ip : IpAddr) : Option SignedCertificate :=
  (d.certs.find? fun c => decide (c.1=ip)).map (·.2)

/-- What is in a file: what was written last under its name. -/
def contents (files : List (List UInt8×File Priv)) (name : List UInt8) : Option (File Priv) :=
  (files.reverse.find? fun f => decide (f.1=name)).map (·.2)

/-- A private key in a file, for `_load_privkey`. -/
def File.privkey : File Priv → Option Priv
  | .privatePem key => some key
  | _ => none

/-- A public key in a file, for `_load_pubkey`. -/
def File.pubkey : File Priv → Option PublicKey
  | .publicPem key => some key
  | _ => none

/-- The bytes of a certificate, for `_load_cert`. -/
def File.bytes : File Priv → Option (List UInt8)
  | .cert bytes => some bytes
  | _ => none

/-- A key directory as a keystore sees it; none if there is no `private.pem`. -/
def keyDir (files : List (List UInt8×File Priv)) :
    Option (KeyDir IpAddr Priv PublicKey (List UInt8)) :=
  ((contents files serverName).bind File.privkey).map fun server => {
    server := server
    privateKeys := fun a => (contents files (addrToPath a privateSuffix)).bind File.privkey
    publicKeys := fun a => (contents files (addrToPath a publicSuffix)).bind File.pubkey
    certs := fun a => (contents files (addrToPath a certSuffix)).bind File.bytes}

end Setup

section Paths

/-- No underscore and no dash is in the text of an address. -/
theorem str_plain (a : IpAddr) : 0x5F∉str a ∧ 0x2D∉str a := by
  have hother : ∀ c : UInt8, c≠0x3A → hexValue c=none → c∉str a := fun c hcolon hdigit h =>
    (str_characters h).elim hcolon fun hvalue => hvalue hdigit
  exact ⟨hother 0x5F (by decide) rfl,hother 0x2D (by decide) rfl⟩

/-- Replacing a character and replacing it back. -/
theorem replaceChar_replaceChar {old new : UInt8} {text : List UInt8} (h : new∉text) :
    replaceChar new old (replaceChar old new text)=text := by
  unfold replaceChar
  rw [List.map_map]
  refine (List.map_congr_left fun c hc => ?_).trans (List.map_id text)
  have hne : c≠new := fun hnew => h (hnew ▸ hc)
  by_cases hold : c=old
  · simp [hold]
  · simp [hold,hne]

/-- The name of an address is turned back into its text. -/
theorem replaceChar_ipName (a : IpAddr) : replaceChar 0x5F 0x3A (ipName a)=str a :=
  replaceChar_replaceChar (str_plain a).1

/-- No dash is in a name. -/
theorem ipName_plain (a : IpAddr) : 0x2D∉ipName a := by
  intro h
  obtain ⟨c,hc,hdash⟩ := List.mem_map.mp h
  by_cases hcolon : c=0x3A
  · rw [if_pos hcolon] at hdash
    exact absurd hdash (by decide)
  · rw [if_neg hcolon] at hdash
    exact (str_plain a).2 (hdash ▸ hc)

/-- Different addresses have different names. -/
theorem ipName_injective : Function.Injective ipName := by
  intro a b h
  have htext := replaceChar_ipName a
  rw [h,replaceChar_ipName b] at htext
  exact (str_injective htext).symm

/-- What is in front of the first dash. -/
theorem takeWhile_dash {text : List UInt8} (h : 0x2D∉text) (rest : List UInt8) :
    (text++0x2D::rest).takeWhile (fun c => decide (c≠0x2D))=text := by
  have hpos : ∀ c∈text, decide (c≠0x2D)=true := fun c hc =>
    decide_eq_true fun hdash => h (hdash ▸ hc)
  rw [List.takeWhile_append_of_pos hpos,List.takeWhile_cons_of_neg (by decide),List.append_nil]

/-- A path tells its address and its ending. -/
theorem addrToPath_inj {a b : IpAddr} {s t : List UInt8} (hs : s.head?=some 0x2D)
    (ht : t.head?=some 0x2D) : addrToPath a s=addrToPath b t ↔ a=b ∧ s=t := by
  refine ⟨fun h => ?_,fun h => h.1 ▸ h.2 ▸ rfl⟩
  obtain ⟨s,rfl⟩ := List.head?_eq_some_iff.mp hs
  obtain ⟨t,rfl⟩ := List.head?_eq_some_iff.mp ht
  have hnames := congrArg (List.takeWhile fun c => decide (c≠0x2D)) h
  rw [addrToPath,addrToPath,takeWhile_dash (ipName_plain a),takeWhile_dash (ipName_plain b)]
    at hnames
  rw [addrToPath,addrToPath,hnames] at h
  exact ⟨ipName_injective hnames,List.append_cancel_left h⟩

/-- The server's key is not taken for that of an address. -/
theorem addrToPath_ne_serverName (a : IpAddr) {s : List UInt8} (hs : s.head?=some 0x2D) :
    addrToPath a s≠serverName := by
  intro h
  obtain ⟨s,rfl⟩ := List.head?_eq_some_iff.mp hs
  have hdash : 0x2D∈serverName := h ▸ List.mem_append_right _ List.mem_cons_self
  exact absurd hdash (by decide)

/-- The address in the name of a public key. -/
theorem entryAddress_public (a : IpAddr) :
    entryAddress (addrToPath a publicSuffix)=some (.inr a) := by
  rw [entryAddress,addrToPath,List.length_append,Nat.add_sub_cancel,List.take_left,
    replaceChar_ipName,ipAddress_str]

/-- Which names are those of public keys. -/
theorem isSuffixOf_addrToPath (a : IpAddr) :
    publicSuffix.isSuffixOf (addrToPath a publicSuffix)=true ∧
      publicSuffix.isSuffixOf (addrToPath a privateSuffix)=false ∧
        publicSuffix.isSuffixOf (addrToPath a certSuffix)=false := by
  simp only [addrToPath,List.isSuffixOf,List.reverse_append]
  exact ⟨rfl,rfl,rfl⟩

end Paths

section Files

variable {Priv : Type} {files : List (List UInt8×File Priv)} {name : List UInt8}

/-- A file is read if all that was written under its name is the same. -/
theorem contents_eq {f : File Priv} (hmem : (name,f)∈files)
    (hsame : ∀ g, (name,g)∈files → g=f) : contents files name=some f := by
  unfold contents
  cases hfind : files.reverse.find? fun f => decide (f.1=name) with
  | none =>
    have hnone := List.find?_eq_none.mp hfind (name,f) (List.mem_reverse.mpr hmem)
    simp at hnone
  | some g =>
    have hname : g.1=name := by simpa using List.find?_some hfind
    have hg := List.mem_reverse.mp (List.mem_of_find?_eq_some hfind)
    rw [Option.map_some,hsame g.2 (hname ▸ hg)]

/-- There is no file that was not written. -/
theorem contents_none (hnone : ∀ g, (name,g)∉files) : contents files name=none := by
  unfold contents
  rw [Option.map_eq_none_iff,List.find?_eq_none]
  intro f hf hname
  exact hnone f.2 (of_decide_eq_true hname ▸ List.mem_reverse.mp hf)

variable (d : Deployment Priv)

/-- The files that are written. -/
theorem mem_written {f : File Priv} : (name,f)∈written d ↔
    (∃ a∈d.ips.map Prod.snd, name=addrToPath a privateSuffix ∧ f=.privatePem (d.key a)) ∨
      (∃ a∈d.ips.map Prod.snd, name=addrToPath a publicSuffix ∧
        f=.publicPem (d.publicKey (d.key a))) ∨
        (name=serverName ∧ f=.privatePem (d.key rootIpAddr)) ∨
          ∃ c∈d.certs, name=addrToPath c.1 certSuffix ∧ f=.cert (c.2.encode d.dumps) := by
  simp only [written,buildKeystore,createCertificates,saveKey,List.mem_append,List.mem_flatMap,
    List.mem_map,List.mem_cons,List.not_mem_nil,or_false,Prod.mk.injEq]
  constructor
  · rintro ((⟨host,hhost,h | h⟩ | h) | ⟨c,hc,h,rfl⟩)
    · exact Or.inl ⟨host.2,⟨host,hhost,rfl⟩,h⟩
    · exact Or.inr (Or.inl ⟨host.2,⟨host,hhost,rfl⟩,h⟩)
    · exact Or.inr (Or.inr (Or.inl h))
    · exact Or.inr (Or.inr (Or.inr ⟨c,hc,h.symm,rfl⟩))
  · rintro (⟨a,⟨host,hhost,rfl⟩,h⟩ | ⟨a,⟨host,hhost,rfl⟩,h⟩ | h | ⟨c,hc,rfl,rfl⟩)
    · exact Or.inl (Or.inl ⟨host,hhost,Or.inl h⟩)
    · exact Or.inl (Or.inl ⟨host,hhost,Or.inr h⟩)
    · exact Or.inl (Or.inr h)
    · exact Or.inr ⟨c,hc,rfl,rfl⟩

/-- The certificates are those of the addresses, each just once. -/
theorem certs_addresses : (d.certs.map Prod.fst).Perm (d.ips.map Prod.snd) := by
  have hfirst : d.certs.map Prod.fst=d.sorted.map Prod.snd := by
    rw [Deployment.certs,List.map_map]
    show d.sorted.zipIdx.map (Prod.snd∘Prod.fst)=_
    rw [←List.map_map,List.zipIdx_map_fst]
  rw [hfirst]
  exact (List.perm_insertionSort _ d.ips).map Prod.snd

/-- There is one certificate for an address. -/
theorem certs_unique {c c' : IpAddr×SignedCertificate} (hc : c∈d.certs) (hc' : c'∈d.certs)
    (h : c.1=c'.1) : c=c' :=
  List.inj_on_of_nodup_map ((certs_addresses d).nodup_iff.mpr d.distinct) hc hc' h

/-- It is the one that is looked up. -/
theorem certOf_eq {c : IpAddr×SignedCertificate} (hc : c∈d.certs) : d.certOf c.1=some c.2 := by
  unfold Deployment.certOf
  cases hfind : d.certs.find? fun c' => decide (c'.1=c.1) with
  | none =>
    have hnone := List.find?_eq_none.mp hfind c hc
    simp at hnone
  | some c' =>
    have haddress : c'.1=c.1 := by simpa using List.find?_some hfind
    rw [Option.map_some,certs_unique d (List.mem_of_find?_eq_some hfind) hc haddress]

/-- Without a host there is none. -/
theorem certOf_none {a : IpAddr} (h : a∉d.ips.map Prod.snd) : d.certOf a=none := by
  unfold Deployment.certOf
  rw [Option.map_eq_none_iff,List.find?_eq_none]
  intro c hc haddress
  have hmem := (certs_addresses d).mem_iff.mp (List.mem_map_of_mem hc)
  exact h (of_decide_eq_true haddress ▸ hmem)

/-- The private key of an address is read. -/
theorem contents_private (a : IpAddr) :
    (contents (written d) (addrToPath a privateSuffix)).bind File.privkey=
      if a∈d.ips.map Prod.snd then some (d.key a) else none := by
  have hcases : ∀ f, (addrToPath a privateSuffix,f)∈written d →
      a∈d.ips.map Prod.snd ∧ f=.privatePem (d.key a) := by
    intro f hf
    rcases (mem_written d).mp hf with ⟨b,hb,h,hfile⟩ | ⟨b,_,h,_⟩ | ⟨h,_⟩ | ⟨c,_,h,_⟩
    · obtain ⟨rfl,-⟩ := (addrToPath_inj rfl rfl).mp h
      exact ⟨hb,hfile⟩
    · exact absurd ((addrToPath_inj rfl rfl).mp h).2 (by decide)
    · exact absurd h (addrToPath_ne_serverName a rfl)
    · exact absurd ((addrToPath_inj rfl rfl).mp h).2 (by decide)
  split_ifs with ha
  · rw [contents_eq ((mem_written d).mpr (Or.inl ⟨a,ha,rfl,rfl⟩)) fun g hg => (hcases g hg).2]
    rfl
  · rw [contents_none fun g hg => ha (hcases g hg).1]
    rfl

/-- So is its public key. -/
theorem contents_public (a : IpAddr) :
    (contents (written d) (addrToPath a publicSuffix)).bind File.pubkey=
      if a∈d.ips.map Prod.snd then some (d.publicKey (d.key a)) else none := by
  have hcases : ∀ f, (addrToPath a publicSuffix,f)∈written d →
      a∈d.ips.map Prod.snd ∧ f=.publicPem (d.publicKey (d.key a)) := by
    intro f hf
    rcases (mem_written d).mp hf with ⟨b,_,h,_⟩ | ⟨b,hb,h,hfile⟩ | ⟨h,_⟩ | ⟨c,_,h,_⟩
    · exact absurd ((addrToPath_inj rfl rfl).mp h).2 (by decide)
    · obtain ⟨rfl,-⟩ := (addrToPath_inj rfl rfl).mp h
      exact ⟨hb,hfile⟩
    · exact absurd h (addrToPath_ne_serverName a rfl)
    · exact absurd ((addrToPath_inj rfl rfl).mp h).2 (by decide)
  split_ifs with ha
  · rw [contents_eq ((mem_written d).mpr (Or.inr (Or.inl ⟨a,ha,rfl,rfl⟩)))
      fun g hg => (hcases g hg).2]
    rfl
  · rw [contents_none fun g hg => ha (hcases g hg).1]
    rfl

/-- So is its certificate. -/
theorem contents_cert (a : IpAddr) :
    (contents (written d) (addrToPath a certSuffix)).bind File.bytes=
      (d.certOf a).map (SignedCertificate.encode d.dumps) := by
  have hcases : ∀ f, (addrToPath a certSuffix,f)∈written d →
      ∃ c∈d.certs, a=c.1 ∧ f=.cert (c.2.encode d.dumps) := by
    intro f hf
    rcases (mem_written d).mp hf with ⟨b,_,h,_⟩ | ⟨b,_,h,_⟩ | ⟨h,_⟩ | ⟨c,hc,h,hfile⟩
    · exact absurd ((addrToPath_inj rfl rfl).mp h).2 (by decide)
    · exact absurd ((addrToPath_inj rfl rfl).mp h).2 (by decide)
    · exact absurd h (addrToPath_ne_serverName a rfl)
    · exact ⟨c,hc,((addrToPath_inj rfl rfl).mp h).1,hfile⟩
  by_cases ha : a∈d.ips.map Prod.snd
  · obtain ⟨c,hc,rfl⟩ := List.mem_map.mp ((certs_addresses d).mem_iff.mpr ha)
    have hmem : (addrToPath c.1 certSuffix,File.cert (c.2.encode d.dumps))∈written d :=
      (mem_written d).mpr (Or.inr (Or.inr (Or.inr ⟨c,hc,rfl,rfl⟩)))
    have hsame : ∀ g, (addrToPath c.1 certSuffix,g)∈written d → g=.cert (c.2.encode d.dumps) := by
      intro g hg
      obtain ⟨c',hc',haddress,hfile⟩ := hcases g hg
      rw [hfile,certs_unique d hc hc' haddress]
    rw [contents_eq hmem hsame,certOf_eq d hc]
    rfl
  · have hnone : ∀ g, (addrToPath a certSuffix,g)∉written d := by
      intro g hg
      obtain ⟨c,hc,rfl,-⟩ := hcases g hg
      exact ha ((certs_addresses d).mem_iff.mp (List.mem_map_of_mem hc))
    rw [contents_none hnone,certOf_none d ha]
    rfl

/-- The server's key is that of the root. -/
theorem contents_server :
    (contents (written d) serverName).bind File.privkey=some (d.key rootIpAddr) := by
  have hsame : ∀ g, (serverName,g)∈written d → g=.privatePem (d.key rootIpAddr) := by
    intro g hg
    rcases (mem_written d).mp hg with ⟨b,_,h,_⟩ | ⟨b,_,h,_⟩ | ⟨_,hfile⟩ | ⟨c,_,h,_⟩
    · exact absurd h.symm (addrToPath_ne_serverName b rfl)
    · exact absurd h.symm (addrToPath_ne_serverName b rfl)
    · exact hfile
    · exact absurd h.symm (addrToPath_ne_serverName c.1 rfl)
  rw [contents_eq ((mem_written d).mpr (Or.inr (Or.inr (Or.inl ⟨rfl,rfl⟩)))) hsame]
  rfl

/-- What a keystore sees of the files of a deployment. -/
def deployed (d : Deployment Priv) : KeyDir IpAddr Priv PublicKey (List UInt8) where
  server := d.key rootIpAddr
  privateKeys a := if (d.ips.map Prod.snd).contains a then some (d.key a) else none
  publicKeys a := if (d.ips.map Prod.snd).contains a then some (d.publicKey (d.key a)) else none
  certs a := (d.certOf a).map (SignedCertificate.encode d.dumps)

/-- The private keys are those of the hosts. -/
theorem deployed_privateKeys (a : IpAddr) : (deployed d).privateKeys a=
    if a∈d.ips.map Prod.snd then some (d.key a) else none := by
  simp only [deployed,List.contains_iff_mem]

/-- So are the public keys. -/
theorem deployed_publicKeys (a : IpAddr) : (deployed d).publicKeys a=
    if a∈d.ips.map Prod.snd then some (d.publicKey (d.key a)) else none := by
  simp only [deployed,List.contains_iff_mem]

/-- The files say so. -/
theorem keyDir_written : keyDir (written d)=some (deployed d) := by
  simp only [keyDir,contents_server,contents_private,contents_public,contents_cert,
    Option.map_some,deployed,List.contains_iff_mem]

end Files

section Entries

variable {Priv : Type} (d : Deployment Priv)

/-- The names that `list_addresses` looks at. -/
theorem filter_written : ((written d).map Prod.fst).filter (publicSuffix.isSuffixOf ·)=
    (d.ips.map Prod.snd).map fun a => addrToPath a publicSuffix := by
  have hkeys : ((d.ips.flatMap fun host => saveKey d host.2).map Prod.fst).filter
      (publicSuffix.isSuffixOf ·)=(d.ips.map Prod.snd).map fun a => addrToPath a publicSuffix := by
    induction d.ips with
    | nil => rfl
    | cons host ips ih =>
      obtain ⟨hpublic,hprivate,-⟩ := isSuffixOf_addrToPath host.2
      rw [List.flatMap_cons,List.map_append,List.filter_append,ih]
      simp [saveKey,hpublic,hprivate]
  have hcerts : ((createCertificates d).map Prod.fst).filter (publicSuffix.isSuffixOf ·)=[] := by
    rw [List.filter_eq_nil_iff]
    intro name hname
    obtain ⟨f,hf,rfl⟩ := List.mem_map.mp hname
    obtain ⟨c,-,rfl⟩ := List.mem_map.mp hf
    rw [(isSuffixOf_addrToPath c.1).2.2]
    decide
  rw [written,buildKeystore,List.map_append,List.map_append,List.filter_append,List.filter_append,
    hkeys,hcerts,List.append_nil]
  exact List.append_nil _

/-- Public keys make the addresses. -/
theorem listAddresses_perm {entries others : List (List UInt8)}
    (hothers : ∀ name∈others, publicSuffix.isSuffixOf name=false)
    (hentries : entries.Perm ((written d).map Prod.fst++others)) :
    ∃ addresses : List IpAddr, listAddresses entries=some (addresses.map .inr) ∧
      addresses.Perm (d.ips.map Prod.snd) := by
  have hnames : (entries.filter (publicSuffix.isSuffixOf ·)).Perm
      ((d.ips.map Prod.snd).map fun a => addrToPath a publicSuffix) := by
    have hfilter := hentries.filter (publicSuffix.isSuffixOf ·)
    have hnone : others.filter (publicSuffix.isSuffixOf ·)=[] :=
      List.filter_eq_nil_iff.mpr fun name hname => by simp [hothers name hname]
    rwa [List.filter_append,filter_written,hnone,List.append_nil] at hfilter
  have hinjective : Function.Injective fun a => addrToPath a publicSuffix := fun a b h =>
    ((addrToPath_inj rfl rfl).mp h).1
  -- the names are those of some addresses, in another order
  obtain ⟨addresses,hsame⟩ : entries.filter (publicSuffix.isSuffixOf ·)∈
      Set.range (List.map fun a => addrToPath a publicSuffix) := by
    rw [Set.range_list_map]
    intro name hname
    obtain ⟨a,-,ha⟩ := List.mem_map.mp (hnames.mem_iff.mp hname)
    exact ⟨a,ha⟩
  refine ⟨addresses,?_,(List.map_perm_map_iff hinjective).mp (hsame ▸ hnames)⟩
  show (entries.filter (publicSuffix.isSuffixOf ·)).mapM entryAddress=_
  rw [←hsame]
  clear hsame
  induction addresses with
  | nil => rfl
  | cons a addresses ih =>
    rw [List.map_cons,List.mapM_cons,entryAddress_public,ih]
    rfl

end Entries

section Certificates

variable {Priv : Type} (d : Deployment Priv)

/-- The certificate of a subject as the nodes hold it. -/
def issued (subject : IpAddr) (stereotypeTags : StereotypeTags) (serialNumber : ℕ) :
    Certificate where
  serialNumber := UInt32.ofNat serialNumber
  issuer := ipToEui64 rootIpAddr
  subject := ipToEui64 subject
  validityNotBefore := 0
  validityNotAfter := 0xFFFFFFFF
  tags := stereotypeTags
  publicKey := d.publicKey (d.key subject)
  signature := d.sign (d.key rootIpAddr) ((createCertificate d subject stereotypeTags
    serialNumber).toTBSCertificate.encode d.dumps)

/-- Small numbers are kept. -/
theorem createCertificate_eq (subject : IpAddr) (stereotypeTags : StereotypeTags)
    {serialNumber : ℕ} (h : serialNumber < 2^32) :
    createCertificate d subject stereotypeTags serialNumber=
      signedOf (issued d subject stereotypeTags serialNumber) := by
  have hserial : (UInt32.ofNat serialNumber).toNat=serialNumber :=
    UInt32.toNat_ofNat_of_lt' h
  simp only [createCertificate,TBSCertificate.build,signedOf,tbsOf,issued,hserial]
  rfl

/-- The certificates are issued by the root to the addresses. -/
theorem certs_issued {c : IpAddr×SignedCertificate} (hc : c∈d.certs) :
    ∃ tags serialNumber, ValidClass tags ∧ c.2=signedOf (issued d c.1 tags serialNumber) := by
  obtain ⟨⟨host,serial⟩,hhost,rfl⟩ := List.mem_map.mp hc
  have hserial := (List.mem_zipIdx hhost).2.1
  rw [Nat.zero_add,Deployment.sorted,List.length_insertionSort] at hserial
  exact ⟨_,serial,(d.deviceStereotypes host.1).2,
    createCertificate_eq d host.2 _ (hserial.trans d.count)⟩

/-- A certificate is read back. -/
theorem signedDecode_encode (c : Certificate) (hclass : ValidClass c.tags) :
    signedDecode d.loads ((signedOf c).encode d.dumps)=some (signedOf c) := by
  have hkey : c.publicKey.bytes.length=64 := by simp [PublicKey.bytes]
  have hmin := UInt8.le_iff_toNat_le.mp hclass.1
  have hmax := UInt8.le_iff_toNat_le.mp hclass.2
  have hread : d.loads (certificateEncoding c)=
      some (.array [(tbsOf c).fields,.bytes c.signature.bytes]) :=
    d.readsBack _ (fits_signed hclass)
  rw [encode_signedOf d.canonical hclass,signedDecode,hread]
  show (if _ then _ else _)=_
  rw [if_pos ⟨hkey,hmin,hmax⟩]
  rfl

/-- A certificate is the one that was issued to an address. -/
def IssuedTo (a : IpAddr) (cert : Certificate) : Prop := (a,signedOf cert)∈d.certs

/-- A certificate that was issued has the identity and the key of its address. -/
theorem issuedTo_spec {a : IpAddr} {cert : Certificate}
    (h : IssuedTo d a cert) :
    cert.subject=ipToEui64 a ∧ cert.publicKey=d.publicKey (d.key a) := by
  obtain ⟨tags,serial,-,hissued⟩ := certs_issued d h
  have hsubject := congrArg (fun t : SignedCertificate => t.subject) hissued
  have hkey := congrArg (fun t : SignedCertificate => t.publicKey) hissued
  refine ⟨Vector.toList_inj.mp hsubject,?_⟩
  have hbytes : cert.publicKey.bytes=(d.publicKey (d.key a)).bytes := hkey
  rw [←publicKeyOfBytes_bytes cert.publicKey,hbytes,publicKeyOfBytes_bytes]

/-- What is signed of it are the bytes that its signature is made of. -/
theorem issuedTo_signed {a : IpAddr} {cert : Certificate} (h : IssuedTo d a cert) :
    cert.signature.bytes=(d.sign (d.key rootIpAddr) (tbsEncoding cert)).bytes := by
  obtain ⟨tags,serial,hclass,hissued⟩ := certs_issued d h
  have hfields : tbsOf cert=tbsOf (issued d a tags serial) :=
    congrArg SignedCertificate.toTBSCertificate hissued
  have hencoding : (tbsOf cert).encode d.dumps=tbsEncoding cert := by
    rw [tbsEncoding,hfields]
    exact encode_tbsOf d.canonical hclass
  obtain ⟨host,hhost,hpair⟩ := List.mem_map.mp h
  have hcert := congrArg Prod.snd hpair
  have hbody : (createCertificate d host.1.2 (d.deviceStereotypes host.1.1).1
      host.2).toTBSCertificate=tbsOf cert := congrArg SignedCertificate.toTBSCertificate hcert
  have hsignature : (createCertificate d host.1.2 (d.deviceStereotypes host.1.1).1
      host.2).signature=cert.signature.bytes := congrArg SignedCertificate.signature hcert
  rw [←hsignature,←hencoding,←hbody]
  rfl

/-- An address has a certificate exactly if it is that of a host. -/
theorem certOf_isSome_iff (a : IpAddr) :
    (∃ cert, d.certOf a=some cert) ↔ a∈d.ips.map Prod.snd := by
  refine ⟨fun ⟨cert,hcert⟩ => ?_,fun ha => ?_⟩
  · by_contra ha
    rw [certOf_none d ha] at hcert
    exact nomatch hcert
  · obtain ⟨c,hc,rfl⟩ := List.mem_map.mp ((certs_addresses d).mem_iff.mpr ha)
    exact ⟨c.2,certOf_eq d hc⟩

end Certificates

section Lookups

variable {Addr Priv Pub Cert Secret α β : Type} [DecidableEq Addr]
  {dir : KeyDir Addr Priv Pub Cert} {ks : Keystore Addr Priv Pub Cert}

/-- What a lookup says about a file that is there or is not. -/
def found : Option α → Except Raised α
  | some x => .ok x
  | none => .error .fileNotFound

/-- A lookup says what the files say, if its cache does. -/
theorem lookUp_fst {cache : Keystore Addr Priv Pub Cert → Addr → Option α}
    {setCache : (Addr → Option α) → Keystore Addr Priv Pub Cert → Keystore Addr Priv Pub Cert}
    {load : KeyDir Addr Priv Pub Cert → Addr → Option α}
    (hcache : ∀ a key, cache ks a=some key → load ks.keyDir a=some key) (a : Addr) :
    (lookUp cache setCache load ks a).1=found (load ks.keyDir a) := by
  unfold lookUp
  cases hcached : cache ks a with
  | some key => rw [hcache a key hcached,found]
  | none => cases load ks.keyDir a <;> rfl

/-- A lookup leaves alone what its cache is no part of. -/
theorem lookUp_frame {cache : Keystore Addr Priv Pub Cert → Addr → Option α}
    {setCache : (Addr → Option α) → Keystore Addr Priv Pub Cert → Keystore Addr Priv Pub Cert}
    {load : KeyDir Addr Priv Pub Cert → Addr → Option α}
    (view : Keystore Addr Priv Pub Cert → β) (hset : ∀ c, view (setCache c ks)=view ks)
    (a : Addr) : view (lookUp cache setCache load ks a).2=view ks := by
  unfold lookUp
  cases cache ks a with
  | some key => rfl
  | none =>
    cases load ks.keyDir a with
    | some key => exact hset _
    | none => rfl

/-- All that is cached is as in the files. -/
structure Cached (dir : KeyDir Addr Priv Pub Cert) (ks : Keystore Addr Priv Pub Cert) : Prop where
  /-- The keys are. -/
  sound : Sound dir ks
  /-- The certificates are. -/
  certstore : ∀ a cert, ks.certstore a=some cert → dir.certs a=some cert

omit [DecidableEq Addr] in
/-- Nothing is cached at first. -/
theorem cached_init (dir : KeyDir Addr Priv Pub Cert) : Cached dir (init dir) :=
  ⟨sound_init dir,fun _ _ h => nomatch h⟩

/-- Looking up keys leaves the certificates alone. -/
theorem certstore_sharedSecret (exchange : Priv → Pub → Secret) (a : Addr)
    (fromAddress : Option Addr) :
    (sharedSecret exchange ks a fromAddress).2.certstore=ks.certstore := by
  have hpublic : ∀ ks : Keystore Addr Priv Pub Cert, (getPubkey ks a).2.certstore=ks.certstore :=
    fun _ => lookUp_frame (·.certstore) (fun _ => rfl) a
  have hchosen : (chosenPrivkey ks fromAddress).2.certstore=ks.certstore := by
    cases fromAddress with
    | none => rfl
    | some b => exact lookUp_frame (·.certstore) (fun _ => rfl) b
  unfold sharedSecret
  rcases hfirst : chosenPrivkey ks fromAddress with ⟨result,ks'⟩
  rw [hfirst] at hchosen
  cases result with
  | error e => exact hchosen
  | ok key =>
    have hget := hpublic ks'
    dsimp only
    rcases hsecond : getPubkey ks' a with ⟨result',ks''⟩
    rw [hsecond] at hget
    cases result' <;> exact hget.trans hchosen

/-- Looking up a certificate keeps the cache as the files are. -/
theorem certstore_getCert (h : Cached dir ks) (a b : Addr) (cert : Cert)
    (hcert : (getCert ks a).2.certstore b=some cert) : dir.certs b=some cert := by
  unfold getCert lookUp at hcert
  cases hcached : ks.certstore a with
  | some c =>
    simp only [hcached] at hcert
    exact h.certstore b cert hcert
  | none =>
    cases hload : ks.keyDir.certs a with
    | none =>
      simp only [hcached,hload] at hcert
      exact h.certstore b cert hcert
    | some c =>
      simp only [hcached,hload] at hcert
      by_cases hb : b=a
      · rw [hb,Function.update_self] at hcert
        rw [hb,←h.sound.keyDir,hload,hcert]
      · rw [Function.update_of_ne hb] at hcert
        exact h.certstore b cert hcert

/-- Every lookup does. -/
theorem Cached.after (h : Cached dir ks) (exchange : Priv → Pub → Secret) (lookup : Lookup Addr) :
    Cached dir (after exchange ks lookup) := by
  refine ⟨h.sound.lookups exchange [lookup],fun b cert hcert => ?_⟩
  cases lookup with
  | pubkey a =>
    have hsame : (getPubkey ks a).2.certstore=ks.certstore :=
      lookUp_frame (·.certstore) (fun _ => rfl) a
    exact h.certstore b cert (hsame ▸ hcert)
  | privkey a =>
    have hsame : (getPrivkey ks a).2.certstore=ks.certstore :=
      lookUp_frame (·.certstore) (fun _ => rfl) a
    exact h.certstore b cert (hsame ▸ hcert)
  | cert a => exact certstore_getCert h a b cert hcert
  | sharedSecret a c =>
    exact h.certstore b cert (certstore_sharedSecret exchange a c ▸ hcert)

/-- All lookups together do. -/
theorem Cached.lookups (h : Cached dir ks) (exchange : Priv → Pub → Secret)
    (earlier : List (Lookup Addr)) :
    Cached dir (earlier.foldl (RootKeystore.after exchange) ks) := by
  induction earlier generalizing ks with
  | nil => exact h
  | cons lookup earlier ih => exact ih (h.after exchange lookup)

/-- A certificate is looked up as it is in its file. -/
theorem Cached.getCert (h : Cached dir ks) (a : Addr) :
    (getCert ks a).1=found (dir.certs a) := by
  rw [←h.sound.keyDir]
  exact lookUp_fst (fun b cert hb => h.sound.keyDir ▸ h.certstore b cert hb) a

/-- So is a public key. -/
theorem Cached.getPubkey (h : Cached dir ks) (a : Addr) :
    (getPubkey ks a).1=found (dir.publicKeys a) := by
  rw [←h.sound.keyDir]
  exact lookUp_fst (fun b key hb => h.sound.keyDir ▸ h.sound.keystore b key hb) a

/-- So is a private key. -/
theorem Cached.getPrivkey (h : Cached dir ks) (a : Addr) :
    (getPrivkey ks a).1=found (dir.privateKeys a) := by
  rw [←h.sound.keyDir]
  exact lookUp_fst (fun b key hb => h.sound.keyDir ▸ h.sound.privkeystore b key hb) a

end Lookups

section Restoring

variable {Priv : Type}

/-- The keystore of the root has what was made for the deployment. -/
structure Restored (d : Deployment Priv) (entries : List (List UInt8)) : Prop where
  /-- The addresses are those of the hosts. -/
  addresses : ∃ addresses : List IpAddr, listAddresses entries=some (addresses.map .inr) ∧
    addresses.Perm (d.ips.map Prod.snd)
  /-- The directory is one of keys and certificates, and whatever is looked up
  before, a lookup finds what was made for the address, or nothing. -/
  lookups : ∃ dir, keyDir (written d)=some dir ∧ dir.server=d.key rootIpAddr ∧
    ∀ (earlier : List (Lookup IpAddr)) a ks, ks=earlier.foldl (after d.exchange) (init dir) →
      (getPubkey ks a).1=found
          (if a∈d.ips.map Prod.snd then some (d.publicKey (d.key a)) else none) ∧
        (getPrivkey ks a).1=found (if a∈d.ips.map Prod.snd then some (d.key a) else none) ∧
          (getCert ks a).1=found ((d.certOf a).map (SignedCertificate.encode d.dumps))
  /-- An address has a certificate if it is that of a host, and the certificate
  is decoded as it was made: for the identity and with the key of the address. -/
  certificates : ∀ a, match d.certOf a with
    | none => a∉d.ips.map Prod.snd
    | some cert => a∈d.ips.map Prod.snd ∧ signedDecode d.loads (cert.encode d.dumps)=some cert ∧
      cert.subject=(ipToEui64 a).toList ∧ cert.publicKey=(d.publicKey (d.key a)).bytes

/-- **A key directory gives back what was put there**, for any deployment and
in any order of its entries. -/
theorem restored (d : Deployment Priv) {entries others : List (List UInt8)}
    (hothers : ∀ name∈others, publicSuffix.isSuffixOf name=false)
    (hentries : entries.Perm ((written d).map Prod.fst++others)) : Restored d entries := by
  refine ⟨listAddresses_perm d hothers hentries,⟨_,keyDir_written d,rfl,fun earlier a ks hks => ?_⟩,
    fun a => ?_⟩
  · rw [hks]
    have hcached := (cached_init (deployed d)).lookups d.exchange earlier
    exact ⟨deployed_publicKeys d a ▸ hcached.getPubkey a,
      deployed_privateKeys d a ▸ hcached.getPrivkey a,hcached.getCert a⟩
  · by_cases ha : a∈d.ips.map Prod.snd
    · obtain ⟨c,hc,rfl⟩ := List.mem_map.mp ((certs_addresses d).mem_iff.mpr ha)
      obtain ⟨tags,serial,hclass,hissued⟩ := certs_issued d hc
      rw [certOf_eq d hc,hissued]
      exact ⟨ha,signedDecode_encode d _ hclass,rfl,rfl⟩
    · rw [certOf_none d ha]
      exact ha

/-- Two hosts, `a` the root and `b` a node. The keys are the texts of the
addresses, and a public key is the private key, cut or filled to its size. -/
def sampleDeployment : Deployment (List UInt8) where
  ips := [([0x61],rootIpAddr),([0x62],eui64ToIpv6 (.replicate 8 7))]
  deviceStereotypes _ := ⟨⟨6⟩,by decide⟩
  derivePrivateKey text := text
  publicKey key := ⟨.ofFn fun i => key.getD i.val 0,.replicate 32 0⟩
  sign _ _ := ⟨.replicate 32 0,.replicate 32 0⟩
  exchange key other := (Vector.ofFn fun i : Fin 32 => key.getD i.val 0 ^^^ other.x[i]).toList
  dumps := Cbor.encode
  loads := Cbor.readItem
  distinct := by decide +kernel
  root := by decide +kernel
  count := by decide
  canonical := Cbor.canonical_encode
  readsBack := Cbor.readsBack_readItem

/-- Its certificates, in the order of the names. -/
theorem certs_sample : sampleDeployment.certs=[
    (rootIpAddr,createCertificate sampleDeployment rootIpAddr ⟨6⟩ 0),
    (eui64ToIpv6 (.replicate 8 7),
      createCertificate sampleDeployment (eui64ToIpv6 (.replicate 8 7)) ⟨6⟩ 1)] := rfl

/-- The root's is the one that its numbers make. -/
theorem issuedTo_root_sample :
    IssuedTo sampleDeployment rootIpAddr (issued sampleDeployment rootIpAddr ⟨6⟩ 0) := by
  rw [IssuedTo,certs_sample,createCertificate_eq _ _ _ (by decide)]
  exact List.mem_cons_self

/-- Its files are restored, whatever else is in the directory. -/
theorem restored_sample : Restored sampleDeployment
    ((written sampleDeployment).map Prod.fst++[[0x6F,0x73,0x63,0x6F,0x72,0x65]]) :=
  restored sampleDeployment (show ∀ name∈[[0x6F,0x73,0x63,0x6F,0x72,0x65]],
    publicSuffix.isSuffixOf name=false by decide) (.refl _)

end Restoring

end TrustAlloc.KeyFiles
