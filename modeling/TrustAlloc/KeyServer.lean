import TrustAlloc.KeyFiles
import TrustAlloc.TrustModels

/-!
# The key server of the root

Nodes ask the root for the certificate of an address. The server takes the
address in three formats, makes a global address of a link-local one by its
text, and looks its certificate up. On addresses the conversion by text is the
one that the nodes do on bytes.
-/

namespace TrustAlloc.KeyServer

open Addresses CertificateCodec Certificates EdgeInfo Ipv6Text KeyFiles RootKeystore
open TrustModels (coapCode content205)

section Source

/-- The content formats of a request. -/
inductive ContentFormat where
  /-- `text/plain;charset=utf-8`. -/
  | textPlain
  /-- `application/octet-stream`. -/
  | octetStream
  /-- `application/cbor`. -/
  | cbor
  /-- Any other format, or none. -/
  | other
  deriving DecidableEq

/-- What the server reads of a request. -/
structure Request where
  /-- `request.opt.content_format`. -/
  contentFormat : ContentFormat
  /-- `request.payload`. -/
  payload : List UInt8

/-- A response. -/
structure Response where
  /-- Code of the response. -/
  code : ℕ
  /-- Payload of the response. -/
  payload : List UInt8
  deriving DecidableEq

/-- `InvalidAddressRequest`. -/
def invalidAddressRequest : Response :=
  ⟨coapCode 4 0,"Error: Invalid IP Address requested".toUTF8.toList⟩

/-- `UnknownAddressRequest`. -/
def unknownAddressRequest : Response :=
  ⟨coapCode 4 0,"Error: Unknown IP Address requested".toUTF8.toList⟩

/-- `UnsupportedContentFormat`. -/
def unsupportedContentFormat : Response := ⟨coapCode 4 15,[]⟩

/-- What the library answers when a handler raises anything else. -/
def internalServerError : Response := ⟨coapCode 5 0,[]⟩

/-- `IPv6Address` of bytes. -/
def ipv6AddressOfBytes (bytes : List UInt8) : Option IpAddr :=
  if h : bytes.length=16 then some ⟨bytes.toArray,by simpa using h⟩ else none

/-- The beginning of a link-local address, `fe80`. -/
def linkLocal : List UInt8 := [0x66,0x65,0x38,0x30]

/-- The beginning of a global address, `fd00`. -/
def globalSubnet : List UInt8 := [0x66,0x64,0x30,0x30]

/-- The address that a request is about, or the response that is raised. What
`IPv6Address` makes of the value of a CBOR payload is a parameter. -/
def requestAddress (loads : List UInt8 → Option IpAddr) (request : Request) :
    Except Response IpAddr :=
  let parsed (address : Option IpAddr) : Except Response IpAddr :=
    match address with
    | some a => .ok a
    | none => .error invalidAddressRequest
  match request.contentFormat with
  | .textPlain => parsed (ipv6Address request.payload)
  | .octetStream => parsed (ipv6AddressOfBytes (request.payload.take 16))
  | .cbor => parsed (loads request.payload)
  | .other => .error unsupportedContentFormat

/-- A link-local address is converted to a global one; none if the text that is
put together is no address. -/
def globalRequestAddress (requestAddress : IpAddr) : Option IpAddr :=
  if linkLocal.isPrefixOf (str requestAddress)=true then
    ipv6Address (globalSubnet++(str requestAddress).drop 4)
  else some requestAddress

variable {Priv Pub : Type}

/-- `render_get`, with the keystore after it. -/
def renderGet (loads : List UInt8 → Option IpAddr)
    (keystore : Keystore IpAddr Priv Pub (List UInt8)) (request : Request) :
    Response×Keystore IpAddr Priv Pub (List UInt8) :=
  match requestAddress loads request with
  | .error raised => (raised,keystore)
  | .ok address =>
    match globalRequestAddress address with
    | none => (internalServerError,keystore)
    | some address =>
      match getCert keystore address with
      | (.ok cert,keystore) => (⟨content205,cert⟩,keystore)
      | (.error .fileNotFound,keystore) => (unknownAddressRequest,keystore)

end Source

section Conversion

/-- What link-local and global addresses begin with. -/
theorem firstTexts : hextetText 0xFE80=linkLocal ∧ hextetText 0xFD00=globalSubnet := by
  constructor <;> simp [hextetText,linkLocal,globalSubnet,lowerHex]

/-- An address is link-local by its text exactly if it is by its bytes. -/
theorem linkLocal_iff (a : IpAddr) :
    linkLocal.isPrefixOf (str a)=true ↔ a.get 0=0xFE ∧ a.get 1=0x80 := by
  have hbytes : firstHextet a=0xFE80 ↔ a.get 0=0xFE ∧ a.get 1=0x80 := by
    have hlow := (a.get 1).toNat_lt
    rw [firstHextet_eq,←UInt8.toNat_inj,←UInt8.toNat_inj]
    show (a.get 0).toNat*256+(a.get 1).toNat=65152 ↔ (a.get 0).toNat=254 ∧ (a.get 1).toNat=128
    omega
  rw [←hbytes,List.isPrefixOf_iff_prefix]
  constructor
  · intro hstart
    have htake := List.prefix_iff_eq_take.mp hstart
    exact firstHextet_of_take (by decide) (htake.symm.trans firstTexts.1.symm)
  · intro hfirst
    obtain ⟨text,htext⟩ := exists_str (hextets a).tail
    have hstr := htext a rfl (by rw [hfirst]; decide)
    rw [hstr,hfirst,firstTexts.1]
    exact List.prefix_append linkLocal text

/-- The conversion by text is the conversion by bytes. -/
theorem globalRequestAddress_eq (a : IpAddr) :
    globalRequestAddress a=some (uipIp6addrNormalise a) := by
  unfold globalRequestAddress uipIp6addrNormalise
  by_cases hlocal : a[0]=0xFE ∧ a[1]=0x80
  · rw [if_pos ((linkLocal_iff a).mpr hlocal),if_pos hlocal]
    obtain ⟨text,htext⟩ := exists_str (hextets a).tail
    have hfirst : firstHextet a=0xFE80 := by
      have hbytes : firstHextet a=a[0].toNat*256+a[1].toNat := firstHextet_eq a
      rw [hbytes,hlocal.1,hlocal.2]
      rfl
    have hglobal : firstHextet ((a.set 0 0xFD).set 1 0x00)=0xFD00 := by
      have hbytes : firstHextet ((a.set 0 0xFD).set 1 0x00)=
          ((a.set 0 0xFD).set 1 0x00)[0].toNat*256+((a.set 0 0xFD).set 1 0x00)[1].toNat :=
        firstHextet_eq _
      rw [hbytes]
      simp
    have htail : (hextets ((a.set 0 0xFD).set 1 0x00)).tail=(hextets a).tail := by
      simp [hextets,List.ofFn_succ]
    have hold := htext a rfl (by rw [hfirst]; decide)
    have hnew := htext _ htail (by rw [hglobal]; decide)
    rw [hfirst,firstTexts.1] at hold
    rw [hglobal,firstTexts.2] at hnew
    have hdrop : (str a).drop 4=text := by
      rw [hold]
      rfl
    rw [hdrop,←hnew,ipv6Address_str]
  · rw [if_neg fun h => hlocal ((linkLocal_iff a).mp h),if_neg hlocal]

/-- The bytes of an address are taken as they are. -/
theorem ipv6AddressOfBytes_toList (a : IpAddr) : ipv6AddressOfBytes a.toList=some a := by
  rw [ipv6AddressOfBytes,dif_pos (by simp)]
  rfl

end Conversion

section Answers

variable {Priv : Type} (d : Deployment Priv)

/-- What the server answers to the bytes of an address. -/
def answer (a : IpAddr) : Response :=
  match d.certOf (uipIp6addrNormalise a) with
  | some cert => ⟨content205,cert.encode d.dumps⟩
  | none => unknownAddressRequest

/-- Whatever was looked up before, a node is answered with the certificate of
the global address, as it was made for the deployment. -/
theorem renderGet_octetStream (loads : List UInt8 → Option IpAddr)
    {ks : Keystore IpAddr Priv PublicKey (List UInt8)} (h : Cached (deployed d) ks) (a : IpAddr) :
    (renderGet loads ks ⟨.octetStream,a.toList⟩).1=answer d a := by
  have htake : a.toList.take 16=a.toList := List.take_of_length_le (by simp)
  have haddress : requestAddress loads ⟨.octetStream,a.toList⟩=.ok a := by
    show (match ipv6AddressOfBytes (a.toList.take 16) with
      | some a => Except.ok a
      | none => .error invalidAddressRequest)=_
    rw [htake,ipv6AddressOfBytes_toList]
  have hcert := h.getCert (uipIp6addrNormalise a)
  unfold renderGet
  rw [haddress]
  dsimp only
  rw [globalRequestAddress_eq]
  dsimp only
  rcases hget : getCert ks (uipIp6addrNormalise a) with ⟨result,ks'⟩
  rw [hget] at hcert
  have hresult : result=found ((d.certOf (uipIp6addrNormalise a)).map
      (SignedCertificate.encode d.dumps)) := hcert
  rw [hresult,answer]
  cases d.certOf (uipIp6addrNormalise a) <;> rfl

/-- Every request leaves the caches as the files are. -/
theorem cached_renderGet {dir : KeyDir IpAddr Priv PublicKey (List UInt8)}
    (loads : List UInt8 → Option IpAddr) {ks : Keystore IpAddr Priv PublicKey (List UInt8)}
    (h : Cached dir ks) (request : Request) : Cached dir (renderGet loads ks request).2 := by
  unfold renderGet
  cases requestAddress loads request with
  | error raised => exact h
  | ok address =>
    dsimp only
    cases globalRequestAddress address with
    | none => exact h
    | some global =>
      have hafter : Cached dir (getCert ks global).2 :=
        h.after (fun (_ : Priv) (_ : PublicKey) => ()) (.cert global)
      dsimp only
      rcases hget : getCert ks global with ⟨result,ks'⟩
      rw [hget] at hafter
      cases result with
      | ok cert => exact hafter
      | error raised =>
        cases raised
        exact hafter

end Answers

end TrustAlloc.KeyServer
