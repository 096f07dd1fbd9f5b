import TrustAlloc.Addresses

/-!
# Whether the conversions of addresses agree

Nodes convert between identities and addresses in C, the deployment scripts in
Python. Both treat the root's address apart, but not in the same places: three
of the four functions flip its bit back, one of them depending on what is in
the buffer for its result.
-/

namespace TrustAlloc.AddressConversions

open Addresses Certificates EdgeInfo

section Python

/-- `ip_to_eui64`, for the default `root_ip`. -/
def ipToEui64 (subject : IpAddr) : Eui64 :=
  let eui64 := iid subject
  if subject≠rootIpAddr then flipLocalBit eui64 else eui64

/-- `eui64_to_ipv6`, on bytes. -/
def eui64ToIpv6 (eui64 : Eui64) : IpAddr := withIid subnet (flipLocalBit eui64)

end Python

section Agreement

/-- What the IPv6 stack does: it copies eight bytes and flips the local bit of
the first; and `root_ep` is what `root_endpoint_init` makes it. -/
structure Standard (A : AddressEnv) : Prop where
  /-- The address of the root. -/
  rootEp : A.rootEp=rootIpAddr
  /-- From an address. -/
  lladdr : ∀ ipaddr, A.uipDs6SetLladdrFromIid ipaddr=flipLocalBit (iid ipaddr)
  /-- Into an address. -/
  addr : ∀ ipaddr lladdr, A.uipDs6SetAddrIid ipaddr lladdr=withIid ipaddr (flipLocalBit lladdr)

/-- All parties agree on an identity, converted into a buffer with some
contents, and on an address. -/
structure Agree (A : AddressEnv) (eui64 : Eui64) (buffer ipaddr : IpAddr) : Prop where
  /-- The result is one that does not depend on the buffer, that of Python. -/
  toPython : eui64ToIpaddr A eui64 buffer=eui64ToIpv6 eui64
  /-- Identities are converted back. -/
  fromTo : eui64FromIpaddr A (eui64ToIpaddr A eui64 buffer)=eui64
  /-- Addresses are converted back. -/
  toFrom : eui64ToIpaddr A (eui64FromIpaddr A ipaddr) buffer=ipaddr
  /-- The identity of an address is the one of Python. -/
  fromPython : eui64FromIpaddr A ipaddr=ipToEui64 ipaddr

/-- The four conversions are compared by decidable equality. -/
instance decidableAgree (A : AddressEnv) (eui64 : Eui64) (buffer ipaddr : IpAddr) :
    Decidable (Agree A eui64 buffer ipaddr) :=
  decidable_of_iff (eui64ToIpaddr A eui64 buffer=eui64ToIpv6 eui64 ∧
      eui64FromIpaddr A (eui64ToIpaddr A eui64 buffer)=eui64 ∧
        eui64ToIpaddr A (eui64FromIpaddr A ipaddr) buffer=ipaddr ∧
          eui64FromIpaddr A ipaddr=ipToEui64 ipaddr)
    ⟨fun h => ⟨h.1,h.2.1,h.2.2.1,h.2.2.2⟩,fun h => ⟨h.toPython,h.fromTo,h.toFrom,h.fromPython⟩⟩

variable {A : AddressEnv}

/-- The identity of an address: the root's is its lower half as it is. -/
theorem eui64FromIpaddr_eq (h : Standard A) (ipaddr : IpAddr) : eui64FromIpaddr A ipaddr=
    if ipaddr=rootIpAddr then iid ipaddr else flipLocalBit (iid ipaddr) := by
  unfold eui64FromIpaddr
  rw [h.rootEp,h.lladdr,flipLocalBit_flipLocalBit]

/-- The address of an identity: where the root's address was, nothing is flipped. -/
theorem eui64ToIpaddr_eq (h : Standard A) (eui64 : Eui64) (buffer : IpAddr) :
    eui64ToIpaddr A eui64 buffer=
      withIid subnet (if buffer=rootIpAddr then eui64 else flipLocalBit eui64) := by
  unfold eui64ToIpaddr
  rw [h.rootEp,h.addr,apply_ite flipLocalBit,flipLocalBit_flipLocalBit]
  rfl

/-- Both languages convert addresses to the same identities, always. -/
theorem eui64FromIpaddr_eq_ipToEui64 (h : Standard A) (ipaddr : IpAddr) :
    eui64FromIpaddr A ipaddr=ipToEui64 ipaddr :=
  (eui64FromIpaddr_eq h ipaddr).trans (ite_not ..).symm

/-- **Identities and addresses.** All parties agree exactly if the buffer does
not hold the root's address beforehand, and neither the identity that mirrors
the root's nor the root's address is converted. -/
theorem agree_iff (h : Standard A) (eui64 : Eui64) (buffer : IpAddr) {ipaddr : IpAddr}
    (hipaddr : withIid subnet (iid ipaddr)=ipaddr) :
    Agree A eui64 buffer ipaddr ↔
      buffer≠rootIpAddr ∧ eui64≠mirroredRoot ∧ ipaddr≠rootIpAddr := by
  constructor
  · intro hagree
    have hbuffer : buffer≠rootIpAddr := fun hroot => by
      have hto := hagree.toPython
      rw [eui64ToIpaddr_eq h,if_pos hroot] at hto
      exact flipLocalBit_ne eui64 (withIid_injective.mp hto).symm
    have hfromTo := hagree.fromTo
    have htoFrom := hagree.toFrom
    rw [eui64ToIpaddr_eq h,if_neg hbuffer,eui64FromIpaddr_eq h] at hfromTo htoFrom
    refine ⟨hbuffer,fun hmirrored => ?_,fun hroot => ?_⟩
    · rw [hmirrored,mirroredRoot,flipLocalBit_flipLocalBit,withIid_root,if_pos rfl] at hfromTo
      exact flipLocalBit_ne _ hfromTo.symm
    · rw [if_pos hroot,←hipaddr,iid_withIid] at htoFrom
      exact flipLocalBit_ne _ (withIid_injective.mp htoFrom)
  · rintro ⟨hbuffer,hmirrored,hroot⟩
    have hother : withIid subnet (flipLocalBit eui64)≠rootIpAddr := fun heq => by
      rw [←withIid_root,withIid_injective] at heq
      exact hmirrored (by rw [mirroredRoot,←heq,flipLocalBit_flipLocalBit])
    refine ⟨?_,?_,?_,eui64FromIpaddr_eq_ipToEui64 h ipaddr⟩
    · rw [eui64ToIpaddr_eq h,if_neg hbuffer]
      rfl
    · rw [eui64ToIpaddr_eq h,if_neg hbuffer,eui64FromIpaddr_eq h,if_neg hother,iid_withIid,
        flipLocalBit_flipLocalBit]
    · rw [eui64ToIpaddr_eq h,if_neg hbuffer,eui64FromIpaddr_eq h,if_neg hroot,
        flipLocalBit_flipLocalBit,hipaddr]

/-- The conversions of the sample stack are of this kind. -/
theorem standard_sample : Standard sampleAddressEnv := ⟨rfl,fun _ => rfl,fun _ _ => rfl⟩

/-- A node's identity and the address of another node. -/
theorem agree_iff_sample :
    Agree sampleAddressEnv (.replicate 8 1) (.replicate 16 0) (withIid subnet (.replicate 8 2)) :=
  (agree_iff standard_sample (.replicate 8 1) (.replicate 16 0) (by decide)).mpr (by decide)

/-- The root's address is not converted back from its identity. -/
theorem not_agree_of_root :
    Standard sampleAddressEnv ∧ withIid subnet (iid rootIpAddr)=rootIpAddr ∧
      ¬Agree sampleAddressEnv (.replicate 8 1) (.replicate 16 0) rootIpAddr :=
  ⟨standard_sample,withIid_root,by decide⟩

end Agreement

end TrustAlloc.AddressConversions
