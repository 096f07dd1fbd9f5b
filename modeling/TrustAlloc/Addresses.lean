import TrustAlloc.EdgeInfo
import TrustAlloc.Keystore

/-!
# Addresses and identities

Identities are the lower half of an address with one bit flipped by the IPv6
stack, except for the root, whose bit is flipped back. The conversions of the
stack are parameters. `eui64_to_ipaddr` asks whether the buffer it is about
to fill holds the root's address, so its result depends on old contents.
-/

namespace TrustAlloc.Addresses

open Certificates EdgeInfo Keystore

/-- What the conversions use of the node and its stack. -/
structure AddressEnv where
  /-- Address in `root_ep`. -/
  rootEp : IpAddr
  /-- `uip_ds6_set_lladdr_from_iid`. -/
  uipDs6SetLladdrFromIid : IpAddr → Eui64
  /-- `uip_ds6_set_addr_iid`, on the address that it completes. -/
  uipDs6SetAddrIid : IpAddr → Eui64 → IpAddr

/-- `lladdr.addr[0] ^= 0x02`. -/
def flipLocalBit (lladdr : Eui64) : Eui64 := lladdr.set 0 (lladdr[0] ^^^ 0x02)

/-- `eui64_from_ipaddr`. -/
def eui64FromIpaddr (A : AddressEnv) (ipaddr : IpAddr) : Eui64 :=
  if ipaddr=A.rootEp then flipLocalBit (A.uipDs6SetLladdrFromIid ipaddr)
  else A.uipDs6SetLladdrFromIid ipaddr

/-- `eui64_to_ipaddr` into a buffer with the given contents. -/
def eui64ToIpaddr (A : AddressEnv) (eui64 : Eui64) (ipaddr : IpAddr) : IpAddr :=
  A.uipDs6SetAddrIid (((Vector.replicate 16 0).set 0 0xFD).set 1 0x00)
    (if ipaddr=A.rootEp then flipLocalBit eui64 else eui64)

/-- `uip_ip6addr_normalise`: link-local addresses become global ones. -/
def uipIp6addrNormalise (addr : IpAddr) : IpAddr :=
  if addr[0]=0xFE ∧ addr[1]=0x80 then (addr.set 0 0xFD).set 1 0x00 else addr

/-- `uip_is_addr_linklocal_allnodes_mcast`, the address `ff02::1`. -/
def isLinklocalAllnodesMcast (addr : IpAddr) : Bool :=
  decide (addr=(((Vector.replicate 16 0).set 0 0xFF).set 1 0x02).set 15 0x01)

/-- `keystore_find_addr`. -/
def keystoreFindAddr {n : ℕ} (A : AddressEnv) (k : Store n) (addr : IpAddr) : Option (Fin n) :=
  keystoreFind k (eui64FromIpaddr A (uipIp6addrNormalise addr))

/-- What a lookup by address finds is a verified item. -/
theorem mem_of_keystoreFindAddr {n : ℕ} {A : AddressEnv} {k : Store n} {addr : IpAddr} {i : Fin n}
    (h : keystoreFindAddr A k addr=some i) : i∈k.publicKeys := List.mem_of_find?_eq_some h

/-- The address `fd00::1` of the root and the conversions of a stack whose
interface identifiers are link-layer addresses with the local bit flipped. -/
def sampleAddressEnv : AddressEnv where
  rootEp := (((Vector.replicate 16 0).set 0 0xFD).set 1 0x00).set 15 0x01
  uipDs6SetLladdrFromIid ipaddr := flipLocalBit (Vector.ofFn fun i => ipaddr[i.val+8])
  uipDs6SetAddrIid ipaddr lladdr := Vector.ofFn fun i =>
    if h : 8 ≤ i.val then (flipLocalBit lladdr)[i.val-8] else ipaddr[i]

section Halves

/-- The lower half of an address, its interface identifier. -/
def iid (ipaddr : IpAddr) : Eui64 := Vector.ofFn fun i => ipaddr[i.val+8]

/-- An address with another lower half. -/
def withIid (ipaddr : IpAddr) (lower : Eui64) : IpAddr :=
  Vector.ofFn fun i => if h : 8 ≤ i.val then lower[i.val-8] else ipaddr[i]

/-- The upper half of `fd00::/64`. -/
def subnet : IpAddr := ((Vector.replicate 16 0).set 0 0xFD).set 1 0x00

/-- `fd00::1`, the address of the root. -/
def rootIpAddr : IpAddr := subnet.set 15 0x01

/-- The identity `02:00:00:00:00:00:00:01`. -/
def mirroredRoot : Eui64 := flipLocalBit (iid rootIpAddr)

/-- The lower half is what was put there. -/
@[simp] theorem iid_withIid (ipaddr : IpAddr) (lower : Eui64) :
    iid (withIid ipaddr lower)=lower := by
  ext i hi
  simp [iid,withIid]

/-- An address of the subnet is known by its lower half. -/
theorem withIid_injective {lower lower' : Eui64} :
    withIid subnet lower=withIid subnet lower' ↔ lower=lower' :=
  ⟨fun h => by simpa using congrArg iid h,fun h => h ▸ rfl⟩

/-- The address of the root lies in the subnet. -/
theorem withIid_root : withIid subnet (iid rootIpAddr)=rootIpAddr := by decide

/-- Flipping twice changes nothing. -/
@[simp] theorem flipLocalBit_flipLocalBit (lladdr : Eui64) :
    flipLocalBit (flipLocalBit lladdr)=lladdr := by
  have hbit : ∀ v : UInt8, (v ^^^ 0x02) ^^^ 0x02=v := fun v => by
    rw [UInt8.xor_assoc,UInt8.xor_self,UInt8.xor_zero]
  ext i hi
  rcases Nat.eq_zero_or_pos i with rfl | hpos
  · simp [flipLocalBit,hbit]
  · rw [flipLocalBit,flipLocalBit,Vector.getElem_set_ne _ _ hpos.ne,
      Vector.getElem_set_ne _ _ hpos.ne]

/-- Flipping changes every identity. -/
theorem flipLocalBit_ne (lladdr : Eui64) : flipLocalBit lladdr≠lladdr := by
  intro h
  have hfirst : lladdr[0] ^^^ (0x02 : UInt8)=lladdr[0] := by
    simpa [flipLocalBit] using congrArg (·[0]) h
  have hmask := congrArg (lladdr[0] ^^^ ·) hfirst
  rw [←UInt8.xor_assoc,UInt8.xor_self,UInt8.zero_xor] at hmask
  exact absurd hmask (by decide)

end Halves

end TrustAlloc.Addresses
