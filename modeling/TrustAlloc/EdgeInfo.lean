import TrustAlloc.Pools
import Mathlib.Data.UInt

/-!
# The edges that a node knows and their capabilities

The data and the functions of `edge-info.c`. Edges and capabilities live in
two pools; the edges are on one list and each edge carries the list of its
capabilities. When a pool is exhausted an inactive edge or capability is
evicted. The trust values are those of the trust model in use and stay
abstract, as does the policy by which the pools pick a free block.
-/

namespace TrustAlloc.EdgeInfo

open Pools

/-- `uip_ipaddr_t`. -/
abbrev IpAddr := Vector UInt8 16

/-- `edge_capability_t` without its list link. -/
structure EdgeCapability (CT : Type) where
  /-- The bytes of the name before its terminator. -/
  name : List UInt8
  /-- Flag bits. -/
  flags : UInt32
  /-- Trust values of the capability. -/
  tm : CT

/-- `edge_resource_t` without its list link; `caps` blocks hold capabilities. -/
structure EdgeResource (caps : ℕ) (ET : Type) where
  /-- Address of the endpoint, whose port and security are constant. -/
  ep : IpAddr
  /-- Flag bits. -/
  flags : UInt32
  /-- Trust values of the edge. -/
  tm : ET
  /-- Capabilities of the edge. -/
  capabilities : List (Fin caps)

/-- The static data of `edge-info.c` for `NUM_EDGE_RESOURCES` edges with
`NUM_EDGE_CAPABILITIES` capabilities each. -/
structure EdgeStore (ne nc : ℕ) (ET CT : Type) where
  /-- `edge_resources_memb`. -/
  edgeResourcesMemb : Memb ne (EdgeResource (ne*nc) ET)
  /-- `edge_capabilities_memb`. -/
  edgeCapabilitiesMemb : Memb (ne*nc) (EdgeCapability CT)
  /-- `edge_resources`. -/
  edgeResources : List (Fin ne)

/-- Allocation policies, and how the trust model initialises its values. -/
structure EdgeEnv (ne nc : ℕ) (ET CT : Type) where
  /-- Policy of `memb_alloc` on `edge_resources_memb`. -/
  edgeAllocator : Allocator ne
  /-- Policy of `memb_alloc` on `edge_capabilities_memb`. -/
  capabilityAllocator : Allocator (ne*nc)
  /-- `edge_resource_tm_init`, on what the block held before. -/
  edgeResourceTmInit : ET → ET
  /-- `edge_capability_tm_init`, on what the block held before. -/
  edgeCapabilityTmInit : CT → CT

variable {ne nc : ℕ} {ET CT : Type}

/-- `EDGE_CAPABILITY_NAME_LEN`. -/
def edgeCapabilityNameLen : ℕ := 15

/-- `EDGE_RESOURCE_ACTIVE`. -/
def edgeResourceActive : UInt32 := 1

/-- `EDGE_CAPABILITY_ACTIVE`. -/
def edgeCapabilityActive : UInt32 := 1

namespace EdgeStore

variable (s : EdgeStore ne nc ET CT)

/-- The edge in a block. -/
abbrev edge (e : Fin ne) : EdgeResource (ne*nc) ET := s.edgeResourcesMemb.mem e

/-- The capability in a block. -/
abbrev cap (c : Fin (ne*nc)) : EdgeCapability CT := s.edgeCapabilitiesMemb.mem c

/-- Change one edge in place. -/
def setEdge (e : Fin ne) (v : EdgeResource (ne*nc) ET) : EdgeStore ne nc ET CT :=
  {s with edgeResourcesMemb := s.edgeResourcesMemb.set e v}

/-- Change one capability in place. -/
def setCap (c : Fin (ne*nc)) (v : EdgeCapability CT) : EdgeStore ne nc ET CT :=
  {s with edgeCapabilitiesMemb := s.edgeCapabilitiesMemb.set c v}

/-- Writing back the edge that is there changes nothing. -/
theorem setEdge_self (e : Fin ne) : s.setEdge e (s.edge e)=s := by
  simp [setEdge,Memb.set]

/-- Writing back the capability that is there changes nothing. -/
theorem setCap_self (c : Fin (ne*nc)) : s.setCap c (s.cap c)=s := by
  simp [setCap,Memb.set]

end EdgeStore

/-- `edge_info_is_active`. -/
def edgeInfoIsActive (s : EdgeStore ne nc ET CT) (e : Fin ne) : Bool :=
  decide ((s.edge e).flags &&& edgeResourceActive≠0)

/-- `edge_capability_is_active`. -/
def edgeCapabilityIsActive (s : EdgeStore ne nc ET CT) (c : Fin (ne*nc)) : Bool :=
  decide ((s.cap c).flags &&& edgeCapabilityActive≠0)

/-- `edge_info_find_addr`. -/
def edgeInfoFindAddr (s : EdgeStore ne nc ET CT) (addr : IpAddr) : Option (Fin ne) :=
  s.edgeResources.find? fun e => decide ((s.edge e).ep=addr)

/-- `edge_info_capability_find` for an edge that is there. -/
def edgeInfoCapabilityFind (s : EdgeStore ne nc ET CT) (e : Fin ne) (name : List UInt8) :
    Option (Fin (ne*nc)) :=
  (s.edge e).capabilities.find? fun c => decide ((s.cap c).name=name)

/-- `edge_info_has_active_capability`. -/
def edgeInfoHasActiveCapability (s : EdgeStore ne nc ET CT) (name : List UInt8) : Bool :=
  s.edgeResources.any fun e => edgeInfoIsActive s e &&
    (edgeInfoCapabilityFind s e name).any fun c => edgeCapabilityIsActive s c

/-- `edge_info_capability_remove`. -/
def edgeInfoCapabilityRemove (s : EdgeStore ne nc ET CT) (e : Fin ne) (c : Fin (ne*nc)) :
    EdgeStore ne nc ET CT × Bool :=
  if c∈(s.edge e).capabilities then
    ({s.setEdge e {s.edge e with capabilities := (s.edge e).capabilities.erase c} with
      edgeCapabilitiesMemb := s.edgeCapabilitiesMemb.free c},true)
  else (s,false)

/-- `free_up_edge_capabilities`: the first inactive capability of any edge. -/
def freeUpEdgeCapabilities (s : EdgeStore ne nc ET CT) : EdgeStore ne nc ET CT × Bool :=
  match s.edgeResources.findSome? fun e =>
      ((s.edge e).capabilities.find? fun c => !edgeCapabilityIsActive s c).map (e,·) with
  | some (e,c) => edgeInfoCapabilityRemove s e c
  | none => (s,false)

/-- Take a free block for a capability and initialise its trust values. -/
def EdgeStore.takeCap (env : EdgeEnv ne nc ET CT) (s : EdgeStore ne nc ET CT)
    (c : Fin (ne*nc)) : EdgeStore ne nc ET CT :=
  let cap := {s.cap c with tm := env.edgeCapabilityTmInit (s.cap c).tm}
  {s with edgeCapabilitiesMemb := (s.edgeCapabilitiesMemb.take c).set c cap}

/-- `edge_capability_new`. -/
def edgeCapabilityNew (env : EdgeEnv ne nc ET CT) (s : EdgeStore ne nc ET CT) (e : Fin ne) :
    EdgeStore ne nc ET CT × Option (Fin (ne*nc)) :=
  if nc≤(s.edge e).capabilities.length then (s,none)
  else match env.capabilityAllocator.pick s.edgeCapabilitiesMemb.used with
    | some c => (s.takeCap env c,some c)
    | none =>
      match env.capabilityAllocator.pick (freeUpEdgeCapabilities s).1.edgeCapabilitiesMemb.used with
      | some c => ((freeUpEdgeCapabilities s).1.takeCap env c,some c)
      | none => ((freeUpEdgeCapabilities s).1,none)

/-- `edge_resource_free`: pop and free the capabilities, then free the edge. -/
def edgeResourceFree (s : EdgeStore ne nc ET CT) (e : Fin ne) : EdgeStore ne nc ET CT :=
  {s with
    edgeResourcesMemb := (s.edgeResourcesMemb.set e {s.edge e with capabilities := []}).free e
    edgeCapabilitiesMemb := s.edgeCapabilitiesMemb.freeAll (s.edge e).capabilities}

/-- `edge_info_remove`. -/
def edgeInfoRemove (s : EdgeStore ne nc ET CT) (e : Fin ne) : EdgeStore ne nc ET CT × Bool :=
  if e∈s.edgeResources then
    (edgeResourceFree {s with edgeResources := s.edgeResources.erase e} e,true)
  else (s,false)

/-- The edge that `free_up_edge_resource` takes: the first inactive one. -/
def firstInactive (s : EdgeStore ne nc ET CT) : Option (Fin ne) :=
  s.edgeResources.find? fun e => !edgeInfoIsActive s e

/-- `free_up_edge_resource`. -/
def freeUpEdgeResource (s : EdgeStore ne nc ET CT) : EdgeStore ne nc ET CT × Bool :=
  match firstInactive s with
  | some e => edgeInfoRemove s e
  | none => (s,false)

/-- Take a free block for an edge, with fresh trust values and no capabilities. -/
def EdgeStore.takeEdge (env : EdgeEnv ne nc ET CT) (s : EdgeStore ne nc ET CT) (e : Fin ne) :
    EdgeStore ne nc ET CT :=
  let edge := {s.edge e with tm := env.edgeResourceTmInit (s.edge e).tm,capabilities := []}
  {s with edgeResourcesMemb := (s.edgeResourcesMemb.take e).set e edge}

/-- `edge_resource_new`. -/
def edgeResourceNew (env : EdgeEnv ne nc ET CT) (s : EdgeStore ne nc ET CT) :
    EdgeStore ne nc ET CT × Option (Fin ne) :=
  match env.edgeAllocator.pick s.edgeResourcesMemb.used with
  | some e => (s.takeEdge env e,some e)
  | none =>
    match env.edgeAllocator.pick (freeUpEdgeResource s).1.edgeResourcesMemb.used with
    | some e => ((freeUpEdgeResource s).1.takeEdge env e,some e)
    | none => ((freeUpEdgeResource s).1,none)

/-- The end of `edge_info_add`: the address, no flags, front of the list. -/
def EdgeStore.linkEdge (s : EdgeStore ne nc ET CT) (e : Fin ne) (addr : IpAddr) :
    EdgeStore ne nc ET CT :=
  {s.setEdge e {s.edge e with ep := addr,flags := 0} with
    edgeResources := listPush s.edgeResources e}

/-- `edge_info_add`. -/
def edgeInfoAdd (env : EdgeEnv ne nc ET CT) (s : EdgeStore ne nc ET CT) (addr : IpAddr) :
    EdgeStore ne nc ET CT × Option (Fin ne) :=
  match edgeInfoFindAddr s addr with
  | some e => (s,some e)
  | none =>
    match edgeResourceNew env s with
    | (s',some e) => (s'.linkEdge e addr,some e)
    | (s',none) => (s',none)

/-- The end of `edge_info_capability_add`: the name, cut to the length of its
field, no flags, front of the edge's list. -/
def EdgeStore.linkCap (s : EdgeStore ne nc ET CT) (e : Fin ne) (c : Fin (ne*nc))
    (name : List UInt8) : EdgeStore ne nc ET CT :=
  (s.setCap c {s.cap c with name := name.take edgeCapabilityNameLen,flags := 0}).setEdge e
    {s.edge e with capabilities := listPush (s.edge e).capabilities c}

/-- `edge_info_capability_add`. -/
def edgeInfoCapabilityAdd (env : EdgeEnv ne nc ET CT) (s : EdgeStore ne nc ET CT) (e : Fin ne)
    (name : List UInt8) : EdgeStore ne nc ET CT × Option (Fin (ne*nc)) :=
  match edgeInfoCapabilityFind s e name with
  | some c => (s,some c)
  | none =>
    match edgeCapabilityNew env s e with
    | (s',some c) => (s'.linkCap e c name,some c)
    | (s',none) => (s',none)

/-- `edge_info_capability_remove_by_name`. -/
def edgeInfoCapabilityRemoveByName (s : EdgeStore ne nc ET CT) (e : Fin ne) (name : List UInt8) :
    EdgeStore ne nc ET CT × Bool :=
  match edgeInfoCapabilityFind s e name with
  | some c => edgeInfoCapabilityRemove s e c
  | none => (s,false)

/-- `edge_info_capability_clear`: the successor is read before each removal,
so the loop visits the capabilities that were there at its start. -/
def edgeInfoCapabilityClear (s : EdgeStore ne nc ET CT) (e : Fin ne) : EdgeStore ne nc ET CT :=
  (s.edge e).capabilities.foldl (fun s c => (edgeInfoCapabilityRemove s e c).1) s

/-- `edge_info_init` on zero-initialised memory that holds the given values. -/
def edgeInfoInit (ne nc : ℕ) (et : ET) (ct : CT) : EdgeStore ne nc ET CT where
  edgeResourcesMemb := ⟨fun _ => false,fun _ => ⟨.replicate 16 0,0,et,[]⟩⟩
  edgeCapabilitiesMemb := ⟨fun _ => false,fun _ => ⟨[],0,ct⟩⟩
  edgeResources := []

/-- First-fit pools for four edges with three capabilities each, and trust
values that keep what the block held. -/
def sampleEdgeEnv {ET CT : Type} : EdgeEnv 4 3 ET CT := ⟨firstFit 4,firstFit 12,id,id⟩

/-- An address of one repeated byte. -/
def sampleAddr (b : UInt8) : IpAddr := .replicate 16 b

/-- Add an active edge with an active capability, if there is room for both. -/
def sampleOffer (name : List UInt8) (s : EdgeStore 4 3 ℕ ℕ) (addr : IpAddr) :
    EdgeStore 4 3 ℕ ℕ :=
  match edgeInfoAdd sampleEdgeEnv s addr with
  | (s,none) => s
  | (s,some e) =>
    match edgeInfoCapabilityAdd sampleEdgeEnv s e name with
    | (s,none) => s
    | (s,some c) => (s.setEdge e {s.edge e with flags := edgeResourceActive}).setCap c
        {s.cap c with flags := edgeCapabilityActive}

/-- The edges with the addresses of ones and of twos offer a capability. -/
def sampleStore (name : List UInt8) : EdgeStore 4 3 ℕ ℕ :=
  sampleOffer name (sampleOffer name (edgeInfoInit 4 3 0 0) (sampleAddr 1)) (sampleAddr 2)

/-- The edge with the address of ones. -/
def sampleFirst : Fin 4 := 0

/-- The edge with the address of twos. -/
def sampleSecond : Fin 4 := 1

end TrustAlloc.EdgeInfo
