import TrustAlloc.EdgeInvariants

/-!
# What peers report about edges

The data and the functions of `peer-info.c`. Each peer carries a list of
records about edges and each record a list of reports about capabilities;
records and reports point into the pools of the edge store. What a record was
about when it was stored is kept next to it as a history value. The used
blocks of the three pools are those on the nested lists.
-/

namespace TrustAlloc.PeerInfo

open EdgeInfo Pools

/-- `peer_edge_capability_t` without its list link. -/
structure PeerEdgeCapability (caps : ℕ) (CT : Type) where
  /-- Block of the capability. -/
  cap : Fin caps
  /-- Reported trust values. -/
  tm : CT
  /-- Name of the capability at the last report; a history value. -/
  about : List UInt8

/-- `peer_edge_t` without its list link. -/
structure PeerEdge (ne reports : ℕ) (ET : Type) where
  /-- Block of the edge. -/
  edge : Fin ne
  /-- Reported trust values. -/
  tm : ET
  /-- Reports about capabilities of the edge. -/
  capabilities : List (Fin reports)
  /-- Address of the edge at the last report; a history value. -/
  about : IpAddr

/-- `peer_t` without its list link. -/
structure Peer (records : ℕ) (PT : Type) where
  /-- Address of the peer. -/
  addr : IpAddr
  /-- Time of the last message in the peer's clock. -/
  lastSeen : UInt32
  /-- Trust values of the peer itself. -/
  tm : PT
  /-- Records about edges. -/
  edges : List (Fin records)

/-- The static data of `peer-info.c` for `NUM_PEERS` peers. -/
structure PeerStore (np ne nc : ℕ) (ET CT PT : Type) where
  /-- `peers_memb`. -/
  peersMemb : Memb np (Peer (np*ne) PT)
  /-- `peer_edges_memb`. -/
  peerEdgesMemb : Memb (np*ne) (PeerEdge ne (np*ne*nc) ET)
  /-- `peer_capabilities_memb`. -/
  peerCapabilitiesMemb : Memb (np*ne*nc) (PeerEdgeCapability (ne*nc) CT)
  /-- `peers`. -/
  peers : List (Fin np)

/-- Allocation policies, and how the trust model initialises a peer. -/
structure PeerEnv (np ne nc : ℕ) (PT : Type) where
  /-- Policy of `memb_alloc` on `peers_memb`. -/
  peerAllocator : Allocator np
  /-- Policy of `memb_alloc` on `peer_edges_memb`. -/
  recordAllocator : Allocator (np*ne)
  /-- Policy of `memb_alloc` on `peer_capabilities_memb`. -/
  reportAllocator : Allocator (np*ne*nc)
  /-- `peer_tm_init`, on what the block held before. -/
  peerTmInit : PT → PT

variable {np ne nc : ℕ} {ET CT PT : Type}

namespace PeerStore

variable (p : PeerStore np ne nc ET CT PT)

/-- The peer in a block. -/
abbrev peer (i : Fin np) : Peer (np*ne) PT := p.peersMemb.mem i

/-- The record in a block. -/
abbrev peerEdge (j : Fin (np*ne)) : PeerEdge ne (np*ne*nc) ET := p.peerEdgesMemb.mem j

/-- The report in a block. -/
abbrev peerCap (r : Fin (np*ne*nc)) : PeerEdgeCapability (ne*nc) CT :=
  p.peerCapabilitiesMemb.mem r

/-- All records of all peers. -/
def records : List (Fin (np*ne)) := p.peers.flatMap fun i => (p.peer i).edges

/-- All reports of all records. -/
def reports : List (Fin (np*ne*nc)) := p.records.flatMap fun j => (p.peerEdge j).capabilities

end PeerStore

/-- `PEER_LAST_SEEN_INVALID`. -/
def peerLastSeenInvalid : UInt32 := 0xffffffff

/-- `peer_info_find`. -/
def peerInfoFind (p : PeerStore np ne nc ET CT PT) (addr : IpAddr) : Option (Fin np) :=
  p.peers.find? fun i => decide ((p.peer i).addr=addr)

/-- Fill a free peer block and put it at the front of the list. -/
def PeerStore.placePeer (env : PeerEnv np ne nc PT) (p : PeerStore np ne nc ET CT PT)
    (i : Fin np) (addr : IpAddr) : PeerStore np ne nc ET CT PT :=
  let peer := ⟨addr,peerLastSeenInvalid,env.peerTmInit (p.peer i).tm,[]⟩
  {p with
    peersMemb := (p.peersMemb.take i).set i peer
    peers := listPush p.peers i}

/-- `peer_info_add`; no space is ever freed up for a new peer. -/
def peerInfoAdd (env : PeerEnv np ne nc PT) (p : PeerStore np ne nc ET CT PT) (addr : IpAddr) :
    PeerStore np ne nc ET CT PT × Option (Fin np) :=
  match peerInfoFind p addr with
  | some i => (p,some i)
  | none =>
    match env.peerAllocator.pick p.peersMemb.used with
    | some i => (p.placePeer env i addr,some i)
    | none => (p,none)

/-- `peer_info_find_edge`. -/
def peerInfoFindEdge (p : PeerStore np ne nc ET CT PT) (i : Fin np) (e : Fin ne) :
    Option (Fin (np*ne)) :=
  (p.peer i).edges.find? fun j => decide ((p.peerEdge j).edge=e)

/-- Fill a free record, whose trust values stay as they were, and put it at
the front of a peer's list. -/
def PeerStore.placeRecord (p : PeerStore np ne nc ET CT PT) (i : Fin np) (j : Fin (np*ne))
    (e : Fin ne) (about : IpAddr) : PeerStore np ne nc ET CT PT :=
  let record := ⟨e,(p.peerEdge j).tm,[],about⟩
  let peer := {p.peer i with edges := listPush (p.peer i).edges j}
  {p with
    peerEdgesMemb := (p.peerEdgesMemb.take j).set j record
    peersMemb := p.peersMemb.set i peer}

/-- `peer_info_find_edge_or_allocate`. -/
def peerInfoFindEdgeOrAllocate (env : PeerEnv np ne nc PT) (p : PeerStore np ne nc ET CT PT)
    (i : Fin np) (e : Fin ne) (about : IpAddr) :
    PeerStore np ne nc ET CT PT × Option (Fin (np*ne)) :=
  match peerInfoFindEdge p i e with
  | some j => (p,some j)
  | none =>
    if ne≤(p.peer i).edges.length then (p,none)
    else match env.recordAllocator.pick p.peerEdgesMemb.used with
      | some j => (p.placeRecord i j e about,some j)
      | none => (p,none)

/-- `peer_info_find_capability`. -/
def peerInfoFindCapability (p : PeerStore np ne nc ET CT PT) (j : Fin (np*ne))
    (c : Fin (ne*nc)) : Option (Fin (np*ne*nc)) :=
  (p.peerEdge j).capabilities.find? fun r => decide ((p.peerCap r).cap=c)

/-- Fill a free report, whose trust values stay as they were, and put it at
the front of a record's list. -/
def PeerStore.placeReport (p : PeerStore np ne nc ET CT PT) (j : Fin (np*ne))
    (r : Fin (np*ne*nc)) (c : Fin (ne*nc)) (about : List UInt8) : PeerStore np ne nc ET CT PT :=
  let report := ⟨c,(p.peerCap r).tm,about⟩
  let record := {p.peerEdge j with capabilities := listPush (p.peerEdge j).capabilities r}
  {p with
    peerCapabilitiesMemb := (p.peerCapabilitiesMemb.take r).set r report
    peerEdgesMemb := p.peerEdgesMemb.set j record}

/-- `peer_info_find_capability_or_allocate`. -/
def peerInfoFindCapabilityOrAllocate (env : PeerEnv np ne nc PT)
    (p : PeerStore np ne nc ET CT PT) (j : Fin (np*ne)) (c : Fin (ne*nc)) (about : List UInt8) :
    PeerStore np ne nc ET CT PT × Option (Fin (np*ne*nc)) :=
  match peerInfoFindCapability p j c with
  | some r => (p,some r)
  | none =>
    if nc≤(p.peerEdge j).capabilities.length then (p,none)
    else match env.reportAllocator.pick p.peerCapabilitiesMemb.used with
      | some r => (p.placeReport j r c about,some r)
      | none => (p,none)

/-- Store the reported values of an edge. -/
def PeerStore.writeRecord (p : PeerStore np ne nc ET CT PT) (j : Fin (np*ne)) (tm : ET)
    (about : IpAddr) : PeerStore np ne nc ET CT PT :=
  {p with peerEdgesMemb := p.peerEdgesMemb.set j {p.peerEdge j with tm := tm,about := about}}

/-- Store the reported values of a capability. -/
def PeerStore.writeReport (p : PeerStore np ne nc ET CT PT) (r : Fin (np*ne*nc)) (tm : CT)
    (about : List UInt8) : PeerStore np ne nc ET CT PT :=
  let report := {p.peerCap r with tm := tm,about := about}
  {p with peerCapabilitiesMemb := p.peerCapabilitiesMemb.set r report}

/-- `peer_info_update_edge`, for an edge with the given address. -/
def peerInfoUpdateEdge (env : PeerEnv np ne nc PT) (p : PeerStore np ne nc ET CT PT)
    (i : Fin np) (e : Fin ne) (tm : ET) (about : IpAddr) : PeerStore np ne nc ET CT PT × Bool :=
  match peerInfoFindEdgeOrAllocate env p i e about with
  | (p',some j) => (p'.writeRecord j tm about,true)
  | (p',none) => (p',false)

/-- `peer_info_update_capability`, for an edge with the given address and a
capability with the given name. -/
def peerInfoUpdateCapability (env : PeerEnv np ne nc PT) (p : PeerStore np ne nc ET CT PT)
    (i : Fin np) (e : Fin ne) (c : Fin (ne*nc)) (tm : CT) (about : IpAddr) (name : List UInt8) :
    PeerStore np ne nc ET CT PT × Bool :=
  match peerInfoFindEdgeOrAllocate env p i e about with
  | (p',some j) =>
    match peerInfoFindCapabilityOrAllocate env p' j c name with
    | (p'',some r) => (p''.writeReport r tm name,true)
    | (p'',none) => (p'',false)
  | (p',none) => (p',false)

/-- `peer_info_init` on zero-initialised memory that holds the given values;
every block then points to the first block of its target pool. -/
def peerInfoInit (np ne nc : ℕ) (edge : Fin ne) (cap : Fin (ne*nc)) (et : ET) (ct : CT)
    (pt : PT) : PeerStore np ne nc ET CT PT where
  peersMemb := ⟨fun _ => false,fun _ => ⟨.replicate 16 0,0,pt,[]⟩⟩
  peerEdgesMemb := ⟨fun _ => false,fun _ => ⟨edge,et,[],.replicate 16 0⟩⟩
  peerCapabilitiesMemb := ⟨fun _ => false,fun _ => ⟨cap,ct,[]⟩⟩
  peers := []

/-- The representation invariant of the peer store. -/
structure PeersWellFormed (p : PeerStore np ne nc ET CT PT) : Prop where
  /-- Used peer blocks are listed once. -/
  ownsPeers : Owns p.peersMemb.used p.peers
  /-- Used records belong to one peer, once. -/
  ownsRecords : Owns p.peerEdgesMemb.used p.records
  /-- Used reports belong to one record, once. -/
  ownsReports : Owns p.peerCapabilitiesMemb.used p.reports

section Cases

variable {p : PeerStore np ne nc ET CT PT}

/-- The outcomes of `peer_info_add`: known; no room; a new peer. -/
theorem peerInfoAdd_cases (env : PeerEnv np ne nc PT) (p : PeerStore np ne nc ET CT PT)
    (addr : IpAddr) :
    (peerInfoAdd env p addr).1=p ∨
      ∃ i, p.peersMemb.used i=false ∧ (peerInfoAdd env p addr).1=p.placePeer env i addr := by
  unfold peerInfoAdd
  split
  · exact Or.inl rfl
  · split
    · next i hi => exact Or.inr ⟨i,env.peerAllocator.pick_free hi,rfl⟩
    · exact Or.inl rfl

/-- The outcomes of looking a record up or allocating it: found; no room; new. -/
theorem findEdgeOrAllocate_cases (env : PeerEnv np ne nc PT) (p : PeerStore np ne nc ET CT PT)
    (i : Fin np) (e : Fin ne) (about : IpAddr) :
    (∃ j∈(p.peer i).edges, (p.peerEdge j).edge=e ∧
      peerInfoFindEdgeOrAllocate env p i e about=(p,some j)) ∨
    peerInfoFindEdgeOrAllocate env p i e about=(p,none) ∨
    ∃ j, peerInfoFindEdge p i e=none ∧ p.peerEdgesMemb.used j=false ∧
      peerInfoFindEdgeOrAllocate env p i e about=(p.placeRecord i j e about,some j) := by
  unfold peerInfoFindEdgeOrAllocate
  split
  · next j hj =>
    exact Or.inl ⟨j,List.mem_of_find?_eq_some hj,by simpa using List.find?_some hj,rfl⟩
  · next hnone =>
    split
    · exact Or.inr (Or.inl rfl)
    · split
      · next j hj => exact Or.inr (Or.inr ⟨j,hnone,env.recordAllocator.pick_free hj,rfl⟩)
      · exact Or.inr (Or.inl rfl)

/-- The outcomes of looking a report up or allocating it: found; no room; new. -/
theorem findCapabilityOrAllocate_cases (env : PeerEnv np ne nc PT)
    (p : PeerStore np ne nc ET CT PT) (j : Fin (np*ne)) (c : Fin (ne*nc)) (about : List UInt8) :
    (∃ r∈(p.peerEdge j).capabilities, (p.peerCap r).cap=c ∧
      peerInfoFindCapabilityOrAllocate env p j c about=(p,some r)) ∨
    peerInfoFindCapabilityOrAllocate env p j c about=(p,none) ∨
    ∃ r, peerInfoFindCapability p j c=none ∧ p.peerCapabilitiesMemb.used r=false ∧
      peerInfoFindCapabilityOrAllocate env p j c about=(p.placeReport j r c about,some r) := by
  unfold peerInfoFindCapabilityOrAllocate
  split
  · next r hr =>
    exact Or.inl ⟨r,List.mem_of_find?_eq_some hr,by simpa using List.find?_some hr,rfl⟩
  · next hnone =>
    split
    · exact Or.inr (Or.inl rfl)
    · split
      · next r hr => exact Or.inr (Or.inr ⟨r,hnone,env.reportAllocator.pick_free hr,rfl⟩)
      · exact Or.inr (Or.inl rfl)

end Cases

section Place

variable {p : PeerStore np ne nc ET CT PT}

/-- A new peer has no records, so the records stay the same. -/
theorem records_placePeer (h : PeersWellFormed p) (env : PeerEnv np ne nc PT) {i : Fin np}
    (hi : p.peersMemb.used i=false) (addr : IpAddr) :
    (p.placePeer env i addr).peers=i::p.peers ∧
      (p.placePeer env i addr).records=p.records := by
  have hnot := h.ownsPeers.not_mem hi
  have hlist : (p.placePeer env i addr).peers=i::p.peers := listPush_of_not_mem hnot
  have hsame : ((p.placePeer env i addr).peer i).edges=[] :=
    congrArg Peer.edges ((p.peersMemb.take i).set_mem_same i _)
  refine ⟨hlist,?_⟩
  rw [PeerStore.records,hlist,List.flatMap_cons,hsame,List.nil_append]
  refine List.flatMap_congr fun i' hi' => ?_
  have hne : i'≠i := fun he => hnot (he ▸ hi')
  exact congrArg Peer.edges ((p.peersMemb.take i).set_mem_other _ hne)

/-- Adding a peer in a free block keeps the invariant. -/
theorem PeersWellFormed.placePeer (h : PeersWellFormed p) (env : PeerEnv np ne nc PT)
    {i : Fin np} (hi : p.peersMemb.used i=false) (addr : IpAddr) :
    PeersWellFormed (p.placePeer env i addr) := by
  obtain ⟨hlist,hrec⟩ := records_placePeer h env hi addr
  refine ⟨?_,?_,?_⟩
  · rw [hlist]
    exact h.ownsPeers.take hi
  · rw [hrec]
    exact h.ownsRecords
  · rw [PeerStore.reports,hrec]
    exact h.ownsReports

/-- A record in a free block is a new one. -/
theorem records_placeRecord (h : PeersWellFormed p) {i : Fin np} (hi : i∈p.peers)
    {j : Fin (np*ne)} (hj : p.peerEdgesMemb.used j=false) (e : Fin ne) (about : IpAddr) :
    (p.placeRecord i j e about).records.Perm (j::p.records) := by
  have hnot : j∉(p.peer i).edges := fun hm =>
    h.ownsRecords.not_mem hj (List.mem_flatMap.mpr ⟨i,hi,hm⟩)
  have hsame : ((p.placeRecord i j e about).peer i).edges=j::(p.peer i).edges :=
    (congrArg Peer.edges (p.peersMemb.set_mem_same i _)).trans (listPush_of_not_mem hnot)
  have hother : ∀ i', i'≠i →
      ((p.placeRecord i j e about).peer i').edges=(p.peer i').edges :=
    fun i' hne => congrArg Peer.edges (p.peersMemb.set_mem_other _ hne)
  have hnew := perm_flatMap_update h.ownsPeers.nodup hi hother
  rw [hsame] at hnew
  have hold := perm_flatMap_of_mem (fun i => (p.peer i).edges) hi
  exact hnew.trans (hold.symm.cons j)

/-- The contents of a new record. -/
theorem placeRecord_same (i : Fin np) (j : Fin (np*ne)) (e : Fin ne) (about : IpAddr) :
    (p.placeRecord i j e about).peerEdge j=⟨e,(p.peerEdge j).tm,[],about⟩ :=
  (p.peerEdgesMemb.take j).set_mem_same j _

/-- A new record changes no other record. -/
theorem placeRecord_other (i : Fin np) {j j' : Fin (np*ne)} (hne : j'≠j) (e : Fin ne)
    (about : IpAddr) : (p.placeRecord i j e about).peerEdge j'=p.peerEdge j' :=
  (p.peerEdgesMemb.take j).set_mem_other _ hne

/-- Adding a record in a free block keeps the invariant. -/
theorem PeersWellFormed.placeRecord (h : PeersWellFormed p) {i : Fin np} (hi : i∈p.peers)
    {j : Fin (np*ne)} (hj : p.peerEdgesMemb.used j=false) (e : Fin ne) (about : IpAddr) :
    PeersWellFormed (p.placeRecord i j e about) := by
  have hperm := records_placeRecord h hi hj e about
  refine ⟨h.ownsPeers,(h.ownsRecords.take hj).perm hperm.symm,?_⟩
  have hreports : (p.placeRecord i j e about).reports.Perm p.reports := by
    refine (hperm.flatMap_right _).trans ?_
    rw [List.flatMap_cons,placeRecord_same,List.nil_append]
    refine .of_eq (List.flatMap_congr fun j' hj' => ?_)
    have hne := h.ownsRecords.ne_of_mem hj' hj
    rw [placeRecord_other i hne]
  exact h.ownsReports.perm hreports.symm

/-- A report in a free block is a new one. -/
theorem placeReport_same (h : PeersWellFormed p) {j : Fin (np*ne)} (hj : j∈p.records)
    {r : Fin (np*ne*nc)} (hr : p.peerCapabilitiesMemb.used r=false) (c : Fin (ne*nc))
    (about : List UInt8) :
    (p.placeReport j r c about).peerEdge j=
      {p.peerEdge j with capabilities := r::(p.peerEdge j).capabilities} := by
  have hnot : r∉(p.peerEdge j).capabilities := fun hm =>
    h.ownsReports.not_mem hr (List.mem_flatMap.mpr ⟨j,hj,hm⟩)
  rw [←listPush_of_not_mem hnot]
  exact p.peerEdgesMemb.set_mem_same j _

/-- A new report changes no other record. -/
theorem placeReport_other {j j' : Fin (np*ne)} (hne : j'≠j) (r : Fin (np*ne*nc))
    (c : Fin (ne*nc)) (about : List UInt8) :
    (p.placeReport j r c about).peerEdge j'=p.peerEdge j' :=
  p.peerEdgesMemb.set_mem_other _ hne

/-- Adding a report in a free block keeps the invariant. -/
theorem PeersWellFormed.placeReport (h : PeersWellFormed p) {j : Fin (np*ne)}
    (hj : j∈p.records) {r : Fin (np*ne*nc)} (hr : p.peerCapabilitiesMemb.used r=false)
    (c : Fin (ne*nc)) (about : List UInt8) : PeersWellFormed (p.placeReport j r c about) := by
  have hother : ∀ j', j'≠j → ((p.placeReport j r c about).peerEdge j').capabilities=
      (p.peerEdge j').capabilities := fun j' hne => by rw [placeReport_other hne]
  have hnew := perm_flatMap_update h.ownsRecords.nodup hj hother
  rw [placeReport_same h hj hr] at hnew
  exact ⟨h.ownsPeers,h.ownsRecords,
    ((h.ownsReports.perm (perm_flatMap_of_mem _ hj)).take hr).perm hnew.symm⟩

/-- The contents of a rewritten record. -/
theorem writeRecord_same (j : Fin (np*ne)) (tm : ET) (about : IpAddr) :
    (p.writeRecord j tm about).peerEdge j={p.peerEdge j with tm := tm,about := about} :=
  p.peerEdgesMemb.set_mem_same j _

/-- Rewriting a record changes no other record. -/
theorem writeRecord_other {j j' : Fin (np*ne)} (hne : j'≠j) (tm : ET) (about : IpAddr) :
    (p.writeRecord j tm about).peerEdge j'=p.peerEdge j' := p.peerEdgesMemb.set_mem_other _ hne

/-- Storing reported values of an edge keeps the invariant. -/
theorem PeersWellFormed.writeRecord (h : PeersWellFormed p) (j : Fin (np*ne)) (tm : ET)
    (about : IpAddr) : PeersWellFormed (p.writeRecord j tm about) := by
  have hreports : (p.writeRecord j tm about).reports=p.reports := by
    refine List.flatMap_congr fun j' _ => ?_
    by_cases hne : j'=j
    · subst hne
      rw [writeRecord_same]
    · rw [writeRecord_other hne]
  refine ⟨h.ownsPeers,h.ownsRecords,?_⟩
  rw [hreports]
  exact h.ownsReports

/-- Storing reported values of a capability keeps the invariant. -/
theorem PeersWellFormed.writeReport (h : PeersWellFormed p) (r : Fin (np*ne*nc)) (tm : CT)
    (about : List UInt8) : PeersWellFormed (p.writeReport r tm about) :=
  ⟨h.ownsPeers,h.ownsRecords,h.ownsReports⟩

/-- `peer_info_add` keeps the invariant. -/
theorem PeersWellFormed.peerAdd (h : PeersWellFormed p) (env : PeerEnv np ne nc PT)
    (addr : IpAddr) : PeersWellFormed (peerInfoAdd env p addr).1 := by
  rcases peerInfoAdd_cases env p addr with ha | ⟨i,hi,ha⟩
  · rw [ha]
    exact h
  · rw [ha]
    exact h.placePeer env hi addr

/-- A lookup or allocation of a record keeps the invariant, and what it
returns is a record of the peer store about the edge. -/
theorem PeersWellFormed.findEdgeOrAllocate (h : PeersWellFormed p) (env : PeerEnv np ne nc PT)
    {i : Fin np} (hi : i∈p.peers) (e : Fin ne) (about : IpAddr)
    {result : PeerStore np ne nc ET CT PT × Option (Fin (np*ne))}
    (hr : peerInfoFindEdgeOrAllocate env p i e about=result) :
    PeersWellFormed result.1 ∧
      ∀ j∈result.2, j∈result.1.records ∧ (result.1.peerEdge j).edge=e := by
  subst hr
  rcases findEdgeOrAllocate_cases env p i e about with ⟨j,hj,hje,ha⟩ | ha | ⟨j,_,hj,ha⟩
  · rw [ha]
    refine ⟨h,fun j' hj' => ?_⟩
    obtain rfl := Option.some.inj hj'
    exact ⟨List.mem_flatMap.mpr ⟨i,hi,hj⟩,hje⟩
  · rw [ha]
    exact ⟨h,fun _ hj' => nomatch hj'⟩
  · rw [ha]
    refine ⟨h.placeRecord hi hj e _,fun j' hj' => ?_⟩
    obtain rfl := Option.some.inj hj'
    refine ⟨(records_placeRecord h hi hj e _).mem_iff.mpr List.mem_cons_self,?_⟩
    rw [placeRecord_same]

/-- `peer_info_update_edge` keeps the invariant. -/
theorem PeersWellFormed.updateEdge (h : PeersWellFormed p) (env : PeerEnv np ne nc PT)
    {i : Fin np} (hi : i∈p.peers) (e : Fin ne) (tm : ET) (about : IpAddr) :
    PeersWellFormed (peerInfoUpdateEdge env p i e tm about).1 := by
  unfold peerInfoUpdateEdge
  split
  · next p' j hr => exact (h.findEdgeOrAllocate env hi e about hr).1.writeRecord j tm about
  · next p' hr => exact (h.findEdgeOrAllocate env hi e about hr).1

/-- `peer_info_update_capability` keeps the invariant. -/
theorem PeersWellFormed.updateCapability (h : PeersWellFormed p) (env : PeerEnv np ne nc PT)
    {i : Fin np} (hi : i∈p.peers) (e : Fin ne) (c : Fin (ne*nc)) (tm : CT) (about : IpAddr)
    (name : List UInt8) :
    PeersWellFormed (peerInfoUpdateCapability env p i e c tm about name).1 := by
  unfold peerInfoUpdateCapability
  split
  · next p' j hr =>
    obtain ⟨hp',hj⟩ := h.findEdgeOrAllocate env hi e about hr
    rcases findCapabilityOrAllocate_cases env p' j c name with ⟨r,_,_,ha⟩ | ha | ⟨r,_,hfree,ha⟩
    · rw [ha]
      exact hp'.writeReport r tm name
    · rw [ha]
      exact hp'
    · rw [ha]
      exact (hp'.placeReport (hj j rfl).1 hfree c name).writeReport r tm name
  · next p' hr => exact (h.findEdgeOrAllocate env hi e about hr).1

end Place

/-- The empty store is well formed. -/
theorem peersWellFormed_init (edge : Fin ne) (cap : Fin (ne*nc)) (et : ET) (ct : CT) (pt : PT) :
    PeersWellFormed (peerInfoInit np ne nc edge cap et ct pt) :=
  ⟨⟨List.nodup_nil,fun i => by simp [peerInfoInit]⟩,
    ⟨List.nodup_nil,fun i => by simp [peerInfoInit,PeerStore.records]⟩,
    ⟨List.nodup_nil,fun i => by simp [peerInfoInit,PeerStore.records,PeerStore.reports]⟩⟩

end TrustAlloc.PeerInfo
