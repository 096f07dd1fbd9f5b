import TrustAlloc.PeerViews

/-!
# Reports of peers that are recorded

A report about a listed edge is always recorded. A report about a capability is
recorded unless the record of its edge has used up its share. Reports about
capabilities that were removed since still count, so that the share can be used
up although the edge has a capability that nothing was reported about.
-/

namespace TrustAlloc.PeerReports

open EdgeInfo PeerInfo PeerReferences PeerViews Pools Runs

variable {np ne nc : ℕ} {ET CT PT : Type}

section Sharing

variable {p : PeerStore np ne nc ET CT PT} {i : Fin np} {e : Fin ne} {j : Fin (np*ne)}

/-- Adding a peer keeps the shares. -/
theorem shares_peerAdd (h : Shares p) (penv : PeerEnv np ne nc PT) (addr : IpAddr) :
    Shares (peerInfoAdd penv p addr).1 := by
  refine ⟨h.peers.peerAdd penv addr,h.distinct.peerAdd h.peers penv addr,?_⟩
  rcases peerInfoAdd_cases penv p addr with ha | ⟨i,hi,ha⟩
  · rw [ha]
    exact h.bounded
  · rw [ha,(records_placePeer h.peers penv hi addr).2]
    exact h.bounded

/-- Storing reported values of an edge keeps the shares. -/
theorem shares_writeRecord (h : Shares p) (j : Fin (np*ne)) (tm : ET) (about : IpAddr) :
    Shares (p.writeRecord j tm about) := by
  refine ⟨h.peers.writeRecord j tm about,h.distinct.writeRecord j tm about,fun j' hj' => ?_⟩
  by_cases heq : j'=j
  · rw [heq,writeRecord_same]
    exact h.bounded j (heq ▸ hj')
  · rw [writeRecord_other heq]
    exact h.bounded j' hj'

/-- Storing reported values of a capability keeps the shares. -/
theorem shares_writeReport (h : Shares p) (r : Fin (np*ne*nc)) (tm : CT) (about : List UInt8) :
    Shares (p.writeReport r tm about) :=
  ⟨h.peers.writeReport r tm about,h.distinct.writeReport r tm about,h.bounded⟩

/-- Without room nothing is allocated. -/
theorem findCapabilityOrAllocate_full (penv : PeerEnv np ne nc PT) {c : Fin (ne*nc)}
    (hnone : peerInfoFindCapability p j c=none) (hfull : ¬(p.peerEdge j).capabilities.length < nc)
    (name : List UInt8) : peerInfoFindCapabilityOrAllocate penv p j c name=(p,none) := by
  rw [peerInfoFindCapabilityOrAllocate,hnone]
  exact if_pos (not_lt.mp hfull)

/-- `peer_info_update_edge` writes what the peer has reported of the edge, and
nothing else, whatever the records refer to. -/
theorem shares_updateEdge (h : Shares p) (penv : PeerEnv np ne nc PT) (hi : i∈p.peers)
    (e : Fin ne) (tm : ET) (about : IpAddr) :
    ∃ p', peerInfoUpdateEdge penv p i e tm about=(p',true) ∧ Shares p' ∧ OthersSame p p' i e ∧
      edgeView p' i e=some tm ∧ ∀ c, capView p' i e c=capView p i e c := by
  obtain ⟨q,j,hq,hshares,hj,hother,hcap,_⟩ := h.findEdgeOrAllocate penv hi e about
  have hiq : i∈q.peers := hother.peers ▸ hi
  obtain ⟨hother',hedge',hcap'⟩ := othersSame_writeRecord hshares.peers hiq hj tm about
  exact ⟨q.writeRecord j tm about,by rw [peerInfoUpdateEdge,hq],
    shares_writeRecord hshares j tm about,
    hother.trans hother',hedge',fun c => (hcap' c).trans (hcap c)⟩

/-- A record about the edge has a report about the capability or room for one. -/
def HasRoom (p : PeerStore np ne nc ET CT PT) (i : Fin np) (e : Fin ne) (c : Fin (ne*nc)) : Prop :=
  ∀ j∈peerInfoFindEdge p i e, peerInfoFindCapability p j c=none →
    (p.peerEdge j).capabilities.length < nc

/-- With room, `peer_info_update_capability` writes what the peer has reported
of the capability, and changes nothing else that was there. Without room it
reports that it has failed. -/
theorem shares_updateCapability (h : Shares p) (penv : PeerEnv np ne nc PT) (hi : i∈p.peers)
    (e : Fin ne) {c : Fin (ne*nc)} (hpos : 0 < nc) (tm : CT) (about : IpAddr)
    (name : List UInt8) :
    ∃ p' done, peerInfoUpdateCapability penv p i e c tm about name=(p',done) ∧ Shares p' ∧
      OthersSame p p' i e ∧ (∀ t, edgeView p i e=some t → edgeView p' i e=some t) ∧
      (∀ c', c'≠c → capView p' i e c'=capView p i e c') ∧ (done=true ↔ HasRoom p i e c) ∧
      (done=true → capView p' i e c=some tm) := by
  obtain ⟨q,j,hq,hshares,hj,hother,hcap,hcase⟩ := h.findEdgeOrAllocate penv hi e about
  have hiq : i∈q.peers := hother.peers ▸ hi
  have hview : ∀ t, edgeView p i e=some t → edgeView q i e=some t := by
    intro t ht
    rcases hcase with rfl | ⟨hnone,_⟩
    · exact ht
    · rw [edgeView,hnone] at ht
      cases ht
  have hroom : (peerInfoFindCapability q j c=none → (q.peerEdge j).capabilities.length < nc) ↔
      HasRoom p i e c := by
    rcases hcase with rfl | ⟨hnone,hempty⟩
    · unfold HasRoom
      rw [hj]
      exact ⟨fun hr j' hj' => Option.some.inj hj' ▸ hr,fun hr => hr j rfl⟩
    · refine iff_of_true (fun _ => by rw [hempty]; exact hpos) fun j' hj' => ?_
      rw [hnone] at hj'
      cases hj'
  by_cases hlt : peerInfoFindCapability q j c=none → (q.peerEdge j).capabilities.length < nc
  · obtain ⟨q',r,hq',hshares',hj',hr,hother',hedge',hcap'⟩ :=
      hshares.findCapabilityOrAllocate penv hiq hj hlt name
    have hiq' : i∈q'.peers := hother'.peers ▸ hiq
    obtain ⟨hother'',hedge'',hnew,hcap''⟩ :=
      othersSame_writeReport hshares'.peers hiq' hj' hr tm name
    refine ⟨q'.writeReport r tm name,true,?_,shares_writeReport hshares' r tm name,
      (hother.trans hother').trans hother'',fun t ht => (hedge''.trans hedge').trans (hview t ht),
      fun c' hc' => ((hcap'' c' hc').trans (hcap' c' hc')).trans (hcap c'),
      iff_of_true rfl (hroom.mp hlt),fun _ => hnew⟩
    rw [peerInfoUpdateCapability,hq]
    dsimp only
    rw [hq']
  · have hnone : peerInfoFindCapability q j c=none := by
      by_contra hne
      exact hlt fun hc => absurd hc hne
    have hfull : ¬(q.peerEdge j).capabilities.length < nc := fun hc => hlt fun _ => hc
    refine ⟨q,false,?_,hshares,hother,hview,fun c' _ => hcap c',
      iff_of_false Bool.false_ne_true fun hr => hlt (hroom.mpr hr),
      fun hc => absurd hc Bool.false_ne_true⟩
    rw [peerInfoUpdateCapability,hq]
    dsimp only
    rw [findCapabilityOrAllocate_full penv hnone hfull]

end Sharing

section Recording

variable {env : EdgeEnv ne nc ET CT} {penv : PeerEnv np ne nc PT} {st : Stores np ne nc ET CT PT}

/-- A report about an edge is recorded: the update succeeds, the record that is
found for the edge has the reported values, and all other entries stay. -/
structure EdgeRecorded (penv : PeerEnv np ne nc PT) (st : Stores np ne nc ET CT PT) (i : Fin np)
    (e : Fin ne) (tm : ET) : Prop where
  /-- It returns true. -/
  success : (peerInfoUpdateEdge penv st.peers i e tm (st.edges.edge e).ep).2=true
  /-- The values are found. -/
  found : edgeView (peerInfoUpdateEdge penv st.peers i e tm (st.edges.edge e).ep).1 i e=some tm
  /-- Other peers' entries, and this one's about other edges. -/
  others : OthersSame st.peers
    (peerInfoUpdateEdge penv st.peers i e tm (st.edges.edge e).ep).1 i e
  /-- Entries about capabilities of the edge. -/
  caps : ∀ c, capView (peerInfoUpdateEdge penv st.peers i e tm (st.edges.edge e).ep).1 i e c=
    capView st.peers i e c

/-- A report about a capability is recorded. -/
structure CapabilityRecorded (penv : PeerEnv np ne nc PT) (st : Stores np ne nc ET CT PT)
    (i : Fin np) (e : Fin ne) (c : Fin (ne*nc)) (tm : CT) : Prop where
  /-- It returns true. -/
  success : (peerInfoUpdateCapability penv st.peers i e c tm (st.edges.edge e).ep
    (st.edges.cap c).name).2=true
  /-- The values are found. -/
  found : capView (peerInfoUpdateCapability penv st.peers i e c tm (st.edges.edge e).ep
    (st.edges.cap c).name).1 i e c=some tm
  /-- Other peers' entries, and this one's about other edges. -/
  others : OthersSame st.peers (peerInfoUpdateCapability penv st.peers i e c tm
    (st.edges.edge e).ep (st.edges.cap c).name).1 i e
  /-- The entry about the edge, if there was one. -/
  edge : ∀ t, edgeView st.peers i e=some t → edgeView (peerInfoUpdateCapability penv st.peers i e c
    tm (st.edges.edge e).ep (st.edges.cap c).name).1 i e=some t
  /-- Entries about other capabilities of the edge. -/
  caps : ∀ c', c'≠c → capView (peerInfoUpdateCapability penv st.peers i e c tm
    (st.edges.edge e).ep (st.edges.cap c).name).1 i e c'=capView st.peers i e c'

/-- Every report of a known peer about a listed edge or one of its capabilities
is recorded. -/
def ReportsRecorded (penv : PeerEnv np ne nc PT) (st : Stores np ne nc ET CT PT) : Prop :=
  ∀ i∈st.peers.peers, ∀ e∈st.edges.edgeResources, (∀ tm, EdgeRecorded penv st i e tm) ∧
    ∀ c∈(st.edges.edge e).capabilities, ∀ tm, CapabilityRecorded penv st i e c tm

/-- No record about a listed edge has used up its share while it lacks a report
about a capability of the edge. -/
def RoomForReports (st : Stores np ne nc ET CT PT) : Prop :=
  ∀ i∈st.peers.peers, ∀ e∈st.edges.edgeResources, ∀ c∈(st.edges.edge e).capabilities,
    HasRoom st.peers i e c

/-- Room is decided by the lists of the two stores. -/
instance decidableRoomForReports (st : Stores np ne nc ET CT PT) :
    Decidable (RoomForReports st) :=
  inferInstanceAs (Decidable (∀ i∈st.peers.peers, ∀ e∈st.edges.edgeResources,
    ∀ c∈(st.edges.edge e).capabilities, ∀ j∈peerInfoFindEdge st.peers i e,
      peerInfoFindCapability st.peers j c=none →
        (st.peers.peerEdge j).capabilities.length < nc))

/-- Both stores are well formed, whatever the records refer to. -/
structure StoresKept (st : Stores np ne nc ET CT PT) : Prop where
  /-- The invariant of the edge store. -/
  edges : WellFormed st.edges
  /-- The shares of the peer store. -/
  peers : Shares st.peers

/-- A listed capability needs a share. -/
theorem StoresKept.nc_pos (h : StoresKept st) {e : Fin ne} (he : e∈st.edges.edgeResources)
    {c : Fin (ne*nc)} (hc : c∈(st.edges.edge e).capabilities) : 0 < nc :=
  (List.length_pos_of_mem hc).trans_le (h.edges.bounded e he)

/-- In a state all reports are recorded exactly when there is room for them. -/
theorem reportsRecorded_iff (h : StoresKept st) :
    ReportsRecorded penv st ↔ RoomForReports st := by
  constructor
  · intro hrecorded i hi e he c hc
    have hsuccess := ((hrecorded i hi e he).2 c hc (st.edges.cap c).tm).success
    obtain ⟨p',done,hresult,_,_,_,_,hiff,_⟩ := shares_updateCapability h.peers penv hi e (c:=c)
      (h.nc_pos he hc) (st.edges.cap c).tm (st.edges.edge e).ep (st.edges.cap c).name
    rw [hresult] at hsuccess
    exact hiff.mp hsuccess
  · intro hroom i hi e he
    refine ⟨fun tm => ?_,fun c hc tm => ?_⟩
    · obtain ⟨p',hresult,_,hother,hedge,hcap⟩ :=
        shares_updateEdge h.peers penv hi e tm (st.edges.edge e).ep
      constructor <;> rw [hresult]
      · exact hedge
      · exact hother
      · exact hcap
    · obtain ⟨p',done,hresult,_,hother,hedge,hcap,hiff,hview⟩ :=
        shares_updateCapability h.peers penv hi e (c:=c) (h.nc_pos he hc) tm (st.edges.edge e).ep
          (st.edges.cap c).name
      have hdone := hiff.mpr (hroom i hi e he c hc)
      constructor <;> rw [hresult]
      · exact hdone
      · exact hview hdone
      · exact hother
      · exact hedge
      · exact hcap

/-- Every admitted operation keeps both stores. -/
theorem StoresKept.step (h : StoresKept st) (env : EdgeEnv ne nc ET CT)
    (penv : PeerEnv np ne nc PT) {op : Op np ne nc ET CT} (hop : Admitted st op) :
    StoresKept (step env penv st op) := by
  have hinv : Inv (PeerReferences.step env penv st op) :=
    Inv.step ⟨h.edges,h.peers.peers⟩ env penv hop
  refine ⟨hinv.edges,?_⟩
  cases op with
  | edgeAdd addr => exact h.peers
  | edgeRemove e => exact h.peers
  | capabilityAdd e name => exact h.peers
  | capabilityRemove e c => exact h.peers
  | capabilityClear e => exact h.peers
  | writeEdge e flags tm => exact h.peers
  | writeCap c flags tm => exact h.peers
  | peerAdd addr => exact shares_peerAdd h.peers penv addr
  | updateEdge i e tm =>
    obtain ⟨p',hresult,hshares,_⟩ :=
      shares_updateEdge h.peers penv hop.1 e tm (st.edges.edge e).ep
    have hpeers : (PeerReferences.step env penv st (.updateEdge i e tm)).peers=p' :=
      congrArg Prod.fst hresult
    rw [hpeers]
    exact hshares
  | updateCapability i e c tm =>
    obtain ⟨p',done,hresult,hshares,_⟩ := shares_updateCapability h.peers penv hop.1 e (c:=c)
      (h.nc_pos hop.2.1 hop.2.2) tm (st.edges.edge e).ep (st.edges.cap c).name
    have hpeers : (PeerReferences.step env penv st (.updateCapability i e c tm)).peers=p' :=
      congrArg Prod.fst hresult
    rw [hpeers]
    exact hshares

/-- The stores are kept from the start. -/
theorem storesKept_start (edge : Fin ne) (cap : Fin (ne*nc)) (et : ET) (ct : CT) (pt : PT) :
    StoresKept (start np ne nc edge cap et ct pt) :=
  ⟨wellFormed_init ne nc et ct,peersWellFormed_init edge cap et ct pt,
    ⟨fun _ hi => (nomatch hi),fun _ hj => (nomatch hj)⟩,fun _ hj => (nomatch hj)⟩

/-- **Reports over a whole run.** In every reachable state all reports about
listed edges and their capabilities are recorded exactly when in every reachable
state there is room for those about capabilities. -/
theorem reportsRecorded_always_iff (env : EdgeEnv ne nc ET CT) (penv : PeerEnv np ne nc PT)
    (edge : Fin ne) (cap : Fin (ne*nc)) (et : ET) (ct : CT) (pt : PT)
    (ops : List (Op np ne nc ET CT))
    (hops : Along (step env penv) Admitted (start np ne nc edge cap et ct pt) ops) :
    Always (step env penv) (ReportsRecorded penv) (start np ne nc edge cap et ct pt) ops ↔
      Always (step env penv) RoomForReports (start np ne nc edge cap et ct pt) ops :=
  always_congr (fun _ _ hI hA => hI.step env penv hA) (fun _ hI => reportsRecorded_iff hI)
    (storesKept_start edge cap et ct pt) hops

/-- A report is recorded after an edge was removed and its block used again. -/
theorem reportsRecorded_always_iff_sample :
    Always (step sampleEdgeEnv samplePeerEnv) (ReportsRecorded samplePeerEnv)
      (start 8 4 3 0 0 () () ())
      [.edgeAdd (sampleAddr 1),.capabilityAdd 0 [0x72],.peerAdd (sampleAddr 9),
        .updateCapability 0 0 0 (),.edgeRemove 0,.edgeAdd (sampleAddr 2),.updateEdge 0 0 ()] :=
  (reportsRecorded_always_iff sampleEdgeEnv samplePeerEnv 0 0 () () ()
    [.edgeAdd (sampleAddr 1),.capabilityAdd 0 [0x72],.peerAdd (sampleAddr 9),
      .updateCapability 0 0 0 (),.edgeRemove 0,.edgeAdd (sampleAddr 2),.updateEdge 0 0 ()]
    (by decide)).mpr (by decide)

/-- A peer has reported about all three capabilities of an edge. One of them is
removed, its block is taken by another edge, and the edge gets a new capability,
which nothing can be reported about. -/
theorem not_reportsRecorded_of_stale_report :
    Along (step sampleEdgeEnv samplePeerEnv) Admitted (start 8 4 3 0 0 () () ())
        [.edgeAdd (sampleAddr 1),.edgeAdd (sampleAddr 2),.capabilityAdd 0 [0x61],
          .capabilityAdd 0 [0x62],.capabilityAdd 0 [0x63],.peerAdd (sampleAddr 9),
          .updateCapability 0 0 0 (),.updateCapability 0 0 1 (),.updateCapability 0 0 2 (),
          .capabilityRemove 0 0,.capabilityAdd 1 [0x61],.capabilityAdd 0 [0x64]] ∧
      ¬Always (step sampleEdgeEnv samplePeerEnv) (ReportsRecorded samplePeerEnv)
        (start 8 4 3 0 0 () () ())
        [.edgeAdd (sampleAddr 1),.edgeAdd (sampleAddr 2),.capabilityAdd 0 [0x61],
          .capabilityAdd 0 [0x62],.capabilityAdd 0 [0x63],.peerAdd (sampleAddr 9),
          .updateCapability 0 0 0 (),.updateCapability 0 0 1 (),.updateCapability 0 0 2 (),
          .capabilityRemove 0 0,.capabilityAdd 1 [0x61],.capabilityAdd 0 [0x64]] := by
  refine ⟨by decide,fun h => ?_⟩
  have hsuccess := ((h.last 0 (by decide) 0 (by decide)).2 3 (by decide) ()).success
  exact absurd hsuccess (by decide)

end Recording

end TrustAlloc.PeerReports
