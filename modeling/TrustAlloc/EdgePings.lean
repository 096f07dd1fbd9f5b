import TrustAlloc.EdgeStoreRuns
import TrustAlloc.RoundRobin

/-!
# Pinging the edges in turn

The process of `edge-ping.c`. It remembers the address of the edge that it
pinged last, and goes on with the edge behind it or with the first one. The
store may change in between in any way. Trust values of an edge are all that
`tm_update_ping` writes.
-/

namespace TrustAlloc.EdgePings

open EdgeInfo Runs

variable {ne nc : ℕ} {ET CT : Type}

section Source

/-- The static variables of `edge-ping.c`. -/
structure EdgePing where
  /-- `has_started`. -/
  hasStarted : Bool
  /-- `current_edge`. -/
  currentEdge : IpAddr

/-- What `tm_update_ping` is told. -/
inductive TmPingAction where
  /-- `TM_PING_SENT`. -/
  | sent
  /-- `TM_PING_RECEIVED`. -/
  | received
  deriving DecidableEq

/-- The calls that the process makes to other modules. -/
inductive Call (ne : ℕ) where
  /-- `uip_icmp6_send` of an echo request. -/
  | uipIcmp6Send (addr : IpAddr)
  /-- `tm_update_ping`, on an edge or on `NULL`. -/
  | tmUpdatePing (edge : Option (Fin ne)) (action : TmPingAction)
  deriving DecidableEq

/-- `find_next_edge_from_scratch`. -/
def findNextEdgeFromScratch (s : EdgeStore ne nc ET CT) (ping : EdgePing) :
    Option (Fin ne)×EdgePing :=
  match s.edgeResources.head? with
  | some edge => (some edge,⟨true,(s.edge edge).ep⟩)
  | none => (none,{ping with hasStarted := false})

/-- `find_next_edge`. -/
def findNextEdge (s : EdgeStore ne nc ET CT) (ping : EdgePing) : Option (Fin ne)×EdgePing :=
  if ping.hasStarted=false then findNextEdgeFromScratch s ping
  else
    match edgeInfoFindAddr s ping.currentEdge with
    | some edge =>
      match Pools.listItemNext s.edgeResources edge with
      | some edge => (some edge,⟨true,(s.edge edge).ep⟩)
      | none => findNextEdgeFromScratch s ping
    | none => findNextEdgeFromScratch s ping

/-- `periodic_action`. -/
def periodicAction (s : EdgeStore ne nc ET CT) (ping : EdgePing) : List (Call ne)×EdgePing :=
  let (edge,ping) := findNextEdge s ping
  if ping.hasStarted=true then
    ([.uipIcmp6Send ping.currentEdge,.tmUpdatePing edge .sent],ping)
  else ([],ping)

/-- `echo_callback`. -/
def echoCallback (s : EdgeStore ne nc ET CT) (ping : EdgePing) (source : IpAddr) : List (Call ne) :=
  match edgeInfoFindAddr s source with
  | some edge => if source=ping.currentEdge then [.tmUpdatePing (some edge) .received] else []
  | none => []

/-- The store and the process. -/
structure PingState (ne nc : ℕ) (ET CT : Type) where
  /-- The edges. -/
  store : EdgeStore ne nc ET CT
  /-- The static variables of the process. -/
  ping : EdgePing

/-- The state when the process has started. -/
def start (ne nc : ℕ) (et : ET) (ct : CT) : PingState ne nc ET CT :=
  ⟨edgeInfoInit ne nc et ct,⟨false,.replicate 16 0⟩⟩

/-- What happens, in any order. -/
inductive Op (ne nc : ℕ) (ET CT : Type) where
  /-- The timer of the process expires. -/
  | periodicAction
  /-- An echo reply is received. -/
  | echoCallback (source : IpAddr)
  /-- The store changes. -/
  | store (op : EdgeStoreRuns.Op ne nc ET CT)

/-- The calls of an operation, and the process after it. -/
def callsOf (st : PingState ne nc ET CT) : Op ne nc ET CT → List (Call ne)×EdgePing
  | .periodicAction => periodicAction st.store st.ping
  | .echoCallback source => (echoCallback st.store st.ping source,st.ping)
  | .store _ => ([],st.ping)

/-- What a call does to the store, by what the trust model does to its values. -/
def perform (tmUpdatePing : TmPingAction → ET → ET) (s : EdgeStore ne nc ET CT) :
    Call ne → EdgeStore ne nc ET CT
  | .tmUpdatePing (some edge) action =>
    s.setEdge edge {s.edge edge with tm := tmUpdatePing action (s.edge edge).tm}
  | .tmUpdatePing none _ | .uipIcmp6Send _ => s

/-- One operation. -/
def step (env : EdgeEnv ne nc ET CT) (tmUpdatePing : TmPingAction → ET → ET)
    (st : PingState ne nc ET CT) (op : Op ne nc ET CT) : PingState ne nc ET CT :=
  let (calls,ping) := callsOf st op
  let store := match op with
    | .store op => EdgeStoreRuns.step env st.store op
    | .periodicAction | .echoCallback _ => st.store
  ⟨calls.foldl (perform tmUpdatePing) store,ping⟩

/-- Operations on the store are those that its callers may do. -/
def Admitted (st : PingState ne nc ET CT) : Op ne nc ET CT → Prop
  | .store op => EdgeStoreRuns.Admitted st.store op
  | .periodicAction | .echoCallback _ => True

/-- Admission is decided by the store. -/
instance decidableAdmitted (st : PingState ne nc ET CT) : ∀ op, Decidable (Admitted st op)
  | .store _ => inferInstanceAs (Decidable (EdgeStoreRuns.Admitted _ _))
  | .periodicAction | .echoCallback _ => .isTrue trivial

/-- The addresses that calls send to. -/
def sentTo (calls : List (Call ne)) : List IpAddr :=
  calls.filterMap fun
    | .uipIcmp6Send addr => some addr
    | .tmUpdatePing _ _ => none

/-- The addresses that are pinged along some operations. -/
def pings (env : EdgeEnv ne nc ET CT) (tmUpdatePing : TmPingAction → ET → ET) :
    PingState ne nc ET CT → List (Op ne nc ET CT) → List IpAddr
  | _,[] => []
  | st,op::ops => sentTo (callsOf st op).1++pings env tmUpdatePing (step env tmUpdatePing st op) ops

end Source

section Cursor

variable {s : EdgeStore ne nc ET CT}

/-- The addresses of the listed edges. -/
def addresses (s : EdgeStore ne nc ET CT) : List IpAddr :=
  s.edgeResources.map fun e => (s.edge e).ep

/-- The address that was pinged last. -/
def cursor (ping : EdgePing) : Option IpAddr :=
  if ping.hasStarted=true then some ping.currentEdge else none

/-- Addresses do not repeat. -/
theorem nodup_addresses (h : EdgeStoreRuns.Represented s) : (addresses s).Nodup :=
  List.Nodup.map_on (fun e he e' he' => h.distinct.addresses e he e' he')
    h.wellFormed.ownsEdges.nodup

/-- From scratch the process takes the first edge, if there is one. -/
theorem findNextEdgeFromScratch_cases (ping : EdgePing) :
    ((addresses s).head?=none ∧
      findNextEdgeFromScratch s ping=(none,{ping with hasStarted := false})) ∨
    ∃ e∈s.edgeResources, (addresses s).head?=some (s.edge e).ep ∧
      findNextEdgeFromScratch s ping=(some e,⟨true,(s.edge e).ep⟩) := by
  unfold addresses findNextEdgeFromScratch
  rw [List.head?_map]
  cases hhead : s.edgeResources.head? with
  | none => exact Or.inl ⟨rfl,rfl⟩
  | some e => exact Or.inr ⟨e,List.mem_of_mem_head? hhead,rfl,rfl⟩

/-- The process takes the edge that is next in turn. -/
theorem findNextEdge_cases (h : EdgeStoreRuns.Represented s) (ping : EdgePing) :
    (RoundRobin.next (addresses s) (cursor ping)=none ∧
      findNextEdge s ping=(none,{ping with hasStarted := false})) ∨
    ∃ e∈s.edgeResources, RoundRobin.next (addresses s) (cursor ping)=some (s.edge e).ep ∧
      findNextEdge s ping=(some e,⟨true,(s.edge e).ep⟩) := by
  unfold findNextEdge cursor
  cases hstarted : ping.hasStarted with
  | false => exact findNextEdgeFromScratch_cases ping
  | true =>
    simp only [Bool.true_eq_false,if_false,if_true]
    rw [RoundRobin.next]
    cases hfind : edgeInfoFindAddr s ping.currentEdge with
    | none =>
      have hnext : Pools.listItemNext (addresses s) ping.currentEdge=none := by
        refine RoundRobin.listItemNext_of_not_mem fun hmem => ?_
        obtain ⟨e,he,hep⟩ := List.mem_map.mp hmem
        exact (edgeInfoFindAddr_none_iff _).mp hfind e he hep
      rw [hnext,Option.none_or]
      exact findNextEdgeFromScratch_cases ping
    | some e =>
      obtain ⟨he,hep⟩ := edgeInfoFindAddr_some hfind
      have hnext : Pools.listItemNext (addresses s) ping.currentEdge=
          (Pools.listItemNext s.edgeResources e).map fun e => (s.edge e).ep := by
        rw [←hep]
        exact RoundRobin.map_listItemNext h.distinct.addresses he
      rw [hnext]
      dsimp only
      cases hitem : Pools.listItemNext s.edgeResources e with
      | none => exact findNextEdgeFromScratch_cases ping
      | some e' => exact Or.inr ⟨e',Pools.mem_of_listItemNext hitem,rfl,rfl⟩

end Cursor

section Steps

variable {env : EdgeEnv ne nc ET CT} {tmUpdatePing : TmPingAction → ET → ET}
  {st : PingState ne nc ET CT}

/-- What a timer does: nothing is sent and the process starts anew when there is
no edge, and else the next edge is pinged. -/
theorem periodicAction_cases {s : EdgeStore ne nc ET CT} (h : EdgeStoreRuns.Represented s)
    (ping : EdgePing) :
    (RoundRobin.next (addresses s) (cursor ping)=none ∧
      periodicAction s ping=([],{ping with hasStarted := false})) ∨
    ∃ e∈s.edgeResources, RoundRobin.next (addresses s) (cursor ping)=some (s.edge e).ep ∧
      periodicAction s ping=
        ([.uipIcmp6Send (s.edge e).ep,.tmUpdatePing (some e) .sent],⟨true,(s.edge e).ep⟩) := by
  unfold periodicAction
  rcases findNextEdge_cases h ping with ⟨hnext,hfind⟩ | ⟨e,he,hnext,hfind⟩
  · exact Or.inl ⟨hnext,by rw [hfind]; rfl⟩
  · exact Or.inr ⟨e,he,hnext,by rw [hfind]; rfl⟩

/-- An echo reply updates a listed edge or none. -/
theorem echoCallback_cases (s : EdgeStore ne nc ET CT) (ping : EdgePing) (source : IpAddr) :
    echoCallback s ping source=[] ∨
      ∃ e∈s.edgeResources, echoCallback s ping source=[.tmUpdatePing (some e) .received] := by
  unfold echoCallback
  cases hfind : edgeInfoFindAddr s source with
  | none => exact Or.inl rfl
  | some e =>
    dsimp only
    split
    · exact Or.inr ⟨e,(edgeInfoFindAddr_some hfind).1,rfl⟩
    · exact Or.inl rfl

/-- A call changes trust values only. -/
theorem perform_same {s : EdgeStore ne nc ET CT} (h : EdgeStoreRuns.Represented s)
    (tmUpdatePing : TmPingAction → ET → ET) (call : Call ne) :
    EdgeStoreRuns.Represented (perform tmUpdatePing s call) ∧
      addresses (perform tmUpdatePing s call)=addresses s := by
  cases call with
  | uipIcmp6Send addr => exact ⟨h,rfl⟩
  | tmUpdatePing edge action =>
    cases edge with
    | none => exact ⟨h,rfl⟩
    | some e =>
      refine ⟨h.setEdge e rfl rfl,List.map_congr_left fun e' _ => ?_⟩
      by_cases he : e'=e
      · rw [he]
        change ((s.setEdge e _).edge e).ep=_
        rw [EdgeStore.setEdge_edge_same]
      · exact congrArg EdgeResource.ep (EdgeStore.setEdge_edge_other _ he)

/-- So do all calls of an operation. -/
theorem foldl_perform_same {s : EdgeStore ne nc ET CT} (h : EdgeStoreRuns.Represented s)
    (tmUpdatePing : TmPingAction → ET → ET) (calls : List (Call ne)) :
    EdgeStoreRuns.Represented (calls.foldl (perform tmUpdatePing) s) ∧
      addresses (calls.foldl (perform tmUpdatePing) s)=addresses s := by
  induction calls generalizing s with
  | nil => exact ⟨h,rfl⟩
  | cons call calls ih =>
    obtain ⟨hcall,hsame⟩ := perform_same h tmUpdatePing call
    obtain ⟨hcalls,hsame'⟩ := ih hcall
    exact ⟨hcalls,hsame'.trans hsame⟩

/-- Every admitted operation keeps the representation of the store. -/
theorem represented_step (h : EdgeStoreRuns.Represented st.store) {op : Op ne nc ET CT}
    (hop : Admitted st op) :
    EdgeStoreRuns.Represented (step env tmUpdatePing st op).store := by
  cases op with
  | periodicAction => exact (foldl_perform_same h tmUpdatePing _).1
  | echoCallback source => exact (foldl_perform_same h tmUpdatePing _).1
  | store op => exact h.step env hop

/-- The calls of an operation are right: what is sent to is the address of an
edge that is listed at that moment, `tm_update_ping` gets a listed edge, and
there are no calls when the store is empty. -/
structure CallsListed (st : PingState ne nc ET CT) (op : Op ne nc ET CT) : Prop where
  /-- Pings go to listed edges. -/
  send : ∀ addr, .uipIcmp6Send addr∈(callsOf st op).1 → addr∈addresses st.store
  /-- Trust is updated for listed edges. -/
  update : ∀ edge action, .tmUpdatePing edge action∈(callsOf st op).1 →
    ∃ e∈st.store.edgeResources, edge=some e
  /-- Without edges nothing is done. -/
  empty : st.store.edgeResources=[] → (callsOf st op).1=[]

/-- Every operation makes the right calls. -/
theorem callsListed (h : EdgeStoreRuns.Represented st.store) (op : Op ne nc ET CT) :
    CallsListed st op := by
  cases op with
  | store op => exact ⟨fun _ hc => (nomatch hc),fun _ _ hc => (nomatch hc),fun _ => rfl⟩
  | periodicAction =>
    have hcalls : (callsOf st .periodicAction).1=(periodicAction st.store st.ping).1 := rfl
    rcases periodicAction_cases h st.ping with ⟨_,heq⟩ | ⟨e,he,_,heq⟩
    · rw [heq] at hcalls
      exact ⟨fun _ hc => by simp [hcalls] at hc,fun _ _ hc => by simp [hcalls] at hc,
        fun _ => hcalls⟩
    · rw [heq] at hcalls
      refine ⟨fun addr hc => ?_,fun edge action hc => ?_,fun hempty => ?_⟩
      · have haddr : addr=(st.store.edge e).ep := by simpa [hcalls] using hc
        rw [haddr]
        exact List.mem_map_of_mem he
      · have hedge : edge=some e ∧ action=.sent := by simpa [hcalls] using hc
        exact ⟨e,he,hedge.1⟩
      · rw [hempty] at he
        cases he
  | echoCallback source =>
    have hcalls : (callsOf st (.echoCallback source)).1=
      echoCallback st.store st.ping source := rfl
    rcases echoCallback_cases st.store st.ping source with heq | ⟨e,he,heq⟩
    · rw [heq] at hcalls
      exact ⟨fun _ hc => by simp [hcalls] at hc,fun _ _ hc => by simp [hcalls] at hc,
        fun _ => hcalls⟩
    · rw [heq] at hcalls
      refine ⟨fun addr hc => by simp [hcalls] at hc,fun edge action hc => ?_,fun hempty => ?_⟩
      · have hedge : edge=some e ∧ action=.received := by simpa [hcalls] using hc
        exact ⟨e,he,hedge.1⟩
      · rw [hempty] at he
        cases he

end Steps

section Fairness

variable {env : EdgeEnv ne nc ET CT} {tmUpdatePing : TmPingAction → ET → ET}
  {st : PingState ne nc ET CT}

/-- The process itself, between two changes of the store. -/
def OwnOp : Op ne nc ET CT → Prop
  | .periodicAction | .echoCallback _ => True
  | .store _ => False

/-- Whether the timer has expired. -/
def isPeriodic : Op ne nc ET CT → Bool
  | .periodicAction => true
  | .echoCallback _ | .store _ => false

/-- While the store does not change the pings go round. -/
theorem pings_eq_visits (h : EdgeStoreRuns.Represented st.store) (ops : List (Op ne nc ET CT))
    (hops : ∀ op∈ops, OwnOp op) :
    pings env tmUpdatePing st ops=
      RoundRobin.visits (addresses st.store) (ops.countP isPeriodic) (cursor st.ping) := by
  induction ops generalizing st with
  | nil => rfl
  | cons op ops ih =>
    have hown := hops op List.mem_cons_self
    have hrest := fun o ho => hops o (List.mem_cons_of_mem op ho)
    cases op with
    | store op => exact hown.elim
    | echoCallback source =>
      obtain ⟨hsame,haddr⟩ := foldl_perform_same h tmUpdatePing
        (echoCallback st.store st.ping source)
      have hsent : sentTo (echoCallback st.store st.ping source)=[] := by
        rcases echoCallback_cases st.store st.ping source with heq | ⟨e,_,heq⟩ <;> rw [heq] <;> rfl
      have hgo : pings env tmUpdatePing (step env tmUpdatePing st (.echoCallback source)) ops=_ :=
        ih hsame hrest
      rw [pings,List.countP_cons_of_neg Bool.false_ne_true,hgo]
      exact (congrArg (·++_) hsent).trans (congrArg (RoundRobin.visits · _ _) haddr)
    | periodicAction =>
      obtain ⟨hsame,haddr⟩ := foldl_perform_same h tmUpdatePing (periodicAction st.store st.ping).1
      have hgo : pings env tmUpdatePing (step env tmUpdatePing st .periodicAction) ops=_ :=
        ih hsame hrest
      have hstore : addresses (step env tmUpdatePing st .periodicAction).store=
        addresses st.store := haddr
      have hping : (step env tmUpdatePing st .periodicAction).ping=
        (periodicAction st.store st.ping).2 := rfl
      have hcalls : (callsOf st .periodicAction).1=(periodicAction st.store st.ping).1 := rfl
      rw [pings,List.countP_cons_of_pos (by rfl),RoundRobin.visits,hgo,hstore,hping,hcalls]
      rcases periodicAction_cases h st.ping with ⟨hnext,heq⟩ | ⟨e,_,hnext,heq⟩
      · rw [hnext,heq]
        rfl
      · rw [hnext,heq]
        rfl

/-- As many timers as there are edges ping each of them once, with any echo
replies in between. -/
def Fair (env : EdgeEnv ne nc ET CT) (tmUpdatePing : TmPingAction → ET → ET)
    (st : PingState ne nc ET CT) : Prop :=
  ∀ ops : List (Op ne nc ET CT), (∀ op∈ops, OwnOp op) →
    ops.countP isPeriodic=st.store.edgeResources.length →
    (pings env tmUpdatePing st ops).Perm (addresses st.store) ∧ (addresses st.store).Nodup

/-- A represented store is pinged fairly from every state of the process. -/
theorem fair_of_represented {s : EdgeStore ne nc ET CT} (h : EdgeStoreRuns.Represented s)
    (ping : EdgePing) : Fair env tmUpdatePing ⟨s,ping⟩ := by
  intro ops hops hcount
  have hnodup := nodup_addresses h
  have hlength : s.edgeResources.length=(addresses s).length :=
    (List.length_map _).symm
  rw [pings_eq_visits h ops hops,hcount,hlength]
  exact ⟨RoundRobin.visits_perm hnodup _,hnodup⟩

/-- **Edges are pinged in a fair round robin.** In every run all pings go to
edges that are listed at that moment and trust is updated for listed edges only.
With the store of every moment of the run, and from every state of the process,
as many timers as there are edges ping each edge exactly once when the store
does not change. -/
theorem edgePing_fair (env : EdgeEnv ne nc ET CT) (tmUpdatePing : TmPingAction → ET → ET)
    (et : ET) (ct : CT) (ops : List (Op ne nc ET CT))
    (hops : Along (step env tmUpdatePing) Admitted (start ne nc et ct) ops) :
    Along (step env tmUpdatePing) CallsListed (start ne nc et ct) ops ∧
      Always (step env tmUpdatePing) (fun st => ∀ ping, Fair env tmUpdatePing ⟨st.store,ping⟩)
        (start ne nc et ct) ops := by
  have hstart : EdgeStoreRuns.Represented (start ne nc et ct).store :=
    EdgeStoreRuns.represented_init ne nc et ct
  exact ⟨along_of_step (I:=fun st => EdgeStoreRuns.Represented st.store)
      (fun st op h hop => represented_step h hop) (fun st op h _ => callsListed h op) hstart hops,
    (always_of_step (I:=fun st => EdgeStoreRuns.Represented st.store)
      (fun st op h hop => represented_step h hop) hstart hops).mono
      fun st h ping => fair_of_represented h ping⟩

/-- Two edges are pinged, one of them is removed and added again, and an edge is
added in front. -/
theorem edgePing_fair_sample :
    Along (step sampleEdgeEnv fun _ t => t) CallsListed (start 4 3 () ())
        [.periodicAction,.store (.edgeAdd (sampleAddr 1)),.store (.edgeAdd (sampleAddr 2)),
          .periodicAction,.echoCallback (sampleAddr 2),.store (.edgeRemove 1),.periodicAction,
          .store (.edgeAdd (sampleAddr 2)),.store (.edgeAdd (sampleAddr 3)),.periodicAction] ∧
      Always (step sampleEdgeEnv fun _ t => t)
        (fun st => ∀ ping, Fair sampleEdgeEnv (fun _ t => t) ⟨st.store,ping⟩) (start 4 3 () ())
        [.periodicAction,.store (.edgeAdd (sampleAddr 1)),.store (.edgeAdd (sampleAddr 2)),
          .periodicAction,.echoCallback (sampleAddr 2),.store (.edgeRemove 1),.periodicAction,
          .store (.edgeAdd (sampleAddr 2)),.store (.edgeAdd (sampleAddr 3)),.periodicAction] :=
  edgePing_fair sampleEdgeEnv (fun _ t => t) () () _ (by decide)

end Fairness

end TrustAlloc.EdgePings
