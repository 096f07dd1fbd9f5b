import Mathlib.Data.Set.List
import TrustAlloc.Hmm
import TrustAlloc.InteractionHistory
import TrustAlloc.LocalArrays

/-!
# The forward algorithm over the history

The other model of an edge keeps the history of interactions and runs the
forward algorithm over it whenever the trust value is asked for. The table has
a column for each interaction that a history has room for, and the product at
the end is taken over all columns. So the result is the probability of the
history and of one observation more exactly if the history is full: with an
empty one the column before the first is read, and with another one columns
that were never filled.
-/

namespace TrustAlloc.HmmForward

open HiddenMarkov Hmm InteractionHistory LocalArrays

/-- Number of columns of the local arrays. -/
abbrev columns : ℕ := interactionHistorySize+1

/-- The local arrays of `hmm_observation_probability`. -/
structure Table where
  /-- The forward variables, divided by their sums. -/
  alpha : HmmState → LocalArray columns ℚ
  /-- The sums. -/
  c : LocalArray columns ℚ

/-- The arrays when they are declared. -/
def Table.blank : Table := ⟨fun _ => .blank,.blank⟩

/-- The column of `emission` for an interaction. -/
def emissionColumn (interaction : UInt8) : Checked HmmObservation :=
  match hmmObservations[interaction.toNat]? with
  | some ob => return ob
  | none => throw .outside

/-- Every observation has its column. -/
theorem emissionColumn_number (ob : HmmObservation) : emissionColumn ob.number=.ok ob := by
  cases ob <;> rfl

/-- The numbers below four are those of observations. -/
theorem lt_four_iff (interaction : UInt8) :
    interaction < 4 ↔ ∃ ob : HmmObservation, ob.number=interaction := by
  constructor
  · intro h
    have hcases : interaction=0 ∨ interaction=1 ∨ interaction=2 ∨ interaction=3 := by
      simp only [←UInt8.toNat_inj]
      have hlt := UInt8.lt_iff_toNat_lt.mp h
      simp only [UInt8.reduceToNat] at *
      omega
    rcases hcases with rfl | rfl | rfl | rfl
    · exact ⟨.taskSubmissionAckTimedout,rfl⟩
    · exact ⟨.taskResponseTimedout,rfl⟩
    · exact ⟨.taskResultQualityIncorrect,rfl⟩
    · exact ⟨.taskResultQualityCorrect,rfl⟩
  · rintro ⟨ob,rfl⟩
    cases ob <;> decide

section Algorithm

variable (hmm : HmmT ℚ) {size : ℕ}

/-- What is summed up for a state from the column before. -/
def predicted (table : Table) (t : ℕ) (s1 : HmmState) : Checked ℚ :=
  hmmStates.foldlM (fun x s2 => do
    let a ← (table.alpha s2).read ((t : ℤ)-1)
    return x+a*hmm.trans s2 s1) 0

/-- Fill a column with values and divide them by their sum, unless it is zero.
The values are worked out from other columns. -/
def fillColumn (table : Table) (t : ℕ) (value : HmmState → Checked ℚ) : Checked Table := do
  let v ← eachState value
  let sum := sumStates v
  let c ← table.c.write t sum
  let alpha ← eachState fun i => (table.alpha i).write t (if sum≠0 then v i/sum else v i)
  return ⟨alpha,c⟩

/-- A turn of the loop over the history, with the last interaction visited. -/
def forwardTurn (hist : InteractionHistoryT interactionHistorySize)
    (state : Table × Option (Fin interactionHistorySize)) (t : ℕ) :
    Checked (Table × Option (Fin interactionHistorySize)) :=
  let obs := if t=0 then interactionHistoryIter hist
    else state.2.bind (interactionHistoryNext hist)
  match obs with
  | none => throw .assertionFailed
  | some iter => do
    let ob ← emissionColumn (hist.interactions iter)
    let table ← fillColumn state.1 t fun s1 => do
      let x ← if t=0 then pure (hmm.initial s1) else predicted hmm state.1 t s1
      return x*hmm.emission s1 ob
    return (table,some iter)

/-- `hmm_observation_probability`. The exponential of the sum of the logarithms
is the product. -/
def hmmObservationProbability (ob : HmmObservation)
    (prevObs : InteractionHistoryT interactionHistorySize) : Checked ℚ := do
  let state ← (List.range prevObs.count).foldlM (forwardTurn hmm prevObs) (Table.blank,none)
  let table ← fillColumn state.1 prevObs.count fun s1 => do
    let x ← predicted hmm state.1 prevObs.count s1
    return x*hmm.emission s1 ob
  table.c.product columns

/-- `edge_capability_tm_t` of the model with a history, for numbers of some kind. -/
structure EdgeCapabilityTm (F : Type) where
  /-- The model, which stays as it is. -/
  hmm : HmmT F
  /-- The last interactions. -/
  hist : InteractionHistoryT interactionHistorySize

/-- `calculate_trust_value`. -/
def calculateTrustValue (tm : EdgeCapabilityTm ℚ) : Checked ℚ :=
  hmmObservationProbability tm.hmm .taskResultQualityCorrect tm.hist

end Algorithm

section Columns

variable {hmm : HmmT ℚ}

/-- The column before gives the prediction. -/
theorem predicted_ok {table : Table} {t : ℕ} {a : HmmState → ℚ}
    (ha : ∀ s, (table.alpha s).read ((t : ℤ)-1)=.ok (a s)) (s1 : HmmState) :
    predicted hmm table t s1=.ok (hmm.predict (some a) s1) := by
  unfold predicted hmmStates
  simp only [List.foldlM_cons,List.foldlM_nil,ha,Model.predict,sum_states]
  change Except.ok (0+_+_)=Except.ok _
  rw [zero_add]

/-- There is no column before the first. -/
theorem predicted_first (table : Table) (s1 : HmmState) :
    predicted hmm table 0 s1=.error .outside := by
  unfold predicted hmmStates
  rw [List.foldlM_cons,LocalArray.read_of_neg _ (by simp)]
  rfl

/-- A column is filled with values divided by their sum. -/
theorem fillColumn_ok (table : Table) {t : ℕ} (ht : t < columns) {value : HmmState → Checked ℚ}
    {v : HmmState → ℚ} (hv : ∀ s, value s=.ok (v s)) :
    ∃ table', fillColumn table t value=.ok table' ∧ table.c.Wrote t (∑ s, v s) table'.c ∧
      ∀ i, (table.alpha i).Wrote t (if ∑ s, v s≠0 then v i/∑ s, v s else v i)
        (table'.alpha i) := by
  have hc := table.c.write_wrote ht (∑ s, v s)
  have halpha := fun i => (table.alpha i).write_wrote ht
    (if ∑ s, v s≠0 then v i/∑ s, v s else v i)
  choose alpha halpha using halpha
  obtain ⟨c,hc⟩ := hc
  refine ⟨⟨alpha,c⟩,?_,hc.2,fun i => (halpha i).2⟩
  rw [fillColumn,eachState_ok hv]
  change (do
    let c ← table.c.write t (sumStates v)
    let alpha ← eachState fun i => (table.alpha i).write t
      (if sumStates v≠0 then v i/sumStates v else v i)
    return (⟨alpha,c⟩ : Table))=_
  rw [sumStates_eq,hc.1,eachState_ok fun i => (halpha i).1]
  rfl

/-- The columns before one are filled for some observations: with the scaled
forward variables of the last one, and with all their sums. -/
structure Filled (hmm : HmmT ℚ) (obs : List HmmObservation) (scales : List ℚ)
    (hat : Option (HmmState → ℚ)) (table : Table) : Prop where
  /-- There is a sum for each observation. -/
  length : scales.length=obs.length
  /-- The sums are in the table. -/
  c : table.c.Holds scales
  /-- There is nothing else. -/
  rest : ∀ k : ℕ, obs.length≤k → ∃ f, table.c.read k=.error f
  /-- There are forward variables once something was observed. -/
  start : hat=none ↔ obs=[]
  /-- They are in the last column. -/
  alpha : ∀ a, hat=some a → ∀ s, (table.alpha s).read ((obs.length : ℤ)-1)=.ok (a s)
  /-- The sums scale them. -/
  scaled : hmm.Scaled obs scales.prod hat

/-- At first no column is filled. -/
theorem filled_blank (hmm : HmmT ℚ) : Filled hmm [] [] none .blank where
  length := rfl
  c := LocalArray.holds_nil _
  rest k _ := LocalArray.read_blank k
  start := by simp
  alpha a ha := nomatch ha
  scaled := Model.scaled_nil hmm

variable {obs : List HmmObservation} {scales : List ℚ} {hat : Option (HmmState → ℚ)}
  {table : Table}

/-- The product of all sums is the probability of as many observations. -/
theorem Filled.product_ok {a : HmmState → ℚ} (h : Filled hmm obs scales (some a) table)
    (hfull : obs.length=columns) : table.c.product columns=.ok (hmm.jointProbability obs) := by
  have hproduct := LocalArray.product_ok h.c
  rw [h.length,hfull] at hproduct
  rw [h.scaled.jointProbability_eq]
  exact hproduct

/-- Fewer observations leave a sum that is missing in the product. -/
theorem Filled.product_error (h : Filled hmm obs scales hat table)
    (hshort : obs.length < columns) : ∃ f, table.c.product columns=.error f := by
  obtain ⟨f,hf⟩ := h.rest obs.length le_rfl
  exact LocalArray.product_error hshort hf

variable (hh : hmm.Nonneg)

include hh

/-- The next column is filled for one observation more. -/
theorem Filled.fillColumn (h : Filled hmm obs scales hat table) (hroom : obs.length < columns)
    (o : HmmObservation) {value : HmmState → Checked ℚ}
    (hvalue : ∀ s, value s=.ok (hmm.predict hat s*hmm.emission s o)) :
    ∃ table' scales' hat', fillColumn table obs.length value=.ok table' ∧
      Filled hmm (obs++[o]) scales' (some hat') table' := by
  let v : HmmState → ℚ := fun s => hmm.predict hat s*hmm.emission s o
  obtain ⟨table',hok,hc,halpha⟩ := fillColumn_ok table hroom (v:=v) hvalue
  refine ⟨table',scales++[∑ s, v s],fun i => if ∑ s, v s≠0 then v i/∑ s, v s else v i,hok,
    ?_,?_,?_,by simp,?_,?_⟩
  · rw [List.length_append,List.length_append,h.length]
    rfl
  · exact h.c.append (h.length.symm ▸ hc)
  · intro k hk
    rw [List.length_append,List.length_singleton] at hk
    rw [hc.other k (by omega)]
    exact h.rest k (by omega)
  · intro a ha s
    rw [←(Option.some.inj ha),List.length_append,List.length_singleton,Nat.cast_add,Nat.cast_one,
      add_sub_cancel_right]
    exact (halpha s).self
  · rw [List.prod_append,List.prod_singleton]
    exact h.scaled.step hh o fun _ => rfl

/-- A turn of the loop fills the next column. -/
theorem Filled.forwardTurn (h : Filled hmm obs scales hat table)
    {hist : InteractionHistoryT interactionHistorySize} (hring : Ring hist)
    (hroom : obs.length < hist.count) {iter : Option (Fin interactionHistorySize)}
    (hiter : ∀ k, obs.length=k+1 → iter=some (after hist.head k)) {o : HmmObservation}
    (ho : hist.interactions (after hist.head obs.length)=o.number) :
    ∃ table' scales' hat', forwardTurn hmm hist (table,iter) obs.length=
        .ok (table',some (after hist.head obs.length)) ∧
      Filled hmm (obs++[o]) scales' (some hat') table' := by
  have hobs : (if obs.length=0 then interactionHistoryIter hist
      else iter.bind (interactionHistoryNext hist))=some (after hist.head obs.length) := by
    cases hlength : obs.length with
    | zero => exact InteractionHistory.iter (by omega)
    | succ k =>
      rw [if_neg (Nat.succ_ne_zero k),hiter k hlength,Option.bind_some]
      exact InteractionHistory.next hring (by omega)
  have hvalue : ∀ s1, (do
      let x ← if obs.length=0 then pure (hmm.initial s1) else predicted hmm table obs.length s1
      return x*hmm.emission s1 o)=(.ok (hmm.predict hat s1*hmm.emission s1 o) : Checked ℚ) := by
    intro s1
    cases hat with
    | none =>
      rw [h.start.1 rfl]
      rfl
    | some a =>
      have hne : obs≠[] := fun hnil => by simpa using h.start.2 hnil
      rw [if_neg (by simpa using hne),predicted_ok (h.alpha a rfl)]
      rfl
  have hcount := hring.count
  obtain ⟨table',scales',hat',hok,hfilled⟩ := h.fillColumn hh
    (Nat.lt_succ_of_lt (hroom.trans_le hcount)) o hvalue
  refine ⟨table',scales',hat',?_,hfilled⟩
  unfold HmmForward.forwardTurn
  simp only [hobs,ho,emissionColumn_number]
  change (do
    let table ← HmmForward.fillColumn table obs.length fun s1 => do
      let x ← if obs.length=0 then pure (hmm.initial s1) else predicted hmm table obs.length s1
      return x*hmm.emission s1 o
    return (table,some (after hist.head obs.length)))=_
  rw [hok]
  rfl

omit hh in
/-- The loop has visited as many interactions as it has taken turns. -/
theorem loop_succ (hist : InteractionHistoryT interactionHistorySize) (n : ℕ) :
    (List.range (n+1)).foldlM (forwardTurn hmm hist) (Table.blank,none)=(do
      let state ← (List.range n).foldlM (forwardTurn hmm hist) (Table.blank,none)
      forwardTurn hmm hist state n) := by
  rw [List.range_succ,List.foldlM_append]
  simp only [List.foldlM_cons,List.foldlM_nil,bind_pure]

/-- The loop fills a column for every observation in the history. The induction
is on the observations it has visited. -/
theorem loop_filled {hist : InteractionHistoryT interactionHistorySize} (hring : Ring hist)
    (hobs : obs.map HmmObservation.number <+: stored hist) :
    ∃ table iter scales hat,
      (List.range obs.length).foldlM (forwardTurn hmm hist) (Table.blank,none)=
        .ok (table,iter) ∧
      Filled hmm obs scales hat table ∧
      ∀ k, obs.length=k+1 → iter=some (after hist.head k) := by
  induction obs using List.reverseRecOn with
  | nil => exact ⟨_,_,_,_,rfl,filled_blank hmm,fun k hk => by simp at hk⟩
  | append_singleton obs o ih =>
    rw [List.map_append] at hobs
    obtain ⟨table,iter,scales,hat,hok,hfilled,hiter⟩ := ih ((List.prefix_append _ _).trans hobs)
    have hlast : (stored hist)[obs.length]?=some o.number := by
      obtain ⟨rest,hrest⟩ := hobs
      rw [←hrest]
      simp
    have hroom := (List.getElem?_eq_some_iff.1 hlast).1
    have hnumber : hist.interactions (after hist.head obs.length)=o.number := by
      simpa [stored] using (List.getElem?_eq_some_iff.1 hlast).2
    obtain ⟨table',scales',hat',hturn,hfilled'⟩ := hfilled.forwardTurn hh hring
      (by simpa [stored] using hroom) hiter hnumber
    refine ⟨table',some (after hist.head obs.length),scales',some hat',?_,hfilled',
      fun k hk => ?_⟩
    · rw [List.length_append,List.length_singleton,loop_succ,hok]
      exact hturn
    · rw [List.length_append,List.length_singleton,Nat.add_right_cancel_iff] at hk
      rw [hk]

end Columns

section Histories

variable {hmm : HmmT ℚ} (hh : hmm.Nonneg) (ob : HmmObservation)

/-- After the pushes the forward algorithm gives the probability that the
history, oldest first, and then one observation more are emitted. -/
def EmitsHistory (hmm : HmmT ℚ) (ob : HmmObservation)
    (interactions : Fin interactionHistorySize → UInt8) (pushes : List UInt8) : Prop :=
  ∃ obs : List HmmObservation,
    lastOnes interactionHistorySize pushes=obs.map HmmObservation.number ∧
    hmmObservationProbability hmm ob (pushAll interactions pushes)=
      .ok (hmm.jointProbability (obs++[ob]))

include hh

/-- With observations in the history the algorithm stops, unless the history is
full. Then it gives the probability of the history and of one observation more. -/
theorem hmmObservationProbability_stored {hist : InteractionHistoryT interactionHistorySize}
    (hring : Ring hist) {obs : List HmmObservation}
    (hobs : stored hist=obs.map HmmObservation.number) :
    (obs.length=interactionHistorySize → hmmObservationProbability hmm ob hist=
      .ok (hmm.jointProbability (obs++[ob]))) ∧
    (obs.length≠interactionHistorySize → ∃ f, hmmObservationProbability hmm ob hist=.error f) := by
  have hcount : obs.length=hist.count := by
    have hlength := congrArg List.length hobs
    simpa [stored] using hlength.symm
  obtain ⟨table,iter,scales,hat,hloop,hfilled,hiter⟩ :=
    loop_filled hh hring (show obs.map HmmObservation.number <+: stored hist by rw [hobs])
  have hresult : hmmObservationProbability hmm ob hist=(do
      let table ← fillColumn table obs.length fun s1 => do
        let x ← predicted hmm table obs.length s1
        return x*hmm.emission s1 ob
      table.c.product columns) := by
    rw [hmmObservationProbability,←hcount,hloop]
    rfl
  rw [hresult]
  cases hat with
  | none =>
    have hnil := hfilled.start.1 rfl
    subst hnil
    refine ⟨fun h => by simp at h,fun _ => ⟨.outside,?_⟩⟩
    rw [fillColumn,List.length_nil,eachState_error (e:=.outside)]
    · rfl
    · rw [predicted_first]
      rfl
  | some a =>
    have hroom : obs.length < columns := by
      rw [hcount]
      exact Nat.lt_succ_of_le hring.count
    have hvalue : ∀ s1, (do
        let x ← predicted hmm table obs.length s1
        return x*hmm.emission s1 ob : Checked ℚ)=.ok (hmm.predict (some a) s1*hmm.emission s1 ob) :=
      fun s1 => by
        rw [predicted_ok (hfilled.alpha a rfl)]
        rfl
    obtain ⟨table',scales',hat',hok,hfilled'⟩ := hfilled.fillColumn hh hroom ob hvalue
    have hlength : (obs++[ob]).length=obs.length+1 := by rw [List.length_append]; rfl
    rw [hok]
    refine ⟨fun hfull => hfilled'.product_ok (by rw [hlength,hfull]),fun hshort => ?_⟩
    have hle := hring.count
    exact hfilled'.product_error (by unfold columns; omega)

/-- The forward algorithm gives the probability of the history and of one
observation more exactly if the history is full, and of observations. -/
theorem emitsHistory_iff (interactions : Fin interactionHistorySize → UInt8)
    (pushes : List UInt8) :
    EmitsHistory hmm ob interactions pushes ↔ interactionHistorySize≤pushes.length ∧
      ∀ interaction∈lastOnes interactionHistorySize pushes, interaction < 4 := by
  have hlast := length_lastOnes interactionHistorySize pushes
  obtain ⟨hring,hstored⟩ := pushAll_stored interactions pushes
  constructor
  · rintro ⟨obs,hobs,hok⟩
    have hresult := hmmObservationProbability_stored hh ob hring (hstored.trans hobs)
    have hfull : obs.length=interactionHistorySize := by
      by_contra hshort
      obtain ⟨f,hf⟩ := hresult.2 hshort
      rw [hok] at hf
      cases hf
    rw [hobs,List.length_map,hfull] at hlast
    refine ⟨by omega,fun interaction hmem => ?_⟩
    rw [hobs] at hmem
    obtain ⟨o,_,ho⟩ := List.mem_map.1 hmem
    exact (lt_four_iff interaction).2 ⟨o,ho⟩
  · rintro ⟨hlength,hfour⟩
    have hrange : lastOnes interactionHistorySize pushes∈
        Set.range (List.map HmmObservation.number) := by
      rw [Set.range_list_map]
      exact fun interaction hmem => (lt_four_iff interaction).1 (hfour interaction hmem)
    obtain ⟨obs,hobs⟩ := hrange
    refine ⟨obs,hobs.symm,(hmmObservationProbability_stored hh ob hring
      (hstored.trans hobs.symm)).1 ?_⟩
    have hlen : (obs.map HmmObservation.number).length=obs.length := List.length_map _
    rw [←hlen,hobs]
    omega

end Histories

/-- Nine interactions fill the history, and the first of them is forgotten. -/
theorem emitsHistory_iff_default :
    EmitsHistory hmmInitDefault .taskResultQualityCorrect (fun _ => 0) [7,0,1,2,3,0,1,2,3] :=
  (emitsHistory_iff stochastic_hmmInitDefault.nonneg .taskResultQualityCorrect (fun _ => 0)
    [7,0,1,2,3,0,1,2,3]).mpr ⟨by decide,by decide +kernel⟩

/-- A new capability has an empty history, and the column before the first is
read for its trust value. -/
theorem not_emitsHistory_of_empty : hmmInitDefault.Stochastic ∧
    calculateTrustValue ⟨hmmInitDefault,pushAll (fun _ => 0) []⟩=.error .outside ∧
    ¬EmitsHistory hmmInitDefault .taskResultQualityCorrect (fun _ => 0) [] := by
  have hfault : hmmObservationProbability hmmInitDefault .taskResultQualityCorrect
      (pushAll (fun _ => 0) [])=.error .outside := by decide +kernel
  refine ⟨stochastic_hmmInitDefault,hfault,fun h => ?_⟩
  obtain ⟨obs,_,hok⟩ := h
  rw [hfault] at hok
  cases hok

end TrustAlloc.HmmForward
