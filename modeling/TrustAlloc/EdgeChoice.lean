import TrustAlloc.EdgeCandidates
import TrustAlloc.Runs

/-!
# Choosing an edge

Four of the strategies of `trust-choose.c`: the edge of the highest trust, a
random one within a band below the highest trust, a random one, and a random
one that is not on the list of bad ones. The band is cut out of the candidates
in place.
-/

namespace TrustAlloc.EdgeChoice

open EdgeCandidates EdgeInfo EdgeOffers EdgeStoreRuns LocalArrays RandomHelpers Runs

variable {ne nc : ℕ} {ET CT : Type}

/-- `edge_resource_tm_t` of the challenge-response model. -/
structure EdgeResourceTm where
  /-- `epoch_number`. -/
  epochNumber : UInt32
  /-- The edge has failed a challenge. -/
  bad : Bool

/-- `edge_is_good`. -/
def edgeIsGood (s : EdgeStore ne nc EdgeResourceTm CT) (edge : Fin ne) : Bool :=
  !(s.edge edge).tm.bad

section Strategies

variable (s : EdgeStore ne nc ET CT) (calculateTrustValue : Fin ne → Fin (ne*nc) → ℚ)
  (capabilityName : List UInt8)

/-- A turn of the loop of the strategy of the highest trust. -/
def highestTurn (best : Option (Fin ne) × ℚ) (iter : Fin ne) : Option (Fin ne) × ℚ :=
  match usable s capabilityName iter with
  | none => best
  | some capability =>
    let trustValue := calculateTrustValue iter capability
    if best.2 < trustValue then (some iter,trustValue) else best

/-- `choose_edge` of the strategy of the highest trust. -/
def chooseEdgeHighest : Option (Fin ne) :=
  (s.edgeResources.foldl (highestTurn s calculateTrustValue capabilityName) (none,-1)).1

/-- `choose_edge` of the random strategy. -/
def chooseEdgeRandom (draws : List UInt16) : Drawing (Option (Fin ne)) := do
  let c ← ofChecked (s.edgeResources.foldlM
    (collectTurn false fun iter => (usable s capabilityName iter).isNone) ⟨.blank,0⟩)
  pickCandidate c draws

/-- `choose_edge` of the strategy with a list of bad edges. -/
def chooseEdgeBadlisted (s : EdgeStore ne nc EdgeResourceTm CT) (draws : List UInt16) :
    Drawing (Option (Fin ne)) := do
  let c ← ofChecked (s.edgeResources.foldlM
    (collectTurn true fun iter => (usable s capabilityName iter).isNone || !edgeIsGood s iter)
    ⟨.blank,0⟩)
  pickCandidate c draws

/-- The highest trust seen. -/
def raiseHighest (highestTrust trustValue : ℚ) : ℚ :=
  if highestTrust < trustValue then trustValue else highestTrust

/-- A turn of the loop that cuts the band out, with `new_idx` as the number of
the candidates so far. -/
def filterTurn (limit : ℚ) (b : Trusted ne) (i : ℕ) : Checked (Trusted ne) := do
  let trustValue ← b.trustValues.read i
  if limit≤trustValue then
    let candidate ← b.candidates.read i
    let candidates ← b.candidates.write b.candidatesLen candidate
    let trustValues ← b.trustValues.write b.candidatesLen trustValue
    return {b with candidates,trustValues,candidatesLen := b.candidatesLen+1}
  else return b

/-- `choose_edge` of the banded strategy. `BAND_SIZE` is a quarter unless the
build defines it, and then a half: what either leaves of a trust of at most one
is exact in single precision, or negative. -/
def chooseEdgeBanded (bandSize : ℚ) (draws : List UInt16) : Drawing (Option (Fin ne)) := do
  let b ← ofChecked (s.edgeResources.foldlM
    (trustedTurn s calculateTrustValue capabilityName raiseHighest) ⟨⟨.blank,0⟩,.blank,0⟩)
  let b ← ofChecked ((List.range b.candidatesLen).foldlM
    (filterTurn (b.overall-bandSize)) {b with candidatesLen := 0})
  pickCandidate b.toCandidates draws

end Strategies

section Highest

variable {s : EdgeStore ne nc ET CT} {calculateTrustValue : Fin ne → Fin (ne*nc) → ℚ}
  {capabilityName : List UInt8}

/-- What the loop of the highest trust has found among some edges: nothing if
all were skipped, and else one that none of the others exceeds. -/
def BestOf (s : EdgeStore ne nc ET CT) (calculateTrustValue : Fin ne → Fin (ne*nc) → ℚ)
    (capabilityName : List UInt8) (l : List (Fin ne)) (best : Option (Fin ne) × ℚ) : Prop :=
  (best=(none,-1) ∧ ∀ e∈l, (usable s capabilityName e).isSome=false) ∨
  ∃ e∈l, (usable s capabilityName e).isSome=true ∧
    best=(some e,trustFor s calculateTrustValue capabilityName e) ∧
    ∀ e'∈l, (usable s capabilityName e').isSome=true →
      trustFor s calculateTrustValue capabilityName e'≤
        trustFor s calculateTrustValue capabilityName e

/-- One edge more. -/
theorem BestOf.turn (htrust : ∀ e c, 0≤calculateTrustValue e c) {l : List (Fin ne)}
    {best : Option (Fin ne) × ℚ} (h : BestOf s calculateTrustValue capabilityName l best)
    (iter : Fin ne) : BestOf s calculateTrustValue capabilityName (l++[iter])
      (highestTurn s calculateTrustValue capabilityName best iter) := by
  unfold BestOf
  rw [List.forall_mem_append,List.forall_mem_singleton]
  simp only [List.forall_mem_append,List.forall_mem_singleton]
  unfold highestTurn
  cases hu : usable s capabilityName iter with
  | none =>
    have hskip : (usable s capabilityName iter).isSome=false := by rw [hu]; rfl
    rcases h with ⟨hbest,hall⟩ | ⟨e,he,hsome,hbest,hall⟩
    · exact Or.inl ⟨hbest,hall,rfl⟩
    · exact Or.inr ⟨e,List.mem_append_left _ he,hsome,hbest,hall,fun h => (nomatch h)⟩
  | some capability =>
    have hkeep : (usable s capabilityName iter).isSome=true := by rw [hu]; rfl
    have hvalue : trustFor s calculateTrustValue capabilityName iter=
        calculateTrustValue iter capability := trustFor_of_usable hu
    have hnonneg := htrust iter capability
    have hnew : iter∈l++[iter] := List.mem_append_right l (List.mem_singleton_self iter)
    dsimp only
    rw [←hvalue] at hnonneg ⊢
    rcases h with ⟨hbest,hall⟩ | ⟨e,he,hsome,hbest,hall⟩
    · rw [hbest,if_pos (by dsimp only; linarith)]
      refine Or.inr ⟨iter,hnew,hkeep,rfl,fun e' he' hsome' => ?_,fun _ => le_rfl⟩
      rw [hall e' he'] at hsome'
      cases hsome'
    · rw [hbest]
      dsimp only
      split
      · next hlt =>
        exact Or.inr ⟨iter,hnew,hkeep,rfl,
          fun e' he' hsome' => (hall e' he' hsome').trans hlt.le,fun _ => le_rfl⟩
      · next hle =>
        exact Or.inr ⟨e,List.mem_append_left _ he,hsome,rfl,hall,fun _ => not_lt.mp hle⟩

/-- The whole loop. -/
theorem bestOf_foldl (htrust : ∀ e c, 0≤calculateTrustValue e c) (l : List (Fin ne)) :
    BestOf s calculateTrustValue capabilityName l
      (l.foldl (highestTurn s calculateTrustValue capabilityName) (none,-1)) := by
  induction l using List.reverseRecOn with
  | nil => exact Or.inl ⟨rfl,fun _ he => (nomatch he)⟩
  | append_singleton l iter ih =>
    rw [List.foldl_append]
    exact ih.turn htrust iter

/-- The strategy of the highest trust gives none if there is no eligible edge,
and else an eligible one that no eligible edge exceeds. -/
structure ChoosesHighest (s : EdgeStore ne nc ET CT)
    (calculateTrustValue : Fin ne → Fin (ne*nc) → ℚ) (capabilityName : List UInt8)
    (chosen : Option (Fin ne)) : Prop where
  /-- None is chosen exactly if there is none. -/
  null : chosen=none ↔ ∀ e, ¬Eligible s capabilityName e
  /-- The chosen one is eligible, and of maximal trust. -/
  best : ∀ e, chosen=some e → Eligible s capabilityName e ∧
    ∀ e', Eligible s capabilityName e' → trustFor s calculateTrustValue capabilityName e'≤
      trustFor s calculateTrustValue capabilityName e

/-- So it does. -/
theorem chooseEdgeHighest_spec (hs : Represented s) (htrust : ∀ e c, 0≤calculateTrustValue e c) :
    ChoosesHighest s calculateTrustValue capabilityName
      (chooseEdgeHighest s calculateTrustValue capabilityName) := by
  unfold chooseEdgeHighest
  have hloop : BestOf s calculateTrustValue capabilityName s.edgeResources _ :=
    bestOf_foldl htrust s.edgeResources
  rcases hloop with ⟨hbest,hall⟩ | ⟨e,he,hsome,hbest,hall⟩
  · rw [hbest]
    refine ⟨⟨fun _ e helig => ?_,fun _ => rfl⟩,fun e he => (nomatch he)⟩
    obtain ⟨he,hsome⟩ := (eligible_iff hs).mp helig
    rw [hall e he] at hsome
    cases hsome
  · have helig := (eligible_iff hs).mpr ⟨he,hsome⟩
    rw [hbest]
    refine ⟨⟨fun h => (nomatch h),fun h => absurd helig (h e)⟩,fun e' he' => ?_⟩
    cases he'
    refine ⟨helig,fun e' helig' => ?_⟩
    obtain ⟨he',hsome'⟩ := (eligible_iff hs).mp helig'
    exact hall e' he' hsome'

end Highest

section Banding

variable {s : EdgeStore ne nc ET CT} {calculateTrustValue : Fin ne → Fin (ne*nc) → ℚ}
  {capabilityName : List UInt8}

/-- The edges whose trust is not below a limit. -/
def within (trust : Fin ne → ℚ) (limit : ℚ) (l : List (Fin ne)) : List (Fin ne) :=
  l.filter fun e => decide (limit≤trust e)

/-- An edge more is taken or left. -/
theorem within_concat (trust : Fin ne → ℚ) (limit : ℚ) (l : List (Fin ne)) (e : Fin ne) :
    within trust limit (l++[e])=
      if limit≤trust e then within trust limit l++[e] else within trust limit l := by
  unfold within
  rw [List.filter_append]
  split
  · next hkeep => rw [List.filter_cons_of_pos (by simpa using hkeep),List.filter_nil]
  · next hskip =>
    rw [List.filter_cons_of_neg (by simpa using hskip),List.filter_nil,List.append_nil]

/-- The candidates before an index are cut down to those within the limit. -/
theorem filterTurn_foldlM {c : LocalArray ne (Fin ne)} {t : LocalArray ne ℚ} {l : List (Fin ne)}
    {trust : Fin ne → ℚ} (limit overall : ℚ) (hl : l.length≤ne) (hc : c.Holds l)
    (ht : t.Holds (l.map trust)) {n : ℕ} (hn : n≤l.length) :
    ∃ c' t', (List.range n).foldlM (filterTurn limit) ⟨⟨c,0⟩,t,overall⟩=
        .ok ⟨⟨c',(within trust limit (l.take n)).length⟩,t',overall⟩ ∧
      c'.Compacting l n (within trust limit (l.take n)) ∧
      t'.Compacting (l.map trust) n ((within trust limit (l.take n)).map trust) := by
  induction n with
  | zero => exact ⟨c,t,rfl,hc.compacting,ht.compacting⟩
  | succ n ih =>
    obtain ⟨c',t',hrun,hc',ht'⟩ := ih (by omega)
    obtain ⟨e,hnth⟩ : ∃ e, l[n]?=some e := ⟨_,List.getElem?_eq_getElem hn⟩
    have hreadT := ht'.back n (trust e) le_rfl (by rw [List.getElem?_map,hnth]; rfl)
    have hshort : (within trust limit (l.take n)).length≤n :=
      (List.length_filter_le _ _).trans (List.length_take_le n l)
    rw [List.range_succ,foldlM_concat hrun n,List.take_add_one,hnth,Option.toList_some,
      within_concat]
    unfold filterTurn
    dsimp only
    rw [hreadT]
    dsimp only [bind,Except.bind]
    by_cases hkeep : limit≤trust e
    · obtain ⟨c₁,hwriteC,hwroteC⟩ :=
        c'.write_wrote (k:=(within trust limit (l.take n)).length) (by omega) e
      obtain ⟨t₁,hwriteT,hwroteT⟩ :=
        t'.write_wrote (k:=(within trust limit (l.take n)).length) (by omega) (trust e)
      rw [if_pos hkeep,hc'.back n e le_rfl hnth]
      dsimp only
      rw [hwriteC]
      dsimp only
      rw [hwriteT,if_pos hkeep,List.length_append,List.length_singleton,List.map_append,
        List.map_singleton]
      refine ⟨c₁,t₁,rfl,hc'.keep hshort hwroteC,ht'.keep ?_ ?_⟩
      · rwa [List.length_map]
      · rwa [List.length_map]
    · rw [if_neg hkeep,if_neg hkeep]
      exact ⟨c',t',rfl,hc'.skip,ht'.skip⟩

/-- The highest trust seen bounds all of them, and is one of them or zero. -/
theorem raiseHighest_foldl (ts : List ℚ) :
    (∀ t∈ts, t≤ts.foldl raiseHighest 0) ∧
      (ts.foldl raiseHighest 0=0 ∨ ts.foldl raiseHighest 0∈ts) := by
  induction ts using List.reverseRecOn with
  | nil => exact ⟨fun _ ht => (nomatch ht),Or.inl rfl⟩
  | append_singleton ts t ih =>
    obtain ⟨hbound,hfrom⟩ := ih
    rw [List.foldl_append]
    simp only [List.foldl_cons,List.foldl_nil,List.mem_append,List.mem_singleton]
    unfold raiseHighest at hbound hfrom ⊢
    split
    · next hlt =>
      refine ⟨fun t' ht' => ?_,Or.inr (Or.inr rfl)⟩
      rcases ht' with hold | rfl
      · exact (hbound t' hold).trans hlt.le
      · exact le_rfl
    · next hle =>
      refine ⟨fun t' ht' => ?_,hfrom.imp_right Or.inl⟩
      rcases ht' with hold | rfl
      · exact hbound t' hold
      · exact not_lt.mp hle

/-- A trust is within the band of the highest one exactly if it is within the
band of each. -/
theorem highest_sub_le_iff {bandSize : ℚ} (hband : 0≤bandSize) {ts : List ℚ} {trust : ℚ}
    (htrust : 0≤trust) :
    ts.foldl raiseHighest 0-bandSize≤trust ↔ ∀ t∈ts, t-bandSize≤trust := by
  obtain ⟨hbound,hfrom⟩ := raiseHighest_foldl ts
  constructor
  · intro h t ht
    have hle := hbound t ht
    linarith
  · intro h
    rcases hfrom with hzero | hmem
    · rw [hzero]
      linarith
    · exact h _ hmem

/-- An eligible edge is within the band below the highest trust. -/
def InBand (s : EdgeStore ne nc ET CT) (calculateTrustValue : Fin ne → Fin (ne*nc) → ℚ)
    (capabilityName : List UInt8) (bandSize : ℚ) (e : Fin ne) : Prop :=
  Eligible s capabilityName e ∧ ∀ e', Eligible s capabilityName e' →
    trustFor s calculateTrustValue capabilityName e'-bandSize≤
      trustFor s calculateTrustValue capabilityName e

/-- The band is empty only if there is no eligible edge: the strategy of the
highest trust would choose one in it. -/
theorem exists_inBand_iff (hs : Represented s) (htrust : ∀ e c, 0≤calculateTrustValue e c)
    {bandSize : ℚ} (hband : 0≤bandSize) :
    (∃ e, Eligible s capabilityName e) ↔
      ∃ e, InBand s calculateTrustValue capabilityName bandSize e := by
  refine ⟨fun ⟨e,he⟩ => ?_,fun ⟨e,he⟩ => ⟨e,he.1⟩⟩
  have hhighest : ChoosesHighest s calculateTrustValue capabilityName _ :=
    chooseEdgeHighest_spec hs htrust
  cases hchosen : chooseEdgeHighest s calculateTrustValue capabilityName with
  | none => exact absurd he (hhighest.null.mp hchosen e)
  | some best =>
    obtain ⟨helig,hmax⟩ := hhighest.best best hchosen
    refine ⟨best,helig,fun e' he' => ?_⟩
    have hle := hmax e' he'
    linarith

/-- What the limit leaves of the collected edges. -/
def band (s : EdgeStore ne nc ET CT) (calculateTrustValue : Fin ne → Fin (ne*nc) → ℚ)
    (capabilityName : List UInt8) (bandSize : ℚ) : List (Fin ne) :=
  within (trustFor s calculateTrustValue capabilityName)
    (((usables s capabilityName s.edgeResources).map
      (trustFor s calculateTrustValue capabilityName)).foldl raiseHighest 0-bandSize)
    (usables s capabilityName s.edgeResources)

/-- The edges in the band are left. -/
theorem mem_band (hs : Represented s) (htrust : ∀ e c, 0≤calculateTrustValue e c)
    {bandSize : ℚ} (hband : 0≤bandSize) (e : Fin ne) :
    InBand s calculateTrustValue capabilityName bandSize e ↔
      e∈band s calculateTrustValue capabilityName bandSize := by
  unfold band within InBand
  rw [List.mem_filter,mem_usables hs,decide_eq_true_iff,
    highest_sub_le_iff hband (trustFor_nonneg htrust e)]
  refine and_congr_right fun _ => ⟨fun h t ht => ?_,fun h e' he' => ?_⟩
  · obtain ⟨e',he',rfl⟩ := List.mem_map.mp ht
    exact h e' ((mem_usables hs).mp he')
  · exact h _ (List.mem_map_of_mem ((mem_usables hs).mpr he'))

/-- The banded strategy ends with the band in its array. -/
theorem chooseEdgeBanded_eq (calculateTrustValue : Fin ne → Fin (ne*nc) → ℚ)
    (capabilityName : List UInt8) (bandSize : ℚ) (hl : s.edgeResources.Nodup) :
    ∃ c, c.Holds (band s calculateTrustValue capabilityName bandSize) ∧
      chooseEdgeBanded s calculateTrustValue capabilityName bandSize=
        pickCandidate ⟨c,(band s calculateTrustValue capabilityName bandSize).length⟩ := by
  obtain ⟨a,t,hcollect,ha,ht⟩ := trustedTurn_foldlM s calculateTrustValue capabilityName
    raiseHighest hl
  have hroom : (usables s capabilityName s.edgeResources).length≤ne := length_filter_le hl _
  obtain ⟨c,t',hcut,hc,-⟩ := filterTurn_foldlM
    (((usables s capabilityName s.edgeResources).map
      (trustFor s calculateTrustValue capabilityName)).foldl raiseHighest 0-bandSize)
    (((usables s capabilityName s.edgeResources).map
      (trustFor s calculateTrustValue capabilityName)).foldl raiseHighest 0) hroom ha ht le_rfl
  rw [List.take_length] at hcut hc
  refine ⟨c,hc.front,?_⟩
  funext draws
  unfold chooseEdgeBanded
  rw [hcollect]
  dsimp only [ofChecked,bind,Except.bind]
  rw [hcut]
  rfl

/-- The banded strategy chooses among the band. -/
theorem chooseEdgeBanded_spec (hs : Represented s) (hne : ne≤255)
    (htrust : ∀ e c, 0≤calculateTrustValue e c) {bandSize : ℚ} (hband : 0≤bandSize) :
    ChoosesAmong (Eligible s capabilityName)
      (InBand s calculateTrustValue capabilityName bandSize)
      (chooseEdgeBanded s calculateTrustValue capabilityName bandSize) := by
  have hnodup := hs.wellFormed.ownsEdges.nodup
  obtain ⟨c,hc,heq⟩ := chooseEdgeBanded_eq calculateTrustValue capabilityName bandSize hnodup
  have hshort : (band s calculateTrustValue capabilityName bandSize).length≤ne :=
    (List.length_filter_le _ _).trans (length_filter_le hnodup _)
  have hmem : ∀ e, InBand s calculateTrustValue capabilityName bandSize e ↔ _ :=
    mem_band hs htrust hband
  rw [heq]
  exact (pickCandidate_spec hc (hshort.trans hne)).congr
    ((exists_inBand_iff hs htrust hband).trans (exists_congr hmem)) hmem

end Banding

section Unweighted

variable {s : EdgeStore ne nc ET CT} {capabilityName : List UInt8}

/-- The random strategy chooses among the eligible edges. -/
theorem chooseEdgeRandom_spec (hs : Represented s) (hne : ne≤255) :
    ChoosesAmong (Eligible s capabilityName) (Eligible s capabilityName)
      (chooseEdgeRandom s capabilityName) :=
  collected_spec hs.wellFormed.ownsEdges.nodup hne fun e => by
    rw [eligible_iff hs,Option.not_isNone]

/-- The strategy with a list of bad edges chooses among the eligible good ones. -/
theorem chooseEdgeBadlisted_spec {s : EdgeStore ne nc EdgeResourceTm CT} (hs : Represented s)
    (hne : ne≤255) :
    ChoosesAmong (fun e => Eligible s capabilityName e ∧ edgeIsGood s e=true)
      (fun e => Eligible s capabilityName e ∧ edgeIsGood s e=true)
      (chooseEdgeBadlisted capabilityName s) :=
  collected_spec hs.wellFormed.ownsEdges.nodup hne fun e => by
    rw [eligible_iff hs,Bool.not_or,Bool.not_not,Option.not_isNone,Bool.and_eq_true,and_assoc]

end Unweighted

section Choosers

/-- Two edges that offer a capability, the second of them a bad one. -/
def sampleOffers : List (Op 4 3 EdgeResourceTm ℕ) :=
  [.edgeAdd (sampleAddr 1),.writeEdge sampleFirst edgeResourceActive ⟨0,false⟩,
    .capabilityAdd sampleFirst [0x63,0x72],.writeCap 0 edgeCapabilityActive 0,
    .edgeAdd (sampleAddr 2),.writeEdge sampleSecond edgeResourceActive ⟨0,true⟩,
    .capabilityAdd sampleSecond [0x63,0x72],.writeCap 1 edgeCapabilityActive 0]

/-- The store with these edges. -/
def sampleChoices : EdgeStore 4 3 EdgeResourceTm ℕ :=
  sampleOffers.foldl (step sampleEdgeEnv) (edgeInfoInit 4 3 ⟨0,false⟩ 0)

/-- It is a proper store. -/
theorem represented_sampleChoices : Represented sampleChoices :=
  (always_of_step (fun _ _ hI hA => hI.step sampleEdgeEnv hA) (represented_init 4 3 _ 0)
    (show Along (step sampleEdgeEnv) Admitted _ sampleOffers by decide)).last

/-- The first edge is trusted by half, and the others are fully. -/
def sampleTrust (e : Fin 4) (_ : Fin (4*3)) : ℚ := if e=sampleFirst then 1/2 else 1

/-- No edge is distrusted. -/
theorem sampleTrust_nonneg (e : Fin 4) (c : Fin (4*3)) : 0 ≤ sampleTrust e c := by
  unfold sampleTrust
  split <;> norm_num

/-- **Choosing an edge.** In every proper store, whatever the trust in the edges,
the size of the band and the draws: the strategies give none exactly if no edge qualifies,
and else an edge that does. The highest one is of maximal trust, a banded one
is within the band, and every edge within it is possible. -/
theorem chooseEdge_sound_complete {s : EdgeStore ne nc ET CT}
    {sb : EdgeStore ne nc EdgeResourceTm CT} (hs : Represented s) (hsb : Represented sb)
    (hne : ne≤255) {calculateTrustValue : Fin ne → Fin (ne*nc) → ℚ}
    (htrust : ∀ e c, 0≤calculateTrustValue e c) {bandSize : ℚ} (hband : 0≤bandSize)
    (capabilityName : List UInt8) :
    ChoosesHighest s calculateTrustValue capabilityName
        (chooseEdgeHighest s calculateTrustValue capabilityName) ∧
      ChoosesAmong (Eligible s capabilityName)
        (InBand s calculateTrustValue capabilityName bandSize)
        (chooseEdgeBanded s calculateTrustValue capabilityName bandSize) ∧
      ChoosesAmong (Eligible s capabilityName) (Eligible s capabilityName)
        (chooseEdgeRandom s capabilityName) ∧
      ChoosesAmong (fun e => Eligible sb capabilityName e ∧ edgeIsGood sb e=true)
        (fun e => Eligible sb capabilityName e ∧ edgeIsGood sb e=true)
        (chooseEdgeBadlisted capabilityName sb) :=
  ⟨chooseEdgeHighest_spec hs htrust,chooseEdgeBanded_spec hs hne htrust hband,
    chooseEdgeRandom_spec hs hne,chooseEdgeBadlisted_spec hsb hne⟩

/-- The strategies on the two edges, with the default band. -/
theorem chooseEdge_sound_complete_sample :
    ChoosesHighest sampleChoices sampleTrust [0x63,0x72]
        (chooseEdgeHighest sampleChoices sampleTrust [0x63,0x72]) ∧
      ChoosesAmong (Eligible sampleChoices [0x63,0x72])
        (InBand sampleChoices sampleTrust [0x63,0x72] (1/4))
        (chooseEdgeBanded sampleChoices sampleTrust [0x63,0x72] (1/4)) ∧
      ChoosesAmong (Eligible sampleChoices [0x63,0x72]) (Eligible sampleChoices [0x63,0x72])
        (chooseEdgeRandom sampleChoices [0x63,0x72]) ∧
      ChoosesAmong (fun e => Eligible sampleChoices [0x63,0x72] e ∧ edgeIsGood sampleChoices e=true)
        (fun e => Eligible sampleChoices [0x63,0x72] e ∧ edgeIsGood sampleChoices e=true)
        (chooseEdgeBadlisted [0x63,0x72] sampleChoices) :=
  chooseEdge_sound_complete represented_sampleChoices represented_sampleChoices (by decide)
    sampleTrust_nonneg (by norm_num) [0x63,0x72]

example : chooseEdgeHighest sampleChoices sampleTrust [0x63,0x72]=some 1 := by
  decide +kernel
example : chooseEdgeBadlisted [0x63,0x72] sampleChoices [65535,7]=.ok (some 0) := by decide

end Choosers

end TrustAlloc.EdgeChoice
