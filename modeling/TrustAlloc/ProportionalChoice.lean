import Mathlib.Algebra.Order.BigOperators.Group.List
import TrustAlloc.EdgeChoice
import TrustAlloc.WeightedChoice

/-!
# Choosing an edge in proportion to the trust in it

The proportional strategy of `trust-choose.c`. The range of a random number is
divided among the candidates, each share rounded down, and the candidate whose
share a random number falls into is chosen. The shares together never reach the
end of the range. A number behind them chooses none: this is logged, and only
an index that the log prints is set to that of the last candidate.
-/

namespace TrustAlloc.ProportionalChoice

open EdgeCandidates EdgeChoice EdgeInfo EdgeStoreRuns LocalArrays RandomHelpers WeightedChoice

variable {ne nc : ℕ} {ET CT : Type}

section Strategy

/-- The arrays in which the range is divided. -/
structure Divided (ne : ℕ) where
  /-- `trust_values`. -/
  trustValues : LocalArray ne ℚ
  /-- `trust_values_boundaries`. -/
  trustValuesBoundaries : LocalArray ne UInt16

/-- The part of `RANDOM_RAND_MAX` that a normalised trust value is worth. -/
def boundary (trustValue : ℚ) : UInt16 := .ofNat ⌊trustValue*randomRandMax.toNat⌋.toNat

/-- A turn of the loop that divides the range. -/
def divideTurn (trustValuesSum : ℚ) (d : Divided ne) (i : ℕ) : Checked (Divided ne) := do
  let trustValue ← d.trustValues.read i
  let trustValues ← d.trustValues.write i (trustValue/trustValuesSum)
  let normalised ← trustValues.read i
  let trustValuesBoundaries ← d.trustValuesBoundaries.write i (boundary normalised)
  return ⟨trustValues,trustValuesBoundaries⟩

/-- The loop that looks for the share a random number falls into. The sum in
its test is one of `int`, and the one that is kept is of 16 bits. -/
def findShare (candidates : LocalArray ne (Fin ne)) (trustValuesBoundaries : LocalArray ne UInt16)
    (rnd : UInt16) : List ℕ → UInt16 → Checked (Option (Fin ne))
  | [],_ => return none
  | i::is,previous => do
    let boundary ← trustValuesBoundaries.read i
    if previous ≤ rnd ∧ rnd.toNat < previous.toNat+boundary.toNat then
      let chosen ← candidates.read i
      return some chosen
    else findShare candidates trustValuesBoundaries rnd is (previous+boundary)

/-- `choose_edge` of the proportional strategy, with what `random_rand` gives. -/
def chooseEdgeProportional (s : EdgeStore ne nc ET CT)
    (calculateTrustValue : Fin ne → Fin (ne*nc) → ℚ) (capabilityName : List UInt8)
    (rnd : UInt16) : Checked (Option (Fin ne)) := do
  let b ← s.edgeResources.foldlM
    (trustedTurn s calculateTrustValue capabilityName (·+·)) ⟨⟨.blank,0⟩,.blank,0⟩
  let d ← (List.range b.candidatesLen).foldlM (divideTurn b.overall) ⟨b.trustValues,.blank⟩
  if b.candidatesLen=0 then return none
  else findShare b.candidates d.trustValuesBoundaries rnd (List.range b.candidatesLen) 0

end Strategy

section Loops

/-- The boundary of a share is the share, which fits in 16 bits. -/
theorem toNat_boundary {sum part : ℚ} (hpart : 0≤part) (hle : part ≤ sum) :
    (boundary (part/sum)).toNat=share 65535 sum part := by
  have hsum : 0 ≤ sum := hpart.trans hle
  have hfits : share 65535 sum part≤65535 := by
    have hone : part/sum≤1 := div_le_one_of_le₀ hle hsum
    have hbound := (share_bounds (n:=65535) hsum hpart).1
    have hcast : (share 65535 sum part : ℚ)≤(65535 : ℕ) := by
      refine hbound.trans ?_
      rw [Nat.cast_ofNat]
      linarith
    exact_mod_cast hcast
  change (UInt16.ofNat (share 65535 sum part)).toNat=_
  rw [UInt16.toNat_ofNat']
  omega

/-- The loop leaves the normalised trust values and their boundaries. -/
theorem divideTurn_foldlM {t : LocalArray ne ℚ} {ts : List ℚ} (sum : ℚ) (hl : ts.length≤ne)
    (ht : t.Holds ts) {n : ℕ} (hn : n≤ts.length) :
    ∃ d, (List.range n).foldlM (divideTurn sum) ⟨t,.blank⟩=.ok d ∧
      d.trustValues.Compacting ts n ((ts.take n).map (·/sum)) ∧
      d.trustValuesBoundaries.Holds ((ts.take n).map fun part => boundary (part/sum)) := by
  induction n with
  | zero => exact ⟨_,rfl,ht.compacting,LocalArray.holds_nil _⟩
  | succ n ih =>
    obtain ⟨d,hrun,hvalues,hbounds⟩ := ih (by omega)
    obtain ⟨part,hnth⟩ : ∃ part, ts[n]?=some part := ⟨_,List.getElem?_eq_getElem hn⟩
    have hlenV : ((ts.take n).map (·/sum)).length=n := by
      rw [List.length_map,List.length_take]
      omega
    have hlenB : ((ts.take n).map fun part => boundary (part/sum)).length=n := by
      rw [List.length_map,List.length_take]
      omega
    obtain ⟨v,hwriteV,hwroteV⟩ :=
      d.trustValues.write_wrote (k:=n) (by omega) (part/sum)
    obtain ⟨b,hwriteB,hwroteB⟩ :=
      d.trustValuesBoundaries.write_wrote (k:=n) (by omega) (boundary (part/sum))
    rw [List.range_succ,foldlM_concat hrun n,List.take_add_one,hnth,Option.toList_some,
      List.map_append,List.map_append,List.map_singleton,List.map_singleton]
    unfold divideTurn
    rw [hvalues.back n part le_rfl hnth]
    dsimp only [bind,Except.bind]
    rw [hwriteV]
    dsimp only
    rw [hwroteV.self]
    dsimp only
    rw [hwriteB]
    refine ⟨⟨v,b⟩,rfl,hvalues.keep (by omega) ?_,hbounds.append ?_⟩
    · rwa [hlenV]
    · rwa [hlenB]

/-- The search for a share picks by weight, as long as the shares fit in 16 bits. -/
theorem findShare_eq {candidates : LocalArray ne (Fin ne)} {bounds : LocalArray ne UInt16}
    {weight : Fin ne → UInt16} {rnd : UInt16} (l : List (Fin ne)) {k : ℕ} {previous : UInt16}
    (hread : ∀ (j : ℕ) (e : Fin ne), l[j]?=some e →
      candidates.read ((k+j : ℕ) : ℤ)=.ok e ∧ bounds.read ((k+j : ℕ) : ℤ)=.ok (weight e))
    (hfits : previous.toNat+total (l.map fun e => (e,(weight e).toNat))≤65535)
    (hle : previous ≤ rnd) :
    findShare candidates bounds rnd (List.range' k l.length) previous=
      .ok (pick (l.map fun e => (e,(weight e).toNat)) (rnd.toNat-previous.toNat)) := by
  unfold total at hfits
  induction l generalizing k previous with
  | nil => rfl
  | cons e l ih =>
    obtain ⟨hcandidate,hbound⟩ := hread 0 e rfl
    rw [List.map_cons,List.map_cons,List.sum_cons] at hfits
    rw [List.length_cons,List.range'_succ,findShare]
    rw [Nat.add_zero] at hcandidate hbound
    rw [hbound]
    dsimp only [bind,Except.bind]
    rw [List.map_cons,pick]
    have hnat := UInt16.le_iff_toNat_le.mp hle
    by_cases hhit : rnd.toNat < previous.toNat+(weight e).toNat
    · rw [if_pos ⟨hle,hhit⟩,if_pos (by omega),hcandidate]
      rfl
    · have hnext : (previous+weight e).toNat=previous.toNat+(weight e).toNat := by
        rw [UInt16.toNat_add]
        omega
      have hrest : ∀ (j : ℕ) (e' : Fin ne), l[j]?=some e' →
          candidates.read ((k+1+j : ℕ) : ℤ)=.ok e' ∧
            bounds.read ((k+1+j : ℕ) : ℤ)=.ok (weight e') := by
        intro j e' he'
        rw [show k+1+j=k+(j+1) by omega]
        exact hread (j+1) e' he'
      have hpassed : previous+weight e ≤ rnd := by
        rw [UInt16.le_iff_toNat_le,hnext]
        omega
      rw [if_neg fun h => hhit h.2,if_neg (by omega),ih hrest (by omega) hpassed,hnext,
        Nat.sub_add_eq]

end Loops

section Shares

variable {s : EdgeStore ne nc ET CT} {calculateTrustValue : Fin ne → Fin (ne*nc) → ℚ}
  {capabilityName : List UInt8}

/-- The trust in all eligible edges together. -/
def trustSum (s : EdgeStore ne nc ET CT) (calculateTrustValue : Fin ne → Fin (ne*nc) → ℚ)
    (capabilityName : List UInt8) : ℚ :=
  ((usables s capabilityName s.edgeResources).map
    (trustFor s calculateTrustValue capabilityName)).sum

/-- The share of the range that an edge is entitled to, rounded down. -/
def shareOf (s : EdgeStore ne nc ET CT) (calculateTrustValue : Fin ne → Fin (ne*nc) → ℚ)
    (capabilityName : List UInt8) (e : Fin ne) : ℕ :=
  share 65535 (trustSum s calculateTrustValue capabilityName)
    (trustFor s calculateTrustValue capabilityName e)

/-- The boundary that the strategy computes for an edge. -/
def boundaryOf (s : EdgeStore ne nc ET CT) (calculateTrustValue : Fin ne → Fin (ne*nc) → ℚ)
    (capabilityName : List UInt8) (e : Fin ne) : UInt16 :=
  boundary (trustFor s calculateTrustValue capabilityName e/
    trustSum s calculateTrustValue capabilityName)

/-- All shares together. -/
def shares (s : EdgeStore ne nc ET CT) (calculateTrustValue : Fin ne → Fin (ne*nc) → ℚ)
    (capabilityName : List UInt8) : ℕ :=
  ((usables s capabilityName s.edgeResources).map
    (shareOf s calculateTrustValue capabilityName)).sum

/-- The eligible edges lie side by side, each as long as its share. -/
def entries (s : EdgeStore ne nc ET CT) (calculateTrustValue : Fin ne → Fin (ne*nc) → ℚ)
    (capabilityName : List UInt8) : List (Fin ne×ℕ) :=
  (usables s capabilityName s.edgeResources).map fun e =>
    (e,shareOf s calculateTrustValue capabilityName e)

/-- They are as long as all shares together. -/
theorem total_entries : total (entries s calculateTrustValue capabilityName)=
    shares s calculateTrustValue capabilityName := by
  unfold total entries shares
  rw [List.map_map]
  rfl

/-- The parts that are shared out are not negative. -/
theorem trusts_nonneg (s : EdgeStore ne nc ET CT) (capabilityName : List UInt8)
    (htrust : ∀ e c, 0≤calculateTrustValue e c) :
    ∀ part∈(usables s capabilityName s.edgeResources).map
      (trustFor s calculateTrustValue capabilityName), 0≤part := by
  intro part hpart
  obtain ⟨e,-,rfl⟩ := List.mem_map.mp hpart
  exact trustFor_nonneg htrust e

variable (htrust : ∀ e c, 0≤calculateTrustValue e c)
  (hsum : 0 < trustSum s calculateTrustValue capabilityName)

include htrust

/-- The boundaries of the eligible edges are their shares. -/
theorem map_boundaryOf : (usables s capabilityName s.edgeResources).map (fun e =>
    (e,(boundaryOf s calculateTrustValue capabilityName e).toNat))=
      entries s calculateTrustValue capabilityName := by
  refine List.map_congr_left fun e he => ?_
  have hle : trustFor s calculateTrustValue capabilityName e≤
      trustSum s calculateTrustValue capabilityName :=
    List.single_le_sum (trusts_nonneg s capabilityName htrust) _ (List.mem_map_of_mem he)
  rw [boundaryOf,toNat_boundary (trustFor_nonneg htrust e) hle,shareOf]

include hsum

/-- The shares do not exceed the range, and little of it is left over. -/
theorem shares_bounds : shares s calculateTrustValue capabilityName≤65535 ∧
    65535 < shares s calculateTrustValue capabilityName+
      (usables s capabilityName s.edgeResources).length := by
  have hbounds := sum_share_le (n:=65535) (trusts_nonneg s capabilityName htrust) hsum
  rw [List.map_map,List.length_map] at hbounds
  exact hbounds

/-- The strategy picks by share. -/
theorem chooseEdgeProportional_eq (hl : s.edgeResources.Nodup) (rnd : UInt16) :
    chooseEdgeProportional s calculateTrustValue capabilityName rnd=
      .ok (pick (entries s calculateTrustValue capabilityName) rnd.toNat) := by
  obtain ⟨a,t,hcollect,ha,ht⟩ := trustedTurn_foldlM s calculateTrustValue capabilityName
    (·+·) hl
  have hroom : (usables s capabilityName s.edgeResources).length≤ne := length_filter_le hl _
  obtain ⟨d,hdivide,-,hbounds⟩ := divideTurn_foldlM
    (trustSum s calculateTrustValue capabilityName) (by rwa [List.length_map]) ht le_rfl
  rw [List.take_length,List.map_map] at hbounds
  rw [List.length_map] at hdivide
  rw [←List.sum_eq_foldl] at hcollect
  have hsome : (usables s capabilityName s.edgeResources).length≠0 := by
    intro hzero
    rw [trustSum,List.length_eq_zero_iff.mp hzero] at hsum
    exact hsum.ne rfl
  have hread : ∀ (j : ℕ) (e : Fin ne), (usables s capabilityName s.edgeResources)[j]?=some e →
      a.read ((0+j : ℕ) : ℤ)=.ok e ∧ d.trustValuesBoundaries.read ((0+j : ℕ) : ℤ)=
        .ok (boundaryOf s calculateTrustValue capabilityName e) := by
    intro j e he
    rw [Nat.zero_add]
    refine ⟨ha j e he,hbounds j _ ?_⟩
    rw [List.getElem?_map,he]
    rfl
  have hfits : (0 : UInt16).toNat+total ((usables s capabilityName s.edgeResources).map fun e =>
      (e,(boundaryOf s calculateTrustValue capabilityName e).toNat))≤65535 := by
    rw [map_boundaryOf htrust,UInt16.toNat_zero,Nat.zero_add,total_entries]
    exact (shares_bounds htrust hsum).1
  unfold chooseEdgeProportional
  rw [hcollect]
  dsimp only [bind,Except.bind]
  rw [←trustSum,hdivide]
  dsimp only
  rw [if_neg hsome,List.range_eq_range',findShare_eq _ hread hfits (UInt16.zero_le),
    map_boundaryOf htrust]
  rfl

end Shares

section Choosing

variable {s : EdgeStore ne nc ET CT} {calculateTrustValue : Fin ne → Fin (ne*nc) → ℚ}
  {capabilityName : List UInt8}

/-- How many random numbers make the strategy give a result. -/
def drawsFor (s : EdgeStore ne nc ET CT) (calculateTrustValue : Fin ne → Fin (ne*nc) → ℚ)
    (capabilityName : List UInt8) (chosen : Option (Fin ne)) : ℕ :=
  (List.range 65536).countP fun rnd =>
    decide (chooseEdgeProportional s calculateTrustValue capabilityName (.ofNat rnd)=.ok chosen)

/-- A random number chooses an eligible edge, and the eligible edges are chosen
in proportion to the trust in them. -/
structure ChoosesProportionally (s : EdgeStore ne nc ET CT)
    (calculateTrustValue : Fin ne → Fin (ne*nc) → ℚ) (capabilityName : List UInt8)
    (rnd : UInt16) : Prop where
  /-- An eligible edge is chosen. -/
  chosen : ∃ e, chooseEdgeProportional s calculateTrustValue capabilityName rnd=.ok (some e) ∧
    Eligible s capabilityName e
  /-- The random numbers that choose an edge are its share of the range, give
  or take the number of candidates. -/
  proportional : ∀ e, Eligible s capabilityName e →
    |(drawsFor s calculateTrustValue capabilityName (some e) : ℚ)-
      65535*trustFor s calculateTrustValue capabilityName e/
        trustSum s calculateTrustValue capabilityName|≤
      (usables s capabilityName s.edgeResources).length

section Draws

variable (hl : s.edgeResources.Nodup) (htrust : ∀ e c, 0≤calculateTrustValue e c)
  (hsum : 0 < trustSum s calculateTrustValue capabilityName)

include hl htrust hsum

/-- The random numbers are counted where they fall. -/
theorem drawsFor_eq (chosen : Option (Fin ne)) :
    drawsFor s calculateTrustValue capabilityName chosen=(List.range 65536).countP fun rnd =>
      decide (pick (entries s calculateTrustValue capabilityName) rnd=chosen) := by
  refine List.countP_congr fun rnd hrnd => ?_
  have htoNat : (UInt16.ofNat rnd).toNat=rnd := by
    rw [UInt16.toNat_ofNat']
    exact Nat.mod_eq_of_lt (List.mem_range.mp hrnd)
  rw [decide_eq_true_iff,decide_eq_true_iff,chooseEdgeProportional_eq htrust hsum hl,htoNat,
    Except.ok.injEq]

/-- Every eligible edge is chosen by its share, rounded down. -/
theorem drawsFor_some {e : Fin ne} (he : e∈usables s capabilityName s.edgeResources) :
    drawsFor s calculateTrustValue capabilityName (some e)=
      shareOf s calculateTrustValue capabilityName e := by
  have hbound := (shares_bounds htrust hsum).1
  rw [←total_entries] at hbound
  rw [drawsFor_eq hl htrust hsum,countP_pick (by omega) e]
  exact weightOf_map (hl.filter _) _ he

/-- None is chosen at least by the highest random number, and at most by as
many of them as there are candidates. -/
theorem drawsFor_none : 1≤drawsFor s calculateTrustValue capabilityName none ∧
    drawsFor s calculateTrustValue capabilityName none≤
      (usables s capabilityName s.edgeResources).length := by
  obtain ⟨hle,hge⟩ := shares_bounds htrust hsum
  have hcount := countP_pick_none (l:=entries s calculateTrustValue capabilityName) (n:=65536)
    (by rw [total_entries]; omega)
  rw [total_entries] at hcount
  rw [drawsFor_eq hl htrust hsum,hcount]
  omega

end Draws

/-- **Choosing in proportion to trust.** The eligible edges are chosen in
proportion to the trust in them. An edge is chosen exactly by the random
numbers below the sum of their shares, each rounded down. -/
theorem choosesProportionally_iff (hs : Represented s)
    (htrust : ∀ e c, 0≤calculateTrustValue e c)
    (hsum : 0 < trustSum s calculateTrustValue capabilityName) (rnd : UInt16) :
    ChoosesProportionally s calculateTrustValue capabilityName rnd ↔
      rnd.toNat < shares s calculateTrustValue capabilityName := by
  have hl := hs.wellFormed.ownsEdges.nodup
  rw [←total_entries,←pick_isSome_iff]
  constructor
  · rintro ⟨⟨e,he,-⟩,-⟩
    rw [chooseEdgeProportional_eq htrust hsum hl] at he
    rw [Except.ok.inj he]
    rfl
  · intro hsome
    obtain ⟨e,he⟩ := Option.isSome_iff_exists.mp hsome
    refine ⟨⟨e,?_,?_⟩,fun e helig => ?_⟩
    · rw [chooseEdgeProportional_eq htrust hsum hl,he]
    · have hmem := pick_mem he
      rw [entries,List.map_map] at hmem
      obtain ⟨e',he',rfl⟩ := List.mem_map.mp hmem
      exact (mem_usables hs).mp he'
    · have hmem := (mem_usables hs).mpr helig
      have hone : (1 : ℚ)≤(usables s capabilityName s.edgeResources).length := by
        exact_mod_cast List.length_pos_of_mem hmem
      have hnonneg : 0≤trustFor s calculateTrustValue capabilityName e := trustFor_nonneg htrust e
      obtain ⟨hlo,hhi⟩ := share_bounds (n:=65535) hsum.le hnonneg
      rw [drawsFor_some hl htrust hsum hmem,shareOf,mul_div_assoc,mul_comm (65535 : ℚ)]
      rw [Nat.cast_ofNat] at hlo hhi
      rw [abs_le]
      constructor <;> linarith

/-- A low random number on two edges. -/
theorem choosesProportionally_iff_sample :
    ChoosesProportionally sampleChoices sampleTrust [0x63,0x72] 7 :=
  (choosesProportionally_iff represented_sampleChoices sampleTrust_nonneg (by decide +kernel)
    7).mpr (by decide +kernel)

/-- The highest random number chooses neither of the two edges. -/
theorem not_choosesProportionally_of_highest :
    Represented sampleChoices ∧ Eligible sampleChoices [0x63,0x72] 0 ∧
      (∀ e c, 0 ≤ sampleTrust e c) ∧ 0 < trustSum sampleChoices sampleTrust [0x63,0x72] ∧
      chooseEdgeProportional sampleChoices sampleTrust [0x63,0x72] 65535=.ok none ∧
      ¬ChoosesProportionally sampleChoices sampleTrust [0x63,0x72] 65535 := by
  have hnone : chooseEdgeProportional sampleChoices sampleTrust [0x63,0x72] 65535=.ok none := by
    decide +kernel
  refine ⟨represented_sampleChoices,by decide,sampleTrust_nonneg,by decide +kernel,hnone,?_⟩
  rintro ⟨⟨e,he,-⟩,-⟩
  rw [hnone] at he
  cases he

end Choosing

end TrustAlloc.ProportionalChoice
