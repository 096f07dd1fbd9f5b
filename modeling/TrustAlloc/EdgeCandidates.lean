import Mathlib.Algebra.Order.Field.Rat
import TrustAlloc.EdgeOffers
import TrustAlloc.RandomHelpers

/-!
# Candidates for a task

What the strategies of `trust-choose.c` share. Each walks over the known edges
and skips those that are of no use: the others are the eligible ones. The
random strategies collect them in an array as long as the list of edges can be,
some with the trust in them, and pick one in the end.
-/

namespace TrustAlloc.EdgeCandidates

open EdgeInfo EdgeOffers EdgeStoreRuns LocalArrays RandomHelpers

variable {ne nc : ℕ} {ET CT : Type}

section Strategies

variable (s : EdgeStore ne nc ET CT) (calculateTrustValue : Fin ne → Fin (ne*nc) → ℚ)
  (capabilityName : List UInt8)

/-- The capability that a strategy looks at, unless it skips the edge: because
it is inactive, lacks the capability, or has it inactive. -/
def usable (iter : Fin ne) : Option (Fin (ne*nc)) :=
  if edgeInfoIsActive s iter=false then none
  else match edgeInfoCapabilityFind s iter capabilityName with
    | none => none
    | some capability =>
      if edgeCapabilityIsActive s capability=false then none else some capability

/-- The candidates, and how many there are. -/
structure Candidates (ne : ℕ) where
  /-- `candidates`. -/
  candidates : LocalArray ne (Fin ne)
  /-- `candidates_len`. -/
  candidatesLen : ℕ

/-- The end of the random strategies: none of no candidates, and else a random one. -/
def pickCandidate (c : Candidates ne) (draws : List UInt16) : Drawing (Option (Fin ne)) :=
  if c.candidatesLen=0 then return none
  else do
    let idx ← randomInRangeUnbiased 0 (UInt16.ofNat (c.candidatesLen-1)) draws
    let chosen ← ofChecked (c.candidates.read idx.toNat)
    return some chosen

/-- A turn of a loop that collects candidates. Two of the strategies look
whether there is room in the array. -/
def collectTurn (guarded : Bool) (skip : Fin ne → Bool) (c : Candidates ne) (iter : Fin ne) :
    Checked (Candidates ne) :=
  if skip iter=true then return c
  else if guarded=true ∧ c.candidatesLen=ne then return c
  else do
    let candidates ← c.candidates.write c.candidatesLen iter
    return ⟨candidates,c.candidatesLen+1⟩

/-- The candidates with their trust values, and what is made of these: the
highest one, or their sum. -/
structure Trusted (ne : ℕ) extends Candidates ne where
  /-- `trust_values`. -/
  trustValues : LocalArray ne ℚ
  /-- `highest_trust`, or `trust_values_sum`. -/
  overall : ℚ

/-- A turn of a loop that collects candidates with their trust values. -/
def trustedTurn (record : ℚ → ℚ → ℚ) (b : Trusted ne) (iter : Fin ne) : Checked (Trusted ne) :=
  match usable s capabilityName iter with
  | none => return b
  | some capability =>
    if b.candidatesLen=ne then return b
    else do
      let trustValue := calculateTrustValue iter capability
      let candidates ← b.candidates.write b.candidatesLen iter
      let trustValues ← b.trustValues.write b.candidatesLen trustValue
      return ⟨⟨candidates,b.candidatesLen+1⟩,trustValues,record b.overall trustValue⟩

end Strategies

section Eligibility

variable {s : EdgeStore ne nc ET CT} {capabilityName : List UInt8} {e : Fin ne}

/-- An edge is active and has the capability active. -/
def Eligible (s : EdgeStore ne nc ET CT) (capabilityName : List UInt8) (e : Fin ne) : Prop :=
  edgeInfoIsActive s e=true ∧ Offers s e capabilityName

/-- Being eligible is decided by the lists and the flags. -/
instance decidableEligible (s : EdgeStore ne nc ET CT) (capabilityName : List UInt8)
    (e : Fin ne) : Decidable (Eligible s capabilityName e) :=
  inferInstanceAs (Decidable (_ ∧ Offers s e capabilityName))

/-- The trust in an edge for a capability. -/
def trustFor (s : EdgeStore ne nc ET CT) (calculateTrustValue : Fin ne → Fin (ne*nc) → ℚ)
    (capabilityName : List UInt8) (e : Fin ne) : ℚ :=
  (usable s capabilityName e).elim 0 (calculateTrustValue e)

/-- The edges that are not skipped are the eligible ones. -/
theorem eligible_iff (hs : Represented s) :
    Eligible s capabilityName e ↔ e∈s.edgeResources ∧ (usable s capabilityName e).isSome=true := by
  unfold Eligible usable
  cases hactive : edgeInfoIsActive s e with
  | false => simp
  | true =>
    simp only [true_and,Bool.true_eq_false,if_false]
    refine and_congr_right fun he => ?_
    cases hfind : edgeInfoCapabilityFind s e capabilityName with
    | none =>
      have hnone := (edgeInfoCapabilityFind_none_iff e capabilityName).mp hfind
      simp only [Option.isSome_none,Bool.false_eq_true,iff_false]
      exact fun ⟨c,hc,hname,_⟩ => hnone c hc hname
    | some c =>
      obtain ⟨hc,hname⟩ := edgeInfoCapabilityFind_some hfind
      have hsame : ∀ c'∈(s.edge e).capabilities, (s.cap c').name=capabilityName → c'=c :=
        fun c' hc' hname' => hs.distinct.names e he c' hc' c hc (hname'.trans hname.symm)
      have hone : (∃ c'∈(s.edge e).capabilities, (s.cap c').name=capabilityName ∧
          edgeCapabilityIsActive s c'=true) ↔ edgeCapabilityIsActive s c=true :=
        ⟨fun ⟨c',hc',hname',hon⟩ => hsame c' hc' hname' ▸ hon,fun hon => ⟨c,hc,hname,hon⟩⟩
      rw [hone]
      by_cases hon : edgeCapabilityIsActive s c=true <;> simp [hon]

/-- An edge that is not skipped is trusted as its capability is. -/
theorem trustFor_of_usable {calculateTrustValue : Fin ne → Fin (ne*nc) → ℚ} {c : Fin (ne*nc)}
    (h : usable s capabilityName e=some c) :
    trustFor s calculateTrustValue capabilityName e=calculateTrustValue e c := by
  rw [trustFor,h,Option.elim_some]

/-- An edge is trusted as its capability is, and not at all without one. -/
theorem trustFor_nonneg {calculateTrustValue : Fin ne → Fin (ne*nc) → ℚ}
    (htrust : ∀ e c, 0≤calculateTrustValue e c) (e : Fin ne) :
    0≤trustFor s calculateTrustValue capabilityName e := by
  unfold trustFor
  cases usable s capabilityName e with
  | none => exact le_rfl
  | some capability => exact htrust e capability

end Eligibility

section Picking

/-- What a random strategy gives: none if there is no candidate, and else one
of the possible edges, each of which may be drawn. It goes on drawing only as
long as no draw is in the lower half. -/
structure ChoosesAmong (candidate possible : Fin ne → Prop)
    (choose : List UInt16 → Drawing (Option (Fin ne))) : Prop where
  /-- None is chosen only if there is none. -/
  null : ∀ draws, choose draws=.ok none → ∀ e, ¬candidate e
  /-- If there is none, none is chosen. -/
  empty : (∀ e, ¬candidate e) → ∀ draws, choose draws=.ok none
  /-- The chosen one is possible. -/
  sound : ∀ draws e, choose draws=.ok (some e) → possible e
  /-- Every possible one may be chosen. -/
  complete : ∀ e, possible e → ∃ draws, choose draws=.ok (some e)
  /-- Something is chosen once a draw is in the lower half. -/
  ends : ∀ draws, (∃ x∈draws, x.toNat < 32768) → ∃ chosen, choose draws=.ok chosen
  /-- Otherwise nothing has happened but draws that were rejected. -/
  drawing : ∀ draws stop, choose draws=.error stop → stop=.drawing

/-- The candidates and the possible edges may be described differently. -/
theorem ChoosesAmong.congr {candidate candidate' possible possible' : Fin ne → Prop}
    {choose : List UInt16 → Drawing (Option (Fin ne))}
    (h : ChoosesAmong candidate possible choose)
    (hcandidate : (∃ e, candidate' e) ↔ ∃ e, candidate e)
    (hpossible : ∀ e, possible' e ↔ possible e) : ChoosesAmong candidate' possible' choose where
  null draws hnull e he := by
    obtain ⟨e',he'⟩ := hcandidate.mp ⟨e,he⟩
    exact h.null draws hnull e' he'
  empty hempty draws := h.empty (fun e he => by
    obtain ⟨e',he'⟩ := hcandidate.mpr ⟨e,he⟩
    exact hempty e' he') draws
  sound draws e he := (hpossible e).mpr (h.sound draws e he)
  complete e he := h.complete e ((hpossible e).mp he)
  ends := h.ends
  drawing := h.drawing

/-- The first accepted draw picks the candidate, modulo their number. -/
theorem pickCandidate_eq {a : LocalArray ne (Fin ne)} {l : List (Fin ne)} (h : a.Holds l)
    (hpos : 0 < l.length) (hl : l.length≤255) (draws : List UInt16) :
    pickCandidate ⟨a,l.length⟩ draws=
      match draws.find? fun x => decide (Accepted l.length x) with
      | some x => .ok l[x.toNat%l.length]?
      | none => .error .drawing := by
  have hmax : (UInt16.ofNat (l.length-1)).toNat=l.length-1 := by
    rw [UInt16.toNat_ofNat']
    omega
  have hsize : (UInt16.ofNat (l.length-1)).toNat-(0 : UInt16).toNat+1=l.length := by
    rw [hmax,UInt16.toNat_zero]
    omega
  unfold pickCandidate
  rw [if_neg (by dsimp only; omega),randomInRangeUnbiased_eq (by simp) (by
    rw [hmax]
    omega),hsize]
  cases draws.find? fun x => decide (Accepted l.length x) with
  | none => rfl
  | some x =>
    have hlt := Nat.mod_lt x.toNat hpos
    have hidx : (UInt16.ofNat (x.toNat%l.length)).toNat=x.toNat%l.length := by
      rw [UInt16.toNat_ofNat']
      omega
    have hread := h _ _ (List.getElem?_eq_getElem hlt)
    simp only [UInt16.toNat_zero,Nat.zero_add]
    rw [List.getElem?_eq_getElem hlt]
    change (do
      let chosen ← ofChecked (a.read ((UInt16.ofNat (x.toNat%l.length)).toNat : ℤ))
      return some chosen : Drawing (Option (Fin ne)))=_
    rw [hidx,hread]
    rfl

/-- A random candidate of those that an array holds. -/
theorem pickCandidate_spec {a : LocalArray ne (Fin ne)} {l : List (Fin ne)} (h : a.Holds l)
    (hl : l.length≤255) : ChoosesAmong (·∈l) (·∈l) (pickCandidate ⟨a,l.length⟩) := by
  by_cases hempty : l.length=0
  · have hnull : ∀ draws, pickCandidate ⟨a,l.length⟩ draws=.ok none := fun draws => by
      rw [hempty]
      rfl
    have hnot : ∀ e, e∉l := by
      rw [List.length_eq_zero_iff.mp hempty]
      exact fun e => List.not_mem_nil
    refine ⟨fun _ _ => hnot,fun _ => hnull,fun draws e he => ?_,fun e he => absurd he (hnot e),
      fun draws _ => ⟨none,hnull draws⟩,fun draws stop hstop => ?_⟩
    · rw [hnull] at he
      cases he
    · rw [hnull] at hstop
      cases hstop
  · have hpos : 0 < l.length := by omega
    have heq := pickCandidate_eq h hpos hl
    have hindex := fun n : ℕ => List.getElem?_eq_getElem (Nat.mod_lt n hpos)
    refine ⟨fun draws hnull => ?_,fun hnone => absurd (List.getElem_mem hpos) (hnone _),
      fun draws e he => ?_,fun e he => ?_,fun draws hlow => ?_,fun draws stop hstop => ?_⟩
    · rw [heq] at hnull
      split at hnull
      · rw [hindex] at hnull
        cases hnull
      · cases hnull
    · rw [heq] at he
      split at he
      · exact List.mem_of_getElem? (Except.ok.inj he)
      · cases he
    · obtain ⟨k,hk,rfl⟩ := List.mem_iff_getElem.mp he
      have htoNat : (UInt16.ofNat k).toNat=k := by
        rw [UInt16.toNat_ofNat']
        omega
      have hacc : Accepted l.length (UInt16.ofNat k) :=
        accepted_of_lt (by omega) hpos (by omega)
      have hfind : [UInt16.ofNat k].find? (fun x => decide (Accepted l.length x))=
          some (UInt16.ofNat k) := List.find?_cons_of_pos (decide_eq_true hacc)
      refine ⟨[UInt16.ofNat k],?_⟩
      rw [heq,hfind]
      dsimp only
      rw [htoNat,Nat.mod_eq_of_lt hk,List.getElem?_eq_getElem hk]
    · obtain ⟨x,hx,hlt⟩ := hlow
      have hfound : (draws.find? fun x => decide (Accepted l.length x)).isSome=true :=
        List.find?_isSome.mpr ⟨x,hx,decide_eq_true (accepted_of_lt (by omega) hpos hlt)⟩
      obtain ⟨y,hy⟩ := Option.isSome_iff_exists.mp hfound
      exact ⟨_,by rw [heq,hy]⟩
    · rw [heq] at hstop
      split at hstop
      · cases hstop
      · exact (Except.error.inj hstop).symm

end Picking

section Collecting

variable {s : EdgeStore ne nc ET CT} {calculateTrustValue : Fin ne → Fin (ne*nc) → ℚ}
  {capabilityName : List UInt8}

/-- No more edges are collected than there can be. -/
theorem length_filter_le {l : List (Fin ne)} (hl : l.Nodup) (keep : Fin ne → Bool) :
    (l.filter keep).length≤ne := by
  have hcard := (hl.filter keep).length_le_card
  rwa [Fintype.card_fin] at hcard

/-- The loop collects the edges that are not skipped. -/
theorem collectTurn_foldlM (guarded : Bool) (skip : Fin ne → Bool) {l : List (Fin ne)}
    (hl : l.Nodup) :
    ∃ a, l.foldlM (collectTurn guarded skip) ⟨.blank,0⟩=
        .ok ⟨a,(l.filter fun e => !skip e).length⟩ ∧
      a.Holds (l.filter fun e => !skip e) := by
  induction l using List.reverseRecOn with
  | nil => exact ⟨.blank,rfl,LocalArray.holds_nil _⟩
  | append_singleton l iter ih =>
    obtain ⟨a,hrun,hholds⟩ := ih (List.nodup_append.mp hl).1
    have hroom := length_filter_le hl fun e => !skip e
    rw [List.filter_append] at hroom ⊢
    rw [foldlM_concat hrun iter]
    unfold collectTurn
    by_cases hskip : skip iter=true
    · rw [if_pos hskip,List.filter_singleton,hskip]
      simp only [Bool.not_true,cond_false,List.append_nil]
      exact ⟨a,rfl,hholds⟩
    · rw [List.filter_cons_of_pos (by simp [hskip]),List.filter_nil,List.length_append,
        List.length_singleton] at hroom ⊢
      obtain ⟨a',hwrite,hwrote⟩ :=
        a.write_wrote (k:=(l.filter fun e => !skip e).length) (by omega) iter
      rw [if_neg hskip,if_neg (by dsimp only; omega),hwrite]
      exact ⟨a',rfl,hholds.append hwrote⟩

/-- A strategy that picks one of the collected edges chooses among those that
are not skipped. -/
theorem collected_spec {guarded : Bool} {skip : Fin ne → Bool} {l : List (Fin ne)}
    (hl : l.Nodup) (hne : ne≤255) {candidate : Fin ne → Prop}
    (hcandidate : ∀ e, candidate e ↔ e∈l ∧ (!skip e)=true) :
    ChoosesAmong candidate candidate (fun draws => do
      let c ← ofChecked (l.foldlM (collectTurn guarded skip) ⟨.blank,0⟩)
      pickCandidate c draws) := by
  obtain ⟨a,hcollect,ha⟩ := collectTurn_foldlM guarded skip hl
  have hmem : ∀ e, candidate e ↔ e∈l.filter fun e => !skip e := fun e => by
    rw [hcandidate,List.mem_filter]
  rw [hcollect]
  exact (pickCandidate_spec ha ((length_filter_le hl _).trans hne)).congr (exists_congr hmem) hmem

/-- The edges that are not skipped. -/
def usables (s : EdgeStore ne nc ET CT) (capabilityName : List UInt8) (l : List (Fin ne)) :
    List (Fin ne) := l.filter fun e => (usable s capabilityName e).isSome

/-- The collected edges are the eligible ones. -/
theorem mem_usables (hs : Represented s) {e : Fin ne} :
    e∈usables s capabilityName s.edgeResources ↔ Eligible s capabilityName e := by
  rw [usables,List.mem_filter,eligible_iff hs]

/-- The loop collects the edges that are not skipped with the trust in them. -/
theorem trustedTurn_foldlM (s : EdgeStore ne nc ET CT)
    (calculateTrustValue : Fin ne → Fin (ne*nc) → ℚ) (capabilityName : List UInt8)
    (record : ℚ → ℚ → ℚ) {l : List (Fin ne)} (hl : l.Nodup) :
    ∃ a t, l.foldlM (trustedTurn s calculateTrustValue capabilityName record)
        ⟨⟨.blank,0⟩,.blank,0⟩=.ok ⟨⟨a,(usables s capabilityName l).length⟩,t,
          ((usables s capabilityName l).map
            (trustFor s calculateTrustValue capabilityName)).foldl record 0⟩ ∧
      a.Holds (usables s capabilityName l) ∧
      t.Holds ((usables s capabilityName l).map
        (trustFor s calculateTrustValue capabilityName)) := by
  unfold usables
  induction l using List.reverseRecOn with
  | nil => exact ⟨.blank,.blank,rfl,LocalArray.holds_nil _,LocalArray.holds_nil _⟩
  | append_singleton l iter ih =>
    obtain ⟨a,t,hrun,ha,ht⟩ := ih (List.nodup_append.mp hl).1
    have hroom := length_filter_le hl fun e => (usable s capabilityName e).isSome
    rw [List.filter_append] at hroom ⊢
    rw [foldlM_concat hrun iter]
    unfold trustedTurn
    cases hu : usable s capabilityName iter with
    | none =>
      rw [List.filter_cons_of_neg (by simp [hu]),List.filter_nil,List.append_nil]
      exact ⟨a,t,rfl,ha,ht⟩
    | some capability =>
      rw [List.filter_cons_of_pos (by simp [hu]),List.filter_nil] at hroom ⊢
      rw [List.length_append,List.length_singleton] at hroom
      obtain ⟨a',hwriteA,hwroteA⟩ := a.write_wrote
        (k:=(l.filter fun e => (usable s capabilityName e).isSome).length) (by omega) iter
      obtain ⟨t',hwriteT,hwroteT⟩ := t.write_wrote
        (k:=(l.filter fun e => (usable s capabilityName e).isSome).length) (by omega)
        (calculateTrustValue iter capability)
      have hne : (l.filter fun e => (usable s capabilityName e).isSome).length≠ne := by omega
      dsimp only
      rw [if_neg hne,hwriteA]
      dsimp only [bind,Except.bind]
      rw [hwriteT,List.length_append,List.length_singleton,List.map_append,List.map_singleton,
        List.foldl_append,trustFor_of_usable hu]
      refine ⟨a',t',rfl,ha.append hwroteA,ht.append ?_⟩
      rwa [List.length_map]

end Collecting

end TrustAlloc.EdgeCandidates
