import ImageCoin.BlockIndexRuns
import ImageCoin.InvalidateBlock

/-!
# `ReconsiderBlock`

`ReconsiderBlock` clears the marks of a block, of its descendants and of its ancestors.
-/

namespace ImageCoin

namespace BlockIndex

open StepRuns IndexEntry Prod
variable {ι : Type} [LinearOrder ι] {m : BlockHeaders ι} {s s' : BlockIndex m} {a b c p x : ι}

def related (m : BlockHeaders ι) (b a : ι) : Prop := m.tree.Below a b ∨ m.tree.Below b a

instance (b a : ι) : Decidable (related m b a) :=
  inferInstanceAs (Decidable (m.tree.Below a b ∨ m.tree.Below b a))

omit [LinearOrder ι] in
theorem reconsidered_iff (ha : a ∈ s.known) : s.reconsidered b a ↔
    ¬(s.entry a).isValid blockValidTransactions ∧ m.tree.Below b a := by
  have hbelow : m.getAncestor a (m.nHeight b) = some b ↔ m.tree.Below b a := by
    rw [BlockChains.getAncestor_eq (by omega)]
    exact .rfl
  rw [reconsidered, hbelow, and_iff_right ha]

section
variable (ha : a ∈ s.known)
include ha

theorem reconsiderBlock_entry : (s.reconsiderBlock b).entry a =
    if related m b a then (s.entry a).clearFailed else s.entry a := by
  change (if m.tree.Below a b then
      (if s.reconsidered b a then (s.entry a).clearFailed else s.entry a).clearFailed
    else if s.reconsidered b a then (s.entry a).clearFailed else s.entry a) = _
  by_cases hab : m.tree.Below a b
  · have hrelated : related m b a := Or.inl hab
    split_ifs <;> rfl
  rw [if_neg hab]
  by_cases hba : m.tree.Below b a
  · have hrelated : related m b a := Or.inr hba
    split_ifs with hvalid
    · rfl
    · -- It is not marked, so there is nothing to clear.
      have hnot : ¬(s.entry a).failed := by
        intro hfailed
        refine hvalid ((reconsidered_iff ha).mpr ⟨?_, hba⟩)
        simp [isValid, hfailed]
      exact (clearFailed_of_not_failed hnot).symm
  · have hnot : ¬s.reconsidered b a := fun h => hba ((reconsidered_iff ha).mp h).2
    have hrelated : ¬related m b a := not_or.mpr ⟨hab, hba⟩
    rw [if_neg hnot, if_neg hrelated]

omit ha in
theorem reconsiderBlock_flagsOnly : FlagsOnly s (s.reconsiderBlock b) where
  known := rfl
  fHavePruned := rfl
  entry := by
    intro a
    simp only [reconsiderBlock, clearAncestors, clearDescendants]
    split_ifs <;> rfl

theorem reconsiderBlock_failedValid :
    ((s.reconsiderBlock b).entry a).failedValid ↔ ¬related m b a ∧ (s.entry a).failedValid := by
  rw [reconsiderBlock_entry ha]
  split_ifs with hrelated <;> simp [hrelated, clearFailed]

theorem reconsiderBlock_failed :
    ((s.reconsiderBlock b).entry a).failed ↔ ¬related m b a ∧ (s.entry a).failed := by
  rw [reconsiderBlock_entry ha]
  split_ifs with hrelated <;>
    simp [hrelated, failed, clearFailed]

theorem mem_reconsiderBlock (hchecked : s.Checked a) :
    a ∈ (s.reconsiderBlock b).candidates ↔ a ∈ s.candidates ∨
      (m.tree.Below b a ∧ (s.entry a).failed ∧ (s.entry a).nChainTx ≠ 0 ∧ s.worse s.tip a) := by
  change a ∈ s.candidates ∪ _ ↔ _
  rw [Finset.mem_union, Finset.mem_filter, reconsidered_iff ha]
  refine or_congr_right ⟨?_, ?_⟩
  · rintro ⟨-, ⟨hinvalid, hba⟩, -, hlinked, hworse⟩
    have hlevel := hchecked.level_of_linked hlinked
    simp [isValid, hlevel] at hinvalid
    exact ⟨hba, hinvalid, hlinked, hworse⟩
  · rintro ⟨hba, hfailed, hlinked, hworse⟩
    have hlevel := hchecked.level_of_linked hlinked
    refine ⟨ha, ⟨?_, hba⟩, ?_, hlinked, hworse⟩
    · simp [isValid, hfailed]
    · exact decide_eq_true hlevel

end

variable (s)

/-- After `ReconsiderBlock` nothing below `x` is marked invalid. -/
def Freed (b x : ι) : Prop :=
  ∀ a, m.tree.Below a x → (s.entry a).failedValid → related m b a

/-- `ReconsiderBlock` puts `x` back among the candidates, if it is no worse than the tip. -/
def Returns (b x : ι) : Prop :=
  m.tree.Below b x ∧ (s.entry x).failed ∧ x ≠ s.tip

/-- A block loses its mark, is a candidate where it should be one, and waits where
it should wait. -/
def Recovers (b x : ι) : Prop :=
  ((s.entry x).failed → related m b x) ∧
  ((s.entry x).nChainTx ≠ 0 → ¬s.worse x s.tip →
    s.firstMissing x = none ∨ x = s.tip → x ∈ s.candidates ∨ s.Returns b x) ∧
  (m.pprev x ≠ none → (s.entry x).haveData →
    (s.entry x).nChainTx = 0 ∨ s.firstMissing x ≠ none ∧ ¬s.worse x s.tip ∧
      x ∉ s.candidates ∧ ¬s.Returns b x → s.foundInUnlinked x)

def Recoverable (b : ι) : Prop :=
  ∀ x ∈ s.known, s.Freed b x → s.Recovers b x

variable {s}

section
variable (hs : s.WellFormed)
include hs

theorem WellFormed.reconsiderBlock : (s.reconsiderBlock b).WellFormed where
  genesis_known := hs.genesis_known
  pprev_known := hs.pprev_known
  tip_known := hs.tip_known
  candidates_known :=
    Finset.union_subset hs.candidates_known (Finset.filter_subset _ _)

theorem reconsiderBlock_firstInvalid (hx : x ∈ s.known) :
    (s.reconsiderBlock b).firstInvalid x = none ↔ s.Freed b x := by
  rw [firstInvalid, firstOn_eq_none]
  refine forall_congr' fun a => forall_congr' fun hax => ?_
  rw [reconsiderBlock_failedValid (hs.known_of_below hax hx), not_and', not_not]

omit hs in
theorem mem_reconsiderBlock_of_good (hx : x ∈ s.known) (hchecked : s.Checked x)
    (hlinked : (s.entry x).nChainTx ≠ 0) (hgood : ¬s.worse x s.tip) :
    x ∈ (s.reconsiderBlock b).candidates ↔ x ∈ s.candidates ∨ s.Returns b x := by
  rw [mem_reconsiderBlock hx hchecked]
  refine or_congr_right ⟨?_, ?_⟩
  · rintro ⟨hbx, hfailed, -, hworse⟩
    refine ⟨hbx, hfailed, ?_⟩
    rintro rfl
    exact worse_irrefl hworse
  · rintro ⟨hbx, hfailed, hne⟩
    exact ⟨hbx, hfailed, hlinked, worse_of_not_worse hgood hne⟩

theorem reconsiderBlock_settled (hcheck : s.CheckBlockIndex)
    (hrecover : s.Recoverable b) (hx : x ∈ s.known) : (s.reconsiderBlock b).Settled x := by
  have hchecked := hcheck x hx
  have hflags : FlagsOnly s (s.reconsiderBlock b) := reconsiderBlock_flagsOnly
  have hfreed := fun hvalid =>
    hrecover x hx ((reconsiderBlock_firstInvalid hs hx).mp hvalid)
  refine
    { notFailed := fun hvalid hfailed => ?_
      candidate := fun hvalid hlinked hgood hdata => ?_
      of_candidate := fun hmem => ?_
      waiting := fun hvalid hp hdata hzero => ?_
      missing := fun hvalid hp hdata hlinked hmissing hgood hmem => ?_ }
  · obtain ⟨hnot, hfailed⟩ := (reconsiderBlock_failed hx).mp hfailed
    exact hnot ((hfreed hvalid).1 hfailed)
  · rw [hflags.nChainTx] at hlinked
    rw [hflags.worse] at hgood
    rw [hflags.firstMissing] at hdata
    rw [mem_reconsiderBlock_of_good hx hchecked hlinked hgood]
    exact (hfreed hvalid).2.1 hlinked hgood hdata
  · rw [hflags.nChainTx, hflags.worse]
    rcases (mem_reconsiderBlock hx hchecked).mp hmem with hmem | ⟨-, -, hlinked, hworse⟩
    · exact hchecked.settled.of_candidate hmem
    · exact ⟨hlinked, not_worse_of_worse hworse⟩
  · rw [hflags.haveData] at hdata
    rw [hflags.nChainTx] at hzero
    exact (hfreed hvalid).2.2 hp hdata (.inl hzero)
  · rw [hflags.haveData] at hdata
    rw [hflags.nChainTx] at hlinked
    rw [hflags.worse] at hgood
    rw [hflags.firstMissing] at hmissing
    rw [mem_reconsiderBlock_of_good hx hchecked hlinked hgood, not_or] at hmem
    exact (hfreed hvalid).2.2 hp hdata (.inr ⟨hmissing, hgood, hmem⟩)

theorem checkBlockIndex_reconsiderBlock (hcheck : s.CheckBlockIndex) :
    (s.reconsiderBlock b).CheckBlockIndex ↔ s.Recoverable b := by
  constructor
  · intro hafter x hx hfree
    have hflags : FlagsOnly s (s.reconsiderBlock b) := reconsiderBlock_flagsOnly
    have hsettled := (hafter x hx).settled
    have hvalid := (reconsiderBlock_firstInvalid hs hx).mpr hfree
    refine ⟨fun hfailed => ?_, fun hlinked hgood hdata => ?_, fun hp hdata hcase => ?_⟩
    · by_contra hnot
      exact hsettled.notFailed hvalid ((reconsiderBlock_failed hx).mpr ⟨hnot, hfailed⟩)
    · rw [← mem_reconsiderBlock_of_good hx (hcheck x hx) hlinked hgood]
      rw [← hflags.nChainTx] at hlinked
      rw [← hflags.worse] at hgood
      rw [← hflags.firstMissing] at hdata
      exact hsettled.candidate hvalid hlinked hgood hdata
    · rw [← hflags.haveData] at hdata
      by_cases hlinked : (s.entry x).nChainTx = 0
      · rw [← hflags.nChainTx] at hlinked
        exact hsettled.waiting hvalid hp hdata hlinked
      · obtain ⟨hmissing, hgood, hmem⟩ := hcase.resolve_left hlinked
        rw [← not_or, ← mem_reconsiderBlock_of_good hx (hcheck x hx) hlinked hgood] at hmem
        rw [← hflags.nChainTx] at hlinked
        rw [← hflags.worse] at hgood
        rw [← hflags.firstMissing] at hmissing
        exact hsettled.missing hvalid hp hdata hlinked hmissing hgood hmem
  · intro hrecover x hx
    exact reconsiderBlock_flagsOnly.checked rfl (hcheck x hx)
      (fun hp => ((hcheck x hx).root hp).2) (reconsiderBlock_settled hs hcheck hrecover hx)

end

/-! ## Undoing an invalidation -/

def Unmarked (s : BlockIndex m) (b : ι) : Prop :=
  ∀ a ∈ s.known, related m b a → ¬(s.entry a).failed

/-- No block that could become the tip is missing among the candidates. -/
def Complete (s : BlockIndex m) : Prop :=
  ∀ c ∈ s.known, (s.entry c).nChainTx ≠ 0 → s.Usable c → ¬s.worse c s.tip → c ∈ s.candidates

theorem Consistent.complete (hs : s.Consistent s.tip) : s.Complete := by
  intro c _ hlinked husable hgood
  by_cases hactive : s.active c
  · have heq : c = s.tip := by
      by_contra hne
      exact hgood (worse_of_below hactive hne)
    exact heq ▸ hs.candidates.best_mem
  have hvalid : ∀ a, m.tree.Below a c → ¬(s.entry a).failedValid := by
    intro a hac hfailed
    have hmark : (s.entry a).failed := by simp [failed, hfailed]
    by_cases ha : s.active a
    · exact hs.chain.not_failed ha hmark
    · exact (husable a hac ha).1 hmark
  exact hs.mem_candidates hlinked hvalid hgood
    (husable c (BlockTree.below_refl c) hactive).2 fun a hac hna => (husable a hac hna).2

section
variable (hs : s.WellFormed) (hs' : s.Leaving b s') (hleft : ¬s'.active b)
include hs'

omit [LinearOrder ι] in
theorem Leaving.below_of_marked (hmark : (s'.entry a).failed)
    (hnot : ¬(s.entry a).failed) : m.tree.Below b a := by
  rcases (hs'.failed a).mp hmark with hfailed | rfl | ⟨ha, hna⟩
  · exact absurd hfailed hnot
  · exact BlockTree.below_refl _
  · exact (hs'.left a ha hna).1

include hleft

theorem Leaving.mem_undone (hchecked : s.Checked c)
    (hchecked' : s'.restoreCandidates.Checked c) (hknown : c ∈ s.known)
    (hc : c ∈ s.candidates) : c ∈ (s'.restoreCandidates.reconsiderBlock b).candidates := by
  have hknown' : c ∈ s'.restoreCandidates.known := hs'.flags.known ▸ hknown
  rw [mem_reconsiderBlock hknown' hchecked']
  by_cases hkept : c ∈ s'.candidates
  · exact .inl (mem_restoreCandidates.mpr (.inl hkept))
  have hdropped : c = b ∨ (s.active c ∧ ¬s'.active c) := by
    rw [hs'.candidates, not_and, not_and, Classical.not_imp] at hkept
    by_cases heq : c = b
    · exact .inl heq
    · exact .inr (hkept hc heq)
  obtain ⟨hlinked, hgood⟩ := hchecked.settled.of_candidate hc
  have hbelow : m.tree.Below b c := by
    rcases hdropped with rfl | ⟨ha, hna⟩
    · exact BlockTree.below_refl _
    · exact (hs'.left c ha hna).1
  have hne : c ≠ s'.tip := by
    rintro rfl
    exact hleft hbelow
  refine .inr ⟨hbelow, (hs'.failed c).mpr (.inr hdropped), ?_, ?_⟩
  · change (s'.entry c).nChainTx ≠ 0
    rw [hs'.flags.nChainTx]
    exact hlinked
  · change s'.worse s'.tip c
    rw [hs'.flags.worse]
    exact worse_of_not_worse (not_worse_trans hgood (not_worse_of_below hs'.down)) hne

omit hleft

include hs

theorem Leaving.usable_undone (hknown : c ∈ s.known) (hc : s.Usable c) :
    (s'.restoreCandidates.reconsiderBlock b).Usable c := by
  intro a hac hna
  have ha : a ∈ s'.restoreCandidates.known :=
    hs'.flags.known ▸ hs.known_of_below hac hknown
  rw [reconsiderBlock_failed ha, reconsiderBlock_flagsOnly.haveData]
  change ¬(_ ∧ (s'.entry a).failed) ∧ (s'.entry a).haveData
  rw [hs'.flags.haveData]
  by_cases hactive : s.active a
  · obtain ⟨hba, hdata⟩ := hs'.left a hactive hna
    exact ⟨fun h => h.1 (.inr hba), hdata⟩
  · obtain ⟨hfailed, hdata⟩ := hc a hac hactive
    exact ⟨fun h => h.1 (.inr (hs'.below_of_marked h.2 hfailed)), hdata⟩

theorem Leaving.usable_of_undone (hclean : s.Unmarked b) (hknown : c ∈ s.known)
    (hc : (s'.restoreCandidates.reconsiderBlock b).Usable c) : s.Usable c := by
  intro a hac hna
  have hka := hs.known_of_below hac hknown
  have ha : a ∈ s'.restoreCandidates.known := hs'.flags.known ▸ hka
  obtain ⟨hfailed, hdata⟩ := hc a hac fun hactive => hna (hs'.active_of_active hactive)
  rw [reconsiderBlock_failed ha] at hfailed
  rw [reconsiderBlock_flagsOnly.haveData] at hdata
  refine ⟨fun hmark => ?_, hs'.flags.haveData a ▸ hdata⟩
  exact hfailed ⟨fun hrelated => hclean a hka hrelated hmark, (hs'.failed a).mpr (.inl hmark)⟩

include hleft

theorem Leaving.recoverable (hcheck : s.CheckBlockIndex) (hclean : s.Unmarked b) :
    s'.restoreCandidates.Recoverable b := by
  intro x hx hfree
  have hknown : x ∈ s.known := hs'.flags.known ▸ hx
  have hvalid : s.firstInvalid x = none := by
    refine firstOn_eq_none.mpr fun a hax ha => ?_
    have hmark : (s.entry a).failed := by simp [IndexEntry.failed, ha]
    exact hclean a (hs.known_of_below hax hknown)
      (hfree a hax ((hs'.failedValid a).mpr (.inr ha))) hmark
  have hnot := (hcheck x hknown).notFailed hvalid
  have hgood : (s'.restoreCandidates.entry x).nChainTx ≠ 0 → ¬s'.restoreCandidates.worse x s'.tip →
    x ∈ s'.restoreCandidates.candidates ∨ s'.restoreCandidates.Returns b x := by
    intro hlinked hgood
    by_cases hmark : (s'.entry x).failed
    · refine .inr ⟨hs'.below_of_marked hmark hnot, hmark, ?_⟩
      rintro rfl
      exact hleft (hs'.below_of_marked hmark hnot)
    · change (s'.entry x).nChainTx ≠ 0 at hlinked
      change ¬s'.worse x s'.tip at hgood
      rw [hs'.flags.nChainTx] at hlinked
      rw [hs'.flags.worse] at hgood
      exact .inl (hs'.mem_candidates (hcheck x hknown) hknown hmark hlinked hgood)
  refine ⟨fun hmark => .inr (hs'.below_of_marked hmark hnot),
    fun hlinked hnotWorse _ => hgood hlinked hnotWorse, fun hp hdata hcase => ?_⟩
  have hfound : s'.restoreCandidates.foundInUnlinked x ↔ s.foundInUnlinked x :=
    foundInUnlinked_congr hs'.unlinked
  change (s'.entry x).haveData at hdata
  rw [hs'.flags.haveData] at hdata
  by_cases hlinked : (s'.entry x).nChainTx = 0
  · rw [hs'.flags.nChainTx] at hlinked
    exact hfound.mpr ((hcheck x hknown).settled.waiting hvalid hp hdata hlinked)
  · obtain ⟨-, hnotWorse, hmem, hreturns⟩ := hcase.resolve_left hlinked
    exact ((hgood hlinked hnotWorse).elim hmem hreturns).elim

omit hleft

theorem Leaving.isMostWork_undone {best : ι} (hcheck : s.CheckBlockIndex)
    (hafter : (s'.restoreCandidates.reconsiderBlock b).CheckBlockIndex)
    (hmem : ∀ c ∈ s.candidates, c ∈ (s'.restoreCandidates.reconsiderBlock b).candidates)
    (hclean : s.Unmarked b) (hcomplete : s.Complete) (hbest : s.IsMostWork (some best)) :
    (s'.restoreCandidates.reconsiderBlock b).IsMostWork (some best) := by
  have hflags : FlagsOnly s (s'.restoreCandidates.reconsiderBlock b) :=
    hs'.restored_flagsOnly.trans reconsiderBlock_flagsOnly
  obtain ⟨hcand, husable, hmax⟩ := hbest
  have hknown := hs.candidates_known hcand
  refine ⟨hmem best hcand, hs'.usable_undone hs hknown husable, fun c hc husable' => ?_⟩
  rw [hflags.worse]
  intro hworse
  have hkc : c ∈ s.known := by
    rw [← hflags.known]
    exact ((hs'.wellFormed hs).reconsiderBlock).candidates_known hc
  have hlinked := ((hafter c (hflags.known ▸ hkc)).settled.of_candidate hc).1
  rw [hflags.nChainTx] at hlinked
  have hgood := ((hcheck best hknown).settled.of_candidate hcand).2
  have husable := hs'.usable_of_undone hs hclean hkc husable'
  refine hmax c ?_ husable hworse
  exact hcomplete c hkc hlinked husable (not_worse_trans (not_worse_of_worse hworse) hgood)

end

def undone (s : BlockIndex m) (b : ι) : BlockIndex m :=
  (s.invalidateBlock b).1.reconsiderBlock b

section
variable (hcheck : s.CheckBlockIndex)
include hcheck

theorem CheckBlockIndex.findMostWorkChain_eq (hs : s.WellFormed) {r : Option ι} :
    s.findMostWorkChain.map fst = some r ↔ s.IsMostWork r := by
  obtain ⟨r', s', hfind, -, hmost, -⟩ := findMostWorkChain_spec (P := fun _ => True)
    (fun _ _ _ => trivial) trivial (hcheck.candidatesLinked hs)
  rw [hfind, Option.map_some, Option.some_inj]
  constructor
  · rintro rfl
    exact hmost
  · exact fun hr => hmost.unique hr

theorem CheckBlockIndex.mem_undone (hs : s.WellFormed)
    (hcan : s.CanDisconnect b) (hc : c ∈ s.candidates) : c ∈ (s.undone b).candidates := by
  obtain ⟨s', heq, hs', hleft⟩ := invalidateBlock_spec hcan
  obtain ⟨-, hcheck'⟩ := hcheck.invalidateBlock hs hcan
  have hknown := hs.candidates_known hc
  rw [undone, heq]
  rw [heq] at hcheck'
  exact hs'.mem_undone hleft (hcheck c hknown) (hcheck' c (hs'.flags.known ▸ hknown)) hknown hc

omit hcheck in
theorem WellFormed.usable_undone (hs : s.WellFormed) (hcan : s.CanDisconnect b)
    (hknown : c ∈ s.known) (hc : s.Usable c) : (s.undone b).Usable c := by
  obtain ⟨s', heq, hs', -⟩ := invalidateBlock_spec hcan
  rw [undone, heq]
  exact hs'.usable_undone hs hknown hc

theorem CheckBlockIndex.undone (hs : s.WellFormed) (hcan : s.CanDisconnect b)
    (hclean : s.Unmarked b) : (s.undone b).WellFormed ∧ (s.undone b).CheckBlockIndex := by
  obtain ⟨s', heq, hs', hleft⟩ := invalidateBlock_spec hcan
  obtain ⟨hwf, hcheck'⟩ := hcheck.invalidateBlock hs hcan
  refine ⟨hwf.reconsiderBlock, (checkBlockIndex_reconsiderBlock hwf hcheck').mpr ?_⟩
  rw [heq]
  exact hs'.recoverable hs hleft hcheck hclean

theorem CheckBlockIndex.isMostWork_undone {best : ι} (hs : s.WellFormed) (hcan : s.CanDisconnect b)
    (hclean : s.Unmarked b) (hcomplete : s.Complete) (hbest : s.IsMostWork (some best)) :
    (s.undone b).IsMostWork (some best) := by
  obtain ⟨s', heq, hs', -⟩ := invalidateBlock_spec hcan
  have hafter := (hcheck.undone hs hcan hclean).2
  have hmem := fun c (hc : c ∈ s.candidates) => hcheck.mem_undone hs hcan hc
  rw [BlockIndex.undone, heq] at hafter hmem ⊢
  exact hs'.isMostWork_undone hs hcheck hafter hmem hclean hcomplete hbest

end

/-! ## Runs of both -/

inductive ManualOp (ι : Type) where
  | invalidateBlock (b : ι)
  | reconsiderBlock (b : ι)

def manualStep (s : BlockIndex m) : ManualOp ι → Option (BlockIndex m)
  | .invalidateBlock b => some (s.invalidateBlock b).1
  | .reconsiderBlock b => some (s.reconsiderBlock b)

def Manageable (s : BlockIndex m) : ManualOp ι → Prop
  | .invalidateBlock b => s.CanDisconnect b
  | .reconsiderBlock b => s.Recoverable b

theorem manualStep_keeps {op : ManualOp ι} (hs : s.WellFormed ∧ s.CheckBlockIndex)
    (hop : s.Manageable op) :
    ∃ s', s.manualStep op = some s' ∧ s'.WellFormed ∧ s'.CheckBlockIndex := by
  cases op with
  | invalidateBlock b => exact ⟨_, rfl, hs.2.invalidateBlock hs.1 hop⟩
  | reconsiderBlock b =>
    exact ⟨_, rfl, hs.1.reconsiderBlock, (checkBlockIndex_reconsiderBlock hs.1 hs.2).mpr hop⟩

/-- The assertions hold along a run whose operations are manageable, and
`ReconsiderBlock` undoes `InvalidateBlock` of the same block. -/
theorem checkBlockIndex_of_manual (hs : s.WellFormed) (hcheck : s.CheckBlockIndex) :
    (∀ ops, Throughout manualStep Manageable s ops →
      ∃ s', run manualStep s ops = some s' ∧ s'.CheckBlockIndex) ∧
    ∀ b, s.CanDisconnect b → (∀ c ∈ s.candidates, s.Usable c →
        c ∈ (s.undone b).candidates ∧ (s.undone b).Usable c) ∧
      (s.Unmarked b → (s.undone b).CheckBlockIndex ∧
        (s.Complete → ∀ best, s.findMostWorkChain.map fst = some (some best) →
          (s.undone b).findMostWorkChain.map fst = some (some best))) := by
  refine ⟨fun ops hops => ?_, fun b hcan => ⟨fun c hc husable => ?_, fun hclean => ?_⟩⟩
  · obtain ⟨s', hrun, -, hcheck'⟩ := exists_run manualStep_keeps ⟨hs, hcheck⟩ hops
    exact ⟨s', hrun, hcheck'⟩
  · exact ⟨hcheck.mem_undone hs hcan hc, hs.usable_undone hcan (hs.candidates_known hc) husable⟩
  · obtain ⟨hwf, hafter⟩ := hcheck.undone hs hcan hclean
    refine ⟨hafter, fun hcomplete best hbest => ?_⟩
    rw [hafter.findMostWorkChain_eq hwf]
    rw [hcheck.findMostWorkChain_eq hs] at hbest
    exact hcheck.isMostWork_undone hs hcan hclean hcomplete hbest

section
variable [Fintype ι]

instance (s : BlockIndex m) : DecidablePred s.foundInUnlinked := fun b =>
  inferInstanceAs (Decidable (∃ p, m.pprev b = some p ∧ (p, b) ∈ s.unlinked))

instance (s : BlockIndex m) (b : ι) : Decidable (s.CanDisconnect b) :=
  inferInstanceAs (Decidable (∀ a, s.active a → m.tree.Below b a →
    (s.entry a).haveData ∧ (s.entry a).haveUndo ∧ m.pprev a ≠ none))

instance (s : BlockIndex m) (b x : ι) : Decidable (s.Freed b x) :=
  inferInstanceAs (Decidable (∀ a, m.tree.Below a x → (s.entry a).failedValid → related m b a))

instance (s : BlockIndex m) (b x : ι) : Decidable (s.Returns b x) :=
  inferInstanceAs (Decidable (m.tree.Below b x ∧ (s.entry x).failed ∧ x ≠ s.tip))

instance (s : BlockIndex m) (b x : ι) : Decidable (s.Recovers b x) :=
  have : Decidable ((s.entry x).nChainTx ≠ 0 → ¬s.worse x s.tip →
    s.firstMissing x = none ∨ x = s.tip → x ∈ s.candidates ∨ s.Returns b x) :=
      inferInstance
  have : Decidable (m.pprev x ≠ none → (s.entry x).haveData →
    (s.entry x).nChainTx = 0 ∨ s.firstMissing x ≠ none ∧ ¬s.worse x s.tip ∧
      x ∉ s.candidates ∧ ¬s.Returns b x → s.foundInUnlinked x) := inferInstance
  instDecidableAnd

instance (s : BlockIndex m) (b : ι) : Decidable (s.Recoverable b) :=
  inferInstanceAs (Decidable (∀ x ∈ s.known, s.Freed b x → s.Recovers b x))

instance : ∀ (s : BlockIndex m) op, Decidable (s.Manageable op)
  | s, .invalidateBlock b => inferInstanceAs (Decidable (s.CanDisconnect b))
  | s, .reconsiderBlock b => inferInstanceAs (Decidable (s.Recoverable b))

instance (s : BlockIndex m) (b : ι) : Decidable (s.Unmarked b) :=
  inferInstanceAs (Decidable (∀ a ∈ s.known, related m b a → ¬(s.entry a).failed))

end

def branchHeaders : BlockHeaders (Fin 4) where
  pprev := ![none, some 0, some 1, some 1]
  pskip := ![none, some 0, some 0, some 0]
  nHeight := ![0, 1, 2, 2]
  nVersion := fun _ => 1
  nTime := ![0, 600, 700, 700]
  nBits := fun _ => 0x207fffff
  nHeight_root := by decide
  nHeight_child := by decide
  pskip_built := by decide
  genesis := 0
  pprev_genesis := rfl
  nChainWork := ![2, 4, 6, 6]
  nChainWork_child := by decide

def firstTwo (results : Fin 4 → ConnectResult) : List (IndexOp (Fin 4)) :=
  [.addToBlockIndex 1, .receivedBlockTransactions 1 1 1, .activate fun _ => .ok,
    .addToBlockIndex 2, .receivedBlockTransactions 2 1 1, .activate results]

def secondInvalid : BlockIndex branchHeaders :=
  indexAfter branchHeaders (firstTwo fun b => if b = 2 then .invalid false else .ok)

/-- The mark of the second block, which is older than the invalidation, is cleared
with it, so its chain is found instead of the original one. -/
theorem findMostWorkChain_undone_marked :
    secondInvalid.Consistent secondInvalid.tip ∧ secondInvalid.CheckBlockIndex ∧
      (secondInvalid.invalidateBlock 1).2 ∧
      secondInvalid.findMostWorkChain.map fst = some (some 1) ∧
      (secondInvalid.undone 1).findMostWorkChain.map fst = some (some 2) := by
  have hs : secondInvalid.Consistent secondInvalid.tip :=
    indexAfter_consistent (by decide +kernel) (by decide +kernel)
  exact ⟨hs, hs.checkBlockIndex, by decide +kernel, by decide +kernel, by decide +kernel⟩

def thirdBeside : BlockIndex branchHeaders :=
  indexAfter branchHeaders ((firstTwo fun _ => .ok) ++
    [.addToBlockIndex 3, .receivedBlockTransactions 3 1 1])

theorem thirdBeside_consistent : thirdBeside.Consistent thirdBeside.tip :=
  indexAfter_consistent (by decide +kernel) (by decide +kernel)

theorem checkBlockIndex_reconsiderBeside : thirdBeside.CheckBlockIndex ∧
    ¬((thirdBeside.invalidateBlock 1).1.reconsiderBlock 3).CheckBlockIndex := by
  refine ⟨thirdBeside_consistent.checkBlockIndex, fun hcheck => ?_⟩
  refine (hcheck 2 (by decide +kernel)).notFailed ?_ ?_
  · decide +kernel
  · decide +kernel

theorem checkBlockIndex_of_manual_branch :
    (∃ s', run manualStep thirdBeside [.invalidateBlock 3, .invalidateBlock 1,
        .reconsiderBlock 1, .invalidateBlock 2] = some s' ∧ s'.CheckBlockIndex) ∧
      (thirdBeside.undone 1).findMostWorkChain.map fst = some (some 2) := by
  have hs := thirdBeside_consistent
  obtain ⟨hruns, hundo⟩ := checkBlockIndex_of_manual hs.wellFormed hs.checkBlockIndex
  refine ⟨hruns _ (by decide +kernel), ?_⟩
  obtain ⟨-, hmost⟩ := hundo 1 (by decide +kernel)
  exact (hmost (by decide +kernel)).2 hs.complete 2 (by decide +kernel)

end BlockIndex
end ImageCoin
