import ImageCoin.ActivationSteps

/-!
# `InvalidateBlock`

`InvalidateBlock` marks a block and leaves the active chain below it.
-/

namespace ImageCoin

open BlockTree

namespace BlockIndex

variable {ι : Type} [LinearOrder ι] {m : BlockHeaders ι} {s s' : BlockIndex m} {a b p x : ι}

/-- The assertions of a block that depend on marks and on the tip. -/
structure Settled (s : BlockIndex m) (b : ι) : Prop where
  notFailed : s.firstInvalid b = none → ¬(s.entry b).failed
  candidate : s.firstInvalid b = none → (s.entry b).nChainTx ≠ 0 → ¬s.worse b s.tip →
    s.firstMissing b = none ∨ b = s.tip → b ∈ s.candidates
  of_candidate : b ∈ s.candidates → (s.entry b).nChainTx ≠ 0 ∧ ¬s.worse b s.tip
  waiting : s.firstInvalid b = none → m.pprev b ≠ none → (s.entry b).haveData →
    (s.entry b).nChainTx = 0 → s.foundInUnlinked b
  missing : s.firstInvalid b = none → m.pprev b ≠ none → (s.entry b).haveData →
    (s.entry b).nChainTx ≠ 0 → s.firstMissing b ≠ none → ¬s.worse b s.tip →
    b ∉ s.candidates → s.foundInUnlinked b

namespace Checked

theorem processed (hb : s.Checked b) :
    s.firstNeverProcessed b = none ↔ (s.entry b).nChainTx ≠ 0 := by
  rw [ne_eq, ← hb.neverProcessed, not_not]

theorem settled (hb : s.Checked b) : s.Settled b where
  notFailed := hb.notFailed
  candidate := fun hvalid hlinked hgood hdata =>
    hb.candidate hgood (hb.processed.mpr hlinked) hvalid hdata
  of_candidate := by
    intro hmem
    have hgood : ¬(s.worse b s.tip ∨ s.firstNeverProcessed b ≠ none) :=
      fun hbad => hb.not_candidate hbad hmem
    rw [not_or, not_not, hb.processed] at hgood
    exact ⟨hgood.2, hgood.1⟩
  waiting := fun hvalid hp hdata hzero =>
    hb.unlinked_of_neverProcessed hp hdata (hb.neverProcessed.mpr hzero) hvalid
  missing := fun hvalid hp hdata hlinked hmissing hgood hmem =>
    (hb.unlinked_of_missing hp hdata (hb.processed.mpr hlinked) hmissing).2 hgood hmem hvalid

theorem level_of_linked (hb : s.Checked b) (hlinked : (s.entry b).nChainTx ≠ 0) :
    blockValidTransactions ≤ (s.entry b).validity := by
  have hnTx := firstOn_eq_none.mp (hb.processed.mpr hlinked) b (below_refl b)
  rw [beq_iff_eq] at hnTx
  exact hb.transactions.mpr (Nat.pos_of_ne_zero hnTx)

end Checked

omit [LinearOrder ι] in
theorem foundInUnlinked_congr (hunlinked : s'.unlinked = s.unlinked) :
    s'.foundInUnlinked b ↔ s.foundInUnlinked b := by
  rw [foundInUnlinked, hunlinked, foundInUnlinked]

namespace FlagsOnly

variable (h : FlagsOnly s s')
include h

section

omit [LinearOrder ι]

theorem firstMissing : s'.firstMissing = s.firstMissing := by
  simp [BlockIndex.firstMissing, h.haveData]

theorem firstNeverProcessed : s'.firstNeverProcessed = s.firstNeverProcessed := by
  simp [BlockIndex.firstNeverProcessed, h.nTx]

theorem firstNotValid {level : ℕ} : s'.firstNotValid level = s.firstNotValid level := by
  simp [BlockIndex.firstNotValid, h.validity]

end

theorem checked (hunlinked : s'.unlinked = s.unlinked) (hb : s.Checked b)
    (hroot : m.pprev b = none → s'.active b) (hsettled : s'.Settled b) : s'.Checked b where
  root := fun hp => ⟨(hb.root hp).1, hroot hp⟩
  nSequenceId := by
    rw [h.nChainTx, h.nSequenceId]
    exact hb.nSequenceId
  unpruned := by
    rw [h.fHavePruned, h.haveData, h.nTx, h.firstMissing, h.firstNeverProcessed]
    exact hb.unpruned
  pruned := by
    rw [h.fHavePruned, h.haveData, h.nTx]
    exact hb.pruned
  haveUndo := by
    rw [h.haveUndo, h.haveData]
    exact hb.haveUndo
  transactions := by
    rw [h.validity, h.nTx]
    exact hb.transactions
  neverProcessed := by
    rw [h.firstNeverProcessed, h.nChainTx]
    exact hb.neverProcessed
  notTransactionsValid := by
    rw [h.firstNotValid, h.nChainTx]
    exact hb.notTransactionsValid
  nHeight := hb.nHeight
  nChainWork := hb.nChainWork
  pskip := hb.pskip
  treeValid := by
    rw [h.firstNotValid]
    exact hb.treeValid
  chainValid := by
    rw [h.firstNotValid, h.validity]
    exact hb.chainValid
  scriptsValid := by
    rw [h.firstNotValid, h.validity]
    exact hb.scriptsValid
  notFailed := hsettled.notFailed
  candidate := by
    intro hgood hprocessed hvalid hdata
    rw [h.firstNeverProcessed, hb.processed, ← h.nChainTx] at hprocessed
    exact hsettled.candidate hvalid hprocessed hgood hdata
  not_candidate := by
    intro hbad hmem
    obtain ⟨hlinked, hgood⟩ := hsettled.of_candidate hmem
    rw [h.nChainTx, ← hb.processed, ← h.firstNeverProcessed] at hlinked
    exact hbad.elim hgood fun hnever => hnever hlinked
  unlinked_of_neverProcessed := by
    intro hp hdata hnever hvalid
    rw [h.firstNeverProcessed, hb.neverProcessed, ← h.nChainTx] at hnever
    exact hsettled.waiting hvalid hp hdata hnever
  data_of_unlinked := by
    rw [h.haveData, foundInUnlinked_congr hunlinked]
    exact hb.data_of_unlinked
  missing_of_unlinked := by
    rw [h.firstMissing, foundInUnlinked_congr hunlinked]
    exact hb.missing_of_unlinked
  unlinked_of_missing := by
    intro hp hdata hprocessed hmissing
    have hlinked := hprocessed
    rw [h.firstNeverProcessed, hb.processed, ← h.nChainTx] at hlinked
    refine ⟨?_, fun hgood hmem hvalid =>
      hsettled.missing hvalid hp hdata hlinked hmissing hgood hmem⟩
    rw [h.haveData] at hdata
    rw [h.firstNeverProcessed] at hprocessed
    rw [h.firstMissing] at hmissing
    rw [h.fHavePruned]
    exact (hb.unlinked_of_missing hp hdata hprocessed hmissing).1

end FlagsOnly

/-- The active blocks from `b` on have what `DisconnectBlock` reads. -/
def CanDisconnect (s : BlockIndex m) (b : ι) : Prop :=
  ∀ a, s.active a → m.tree.Below b a →
    (s.entry a).haveData ∧ (s.entry a).haveUndo ∧ m.pprev a ≠ none

/-- A state that `InvalidateBlock` reaches before it restores the candidates. -/
structure Leaving (s : BlockIndex m) (b : ι) (s' : BlockIndex m) : Prop where
  flags : FlagsOnly s s'
  unlinked : s'.unlinked = s.unlinked
  down : m.tree.Below s'.tip s.tip
  failedValid : ∀ a, (s'.entry a).failedValid ↔ a = b ∨ (s.entry a).failedValid
  failed : ∀ a, (s'.entry a).failed ↔ (s.entry a).failed ∨ a = b ∨ (s.active a ∧ ¬s'.active a)
  candidates : ∀ a, a ∈ s'.candidates ↔ a ∈ s.candidates ∧ a ≠ b ∧ (s.active a → s'.active a)
  left : ∀ a, s.active a → ¬s'.active a → m.tree.Below b a ∧ (s.entry a).haveData

theorem Leaving.invalidBlockFound : s.Leaving b (s.invalidBlockFound b) where
  flags := invalidBlockFound_flagsOnly
  unlinked := rfl
  down := below_refl _
  failedValid := fun a => invalidBlockFound_failedValid
  failed := by
    intro a
    have hsame : ¬(s.active a ∧ ¬(s.invalidBlockFound b).active a) := fun h => h.2 h.1
    rw [invalidBlockFound_failed, or_iff_left hsame, or_comm]
  candidates := by
    intro a
    change a ∈ s.candidates.erase b ↔ _
    rw [Finset.mem_erase, and_comm, and_congr_right_iff]
    exact fun _ => (and_iff_left (fun h => h)).symm
  left := fun a ha hna => absurd ha hna

theorem markTip_entry : s.markTip.entry a =
    if a = s.tip then { s.entry s.tip with failedChild := true } else s.entry a :=
  Function.update_apply _ _ _ _

theorem markTip_flagsOnly : FlagsOnly s s.markTip where
  known := rfl
  fHavePruned := rfl
  entry := by
    intro a
    rw [markTip_entry]
    split_ifs with heq
    · rw [heq]
      rfl
    · rfl

theorem markTip_failedValid : (s.markTip.entry a).failedValid = (s.entry a).failedValid := by
  rw [markTip_entry]
  split_ifs with heq <;> simp [heq]

theorem markTip_failed : (s.markTip.entry a).failed ↔ a = s.tip ∨ (s.entry a).failed := by
  rw [markTip_entry]
  split_ifs with heq <;> simp [heq, IndexEntry.failed]

theorem Leaving.disconnect (hs' : s.Leaving b s') (hb : s'.active b)
    (hp : m.pprev s'.tip = some p) (hdata : (s.entry s'.tip).haveData) :
    s.Leaving b { s'.markTip with tip := p } := by
  have hactive : ∀ a, ({ s'.markTip with tip := p } : BlockIndex m).active a ↔
      s'.active a ∧ a ≠ s'.tip := by
    intro a
    rw [active, active, below_iff (t := m.tree) hp]
    constructor
    · intro hap
      refine ⟨Or.inr hap, ?_⟩
      rintro rfl
      exact not_below_parent hp hap
    · exact fun ha => ha.1.resolve_left ha.2
  have hself : s.active s'.tip := hs'.down
  exact
    { flags := ⟨hs'.flags.known, hs'.flags.fHavePruned,
        (hs'.flags.trans markTip_flagsOnly).entry⟩
      unlinked := hs'.unlinked
      down := (below_parent hp).trans hs'.down
      failedValid := by
        intro a
        rw [markTip_failedValid, hs'.failedValid]
      failed := by
        intro a
        rw [markTip_failed, hs'.failed, hactive]
        by_cases heq : a = s'.tip
        · simp [heq, hself]
        · simp [heq]
      candidates := by
        intro a
        change a ∈ s'.candidates.erase s'.tip ↔ _
        rw [Finset.mem_erase, hs'.candidates, hactive]
        by_cases heq : a = s'.tip
        · simp [heq, hself]
        · simp [heq]
      left := by
        intro a ha hna
        rw [hactive, not_and_not_right] at hna
        by_cases ha' : s'.active a
        · rw [hna ha']
          exact ⟨hb, hdata⟩
        · exact hs'.left a ha ha' }

omit [LinearOrder ι] in
theorem Leaving.active_of_active (hs' : s.Leaving b s') (ha : s'.active a) : s.active a :=
  BlockTree.Below.trans ha hs'.down

theorem Leaving.disconnectFrom (hcan : s.CanDisconnect b) :
    ∀ {fuel : ℕ} {s' : BlockIndex m}, s.Leaving b s' → m.nHeight s'.tip < fuel →
      ∃ s'', disconnectFrom b fuel s' = (s'', true) ∧ s.Leaving b s'' ∧ ¬s''.active b := by
  intro fuel
  induction fuel with
  | zero => exact fun _ hfuel => absurd hfuel (Nat.not_lt_zero _)
  | succ fuel ih =>
    intro s' hs' hfuel
    unfold BlockIndex.disconnectFrom
    by_cases hb : s'.active b
    · rw [if_pos hb]
      obtain ⟨hdata, hundo, hroot⟩ := hcan s'.tip hs'.down hb
      obtain ⟨p, hp⟩ := Option.ne_none_iff_exists'.mp hroot
      have hdisconnect :
          s'.markTip.disconnectTip = some { s'.markTip with tip := p } := by
        have hflags := hs'.flags.trans markTip_flagsOnly
        have hboth : (s'.markTip.entry s'.markTip.tip).haveData ∧
            (s'.markTip.entry s'.markTip.tip).haveUndo := by
          rw [hflags.haveData, hflags.haveUndo]
          exact ⟨hdata, hundo⟩
        rw [disconnectTip, if_pos hboth]
        exact congrArg (Option.map fun p => { s'.markTip with tip := p }) hp
      rw [hdisconnect]
      have hheight := m.nHeight_child hp
      exact ih (hs'.disconnect hb hp hdata) (by change m.nHeight p < fuel; omega)
    · rw [if_neg hb]
      exact ⟨s', rfl, hs', hb⟩

theorem invalidateBlock_spec (hcan : s.CanDisconnect b) :
    ∃ s', s.invalidateBlock b = (s'.restoreCandidates, true) ∧ s.Leaving b s' ∧ ¬s'.active b := by
  obtain ⟨s', hloop, hs', hb⟩ := Leaving.invalidBlockFound.disconnectFrom hcan
    (Nat.lt_succ_self (m.nHeight s.tip))
  exact ⟨s', by rw [invalidateBlock, hloop], hs', hb⟩

theorem mem_restoreCandidates : a ∈ s.restoreCandidates.candidates ↔
    a ∈ s.candidates ∨ a ∈ s.known ∧ (s.entry a).isValid blockValidTransactions ∧
      (s.entry a).nChainTx ≠ 0 ∧ ¬s.worse a s.tip := by
  change a ∈ s.candidates ∪ _ ↔ _
  rw [Finset.mem_union, Finset.mem_filter]

namespace Leaving

theorem wellFormed (hs : s.WellFormed) (hs' : s.Leaving b s') :
    s'.restoreCandidates.WellFormed where
  genesis_known := hs'.flags.known ▸ hs.genesis_known
  pprev_known := by
    intro a p
    change a ∈ s'.known → _ → p ∈ s'.known
    rw [hs'.flags.known]
    exact hs.pprev_known
  tip_known := hs'.flags.known ▸ hs.known_of_below hs'.down hs.tip_known
  candidates_known := by
    intro a ha
    rcases mem_restoreCandidates.mp ha with hmem | ⟨hknown, -⟩
    · exact hs'.flags.known ▸ hs.candidates_known ((hs'.candidates a).mp hmem).1
    · exact hknown

variable (hs' : s.Leaving b s') (hx : s.Checked x) (hknown : x ∈ s.known)
include hs'

theorem restored_flagsOnly : FlagsOnly s s'.restoreCandidates :=
  ⟨hs'.flags.known, hs'.flags.fHavePruned, hs'.flags.entry⟩

theorem firstInvalid_eq_none : s'.restoreCandidates.firstInvalid x = none ↔
    s.firstInvalid x = none ∧ ¬m.tree.Below b x := by
  rw [firstInvalid, firstOn_eq_none, firstInvalid, firstOn_eq_none]
  constructor
  · intro hall
    refine ⟨fun a hax ha => hall a hax ((hs'.failedValid a).mpr (Or.inr ha)), ?_⟩
    exact fun hbx => hall b hbx ((hs'.failedValid b).mpr (Or.inl rfl))
  · rintro ⟨hall, hbx⟩ a hax ha
    rcases (hs'.failedValid a).mp ha with rfl | ha
    · exact hbx hax
    · exact hall a hax ha

theorem not_failed (hx : s.Checked x)
    (hvalid : s'.restoreCandidates.firstInvalid x = none) : ¬(s'.entry x).failed := by
  obtain ⟨hvalid, hbx⟩ := hs'.firstInvalid_eq_none.mp hvalid
  rw [hs'.failed]
  rintro (hfailed | rfl | ⟨ha, hna⟩)
  · exact hx.notFailed hvalid hfailed
  · exact hbx (below_refl _)
  · exact hbx (hs'.left x ha hna).1

include hx hknown

theorem mem_candidates (hfailed : ¬(s'.entry x).failed) (hlinked : (s.entry x).nChainTx ≠ 0)
    (hgood : ¬s.worse x s'.tip) : x ∈ s'.restoreCandidates.candidates := by
  have hvalid : (s'.entry x).isValid blockValidTransactions := by
    have hlevel := hx.level_of_linked hlinked
    rw [← hs'.flags.validity] at hlevel
    simp [IndexEntry.isValid, hlevel, hfailed]
  refine mem_restoreCandidates.mpr (Or.inr ⟨hs'.flags.known ▸ hknown, hvalid, ?_, ?_⟩)
  · rw [hs'.flags.nChainTx]
    exact hlinked
  · rw [hs'.flags.worse]
    exact hgood

theorem settled : s'.restoreCandidates.Settled x := by
  have hflags := hs'.restored_flagsOnly
  have hmem : s'.restoreCandidates.firstInvalid x = none →
      (s'.restoreCandidates.entry x).nChainTx ≠ 0 →
      ¬s'.restoreCandidates.worse x s'.tip → x ∈ s'.restoreCandidates.candidates := by
    intro hvalid hlinked hgood
    rw [hflags.nChainTx] at hlinked
    rw [hflags.worse] at hgood
    exact hs'.mem_candidates hx hknown (hs'.not_failed hx hvalid) hlinked hgood
  refine
    { notFailed := hs'.not_failed hx
      candidate := fun hvalid hlinked hgood _ => hmem hvalid hlinked hgood
      of_candidate := fun hcand => ?_
      waiting := fun hvalid hp hdata hzero => ?_
      missing := fun hvalid _ _ hlinked _ hgood hnot =>
        absurd (hmem hvalid hlinked hgood) hnot }
  · rcases mem_restoreCandidates.mp hcand with hcand | ⟨-, -, hlinked, hgood⟩
    · obtain ⟨hlinked, hgood⟩ :=
        hx.settled.of_candidate ((hs'.candidates x).mp hcand).1
      rw [hflags.nChainTx, hflags.worse]
      exact ⟨hlinked, not_worse_trans hgood (not_worse_of_below hs'.down)⟩
    · exact ⟨hlinked, hgood⟩
  · rw [hflags.haveData] at hdata
    rw [hflags.nChainTx] at hzero
    have hfound : s'.restoreCandidates.foundInUnlinked x ↔ s.foundInUnlinked x :=
      foundInUnlinked_congr hs'.unlinked
    exact hfound.mpr (hx.settled.waiting (hs'.firstInvalid_eq_none.mp hvalid).1 hp hdata hzero)

end Leaving

theorem CheckBlockIndex.genesis_active (hcheck : s.CheckBlockIndex)
    (hs : s.WellFormed) : s.active m.genesis :=
  ((hcheck m.genesis hs.genesis_known).root m.pprev_genesis).2

theorem CheckBlockIndex.invalidateBlock (hcheck : s.CheckBlockIndex) (hs : s.WellFormed)
    (hcan : s.CanDisconnect b) : (s.invalidateBlock b).1.WellFormed ∧
      (s.invalidateBlock b).1.CheckBlockIndex := by
  obtain ⟨s', heq, hs', -⟩ := invalidateBlock_spec hcan
  rw [heq]
  refine ⟨hs'.wellFormed hs, fun x hx => ?_⟩
  have hknown : x ∈ s.known := hs'.flags.known ▸ hx
  refine hs'.restored_flagsOnly.checked hs'.unlinked (hcheck x hknown) (fun hp => ?_)
    (hs'.settled (hcheck x hknown) hknown)
  rw [((hcheck x hknown).root hp).1]
  refine (hcheck.genesis_active hs).of_height_le hs'.down ?_
  change m.nHeight m.genesis ≤ _
  rw [m.nHeight_root m.pprev_genesis]
  exact Nat.zero_le _

end BlockIndex
end ImageCoin
