import ImageCoin.CheckBlockIndex

/-!
# Steps of an activation

Disconnecting the tip, connecting a block, finding it invalid and removing a chain from the
candidates keep the index consistent.
-/

namespace ImageCoin

open BlockTree Finset IndexEntry Option

namespace BlockIndex

variable {ι : Type} [LinearOrder ι] {m : BlockHeaders ι} {s : BlockIndex m}
  {a b c p best : ι} {s s' : BlockIndex m} {above : List ι} {pindexTest : ι}

omit [LinearOrder ι] in
theorem EntriesOk.congr (hs : s.EntriesOk) (hknown : s'.known = s.known)
    (hentry : s'.entry = s.entry) (hpruned : s'.fHavePruned = s.fHavePruned) : s'.EntriesOk := by
  obtain ⟨known, entry, tip, candidates, unlinked, next, pruned⟩ := s
  obtain ⟨known', entry', tip', candidates', unlinked', next', pruned'⟩ := s'
  subst hknown hentry hpruned
  exact { hs with }

omit [LinearOrder ι] in
theorem disconnectTip_eq_some (hs' : s.disconnectTip = some s') :
    ∃ p, m.pprev s.tip = some p ∧ s' = { s with tip := p } ∧ (s.entry s.tip).haveData := by
  unfold disconnectTip at hs'
  split_ifs at hs' with hdata
  obtain ⟨p, hp, rfl⟩ := map_eq_some_iff.mp hs'
  exact ⟨p, hp, rfl, hdata.1⟩

section
variable (hp : m.pprev s.tip = some p)
include hp

omit [LinearOrder ι] in
theorem active_of_disconnected (ha : ({ s with tip := p } : BlockIndex m).active a) : s.active a :=
  BlockTree.Below.trans ha (below_parent hp)

omit [LinearOrder ι] in
theorem Usable.disconnected (hok : s.ActiveOk) (hdata : (s.entry s.tip).haveData)
    (husable : s.Usable b) : ({ s with tip := p } : BlockIndex m).Usable b := by
  intro a hab hna
  by_cases hactive : s.active a
  · rcases (below_iff hp).mp hactive with rfl | hap
    · exact ⟨hok.not_failed hactive, hdata⟩
    · exact absurd hap hna
  · exact husable a hab hactive

theorem Consistent.disconnected (hs : s.Consistent best) (hdata : (s.entry s.tip).haveData) :
    ({ s with tip := p } : BlockIndex m).Consistent best where
  entries := hs.entries.congr rfl rfl rfl
  chain :=
    { tip_known := hs.entries.pprev_known hs.chain.tip_known hp
      tip_linked := (hs.entries.linked_iff.mp hs.chain.tip_linked).2 p hp
      scripts := fun ha => hs.chain.scripts (active_of_disconnected hp ha)
      not_failed := fun ha => hs.chain.not_failed (active_of_disconnected hp ha) }
  candidates :=
    { linked := hs.candidates.linked
      not_worse := hs.candidates.not_worse
      best_mem := hs.candidates.best_mem
      best_usable := hs.candidates.best_usable.disconnected hp hs.chain hdata
      complete := hs.candidates.complete }
  unlinked :=
    { pprev := hs.unlinked.pprev
      haveData := hs.unlinked.haveData
      not_active := fun hmem ha =>
        hs.unlinked.not_active hmem (active_of_disconnected hp ha)
      not_candidate := hs.unlinked.not_candidate
      parent := fun hmem => (hs.unlinked.parent hmem).imp_right fun hmissing =>
        ⟨hmissing.1, fun ha => hmissing.2 (active_of_disconnected hp ha)⟩
      waiting := hs.unlinked.waiting }

end

/-- Nothing changes that the links, the candidates and the flags depend on. -/
structure SameLinks (s s' : BlockIndex m) : Prop where
  nTx : ∀ a, (s'.entry a).nTx = (s.entry a).nTx
  nChainTx : ∀ a, (s'.entry a).nChainTx = (s.entry a).nChainTx
  haveData : ∀ a, (s'.entry a).haveData = (s.entry a).haveData
  failedValid : ∀ a, (s'.entry a).failedValid = (s.entry a).failedValid
  failed : ∀ a, (s'.entry a).failed = (s.entry a).failed
  nSequenceId : ∀ a, (s'.entry a).nSequenceId = (s.entry a).nSequenceId
  candidates : s'.candidates = s.candidates
  unlinked : s'.unlinked = s.unlinked

namespace SameLinks

variable {s' : BlockIndex m} (h : SameLinks s s')
include h

theorem worse (a b : ι) : s'.worse a b = s.worse a b :=
  worse_congr (h.nSequenceId a) (h.nSequenceId b)

omit [LinearOrder ι] in
theorem foundInUnlinked : s'.foundInUnlinked = s.foundInUnlinked := by
  funext b
  rw [BlockIndex.foundInUnlinked, BlockIndex.foundInUnlinked, h.unlinked]

theorem candidatesOk (hs : s.CandidatesOk best) (husable : s'.Usable best) :
    s'.CandidatesOk best where
  linked := by
    intro a
    rw [h.candidates, h.nChainTx]
    exact hs.linked
  not_worse := by
    intro a
    rw [h.candidates, h.worse]
    exact hs.not_worse
  best_mem := by
    rw [h.candidates]
    exact hs.best_mem
  best_usable := husable
  complete := by
    intro a
    simp only [h.nChainTx, h.failedValid, h.worse, h.haveData, h.candidates, h.foundInUnlinked]
    exact hs.complete

omit [LinearOrder ι]

theorem unlinkedOk (hs : s.UnlinkedOk) (hactive : ∀ {p b}, (p, b) ∈ s.unlinked → ¬s'.active b)
    (hmissing : ∀ {a}, ¬(s.entry a).haveData → ¬s.active a → ¬s'.active a) :
    s'.UnlinkedOk where
  pprev := by
    rw [h.unlinked]
    exact hs.pprev
  haveData := by
    intro p b
    rw [h.unlinked, h.haveData]
    exact hs.haveData
  not_active := by
    rw [h.unlinked]
    exact hactive
  not_candidate := by
    rw [h.unlinked, h.candidates]
    exact hs.not_candidate
  parent := by
    intro p b
    rw [h.unlinked, h.haveData, h.foundInUnlinked]
    intro hmem
    exact (hs.parent hmem).imp_right fun hp => ⟨hp.1, hmissing hp.1 hp.2⟩
  waiting := by
    intro b
    rw [h.nTx, h.nChainTx, h.foundInUnlinked]
    exact hs.waiting

theorem nSequenceId_zero (hs : s.EntriesOk) (ha : (s'.entry a).nChainTx = 0) :
    (s'.entry a).nSequenceId = 0 := by
  rw [h.nChainTx] at ha
  rw [h.nSequenceId]
  exact hs.nSequenceId ha

theorem linked_iff (hs : s.EntriesOk) : (s'.entry a).nChainTx ≠ 0 ↔
    (s'.entry a).nTx ≠ 0 ∧ ∀ p, m.pprev a = some p → (s'.entry p).nChainTx ≠ 0 := by
  simp only [h.nTx, h.nChainTx]
  exact hs.linked_iff

theorem failed_linked (hs : s.EntriesOk) (ha : (s'.entry a).failed) :
    (s'.entry a).nChainTx ≠ 0 := by
  rw [h.failed] at ha
  rw [h.nChainTx]
  exact hs.failed_linked ha

theorem failed_below (hs : s.EntriesOk) (ha : (s'.entry a).failed) :
    ∃ c, m.tree.Below c a ∧ (s'.entry c).failedValid := by
  rw [h.failed] at ha
  simp only [h.failedValid]
  exact hs.failed_below ha

theorem nTx_of_haveData (hs : s.EntriesOk) (ha : (s'.entry a).haveData) : (s'.entry a).nTx ≠ 0 := by
  rw [h.haveData] at ha
  rw [h.nTx]
  exact hs.haveData ha

theorem haveData_of_nTx (hs : s.EntriesOk) (hpruned : s.fHavePruned = false)
    (ha : (s'.entry a).nTx ≠ 0) : (s'.entry a).haveData := by
  rw [h.nTx] at ha
  rw [h.haveData]
  exact hs.unpruned hpruned ha

end SameLinks

/-! ## Connecting a block -/

variable {e : IndexEntry}

theorem raiseValidity_of_not_failed (he : ¬e.failed) (nUpTo : ℕ) :
    e.raiseValidity nUpTo = { e with validity := max e.validity nUpTo } := by
  unfold raiseValidity
  split_ifs with hlt
  · rw [max_eq_right hlt.le]
  · rw [max_eq_left (not_lt.mp hlt)]

section
variable (hp : m.pprev b = some s.tip) (hfailed : ¬(s.entry b).failed)

theorem connected_entry (hfailed : ¬(s.entry b).failed) :
    (s.connected b).entry a = if a = b then { s.entry b with
      haveUndo := true
      validity := max (s.entry b).validity blockValidScripts } else s.entry a := by
  change Function.update _ _ _ a = _
  rw [Function.update_apply]
  split_ifs
  · exact raiseValidity_of_not_failed (e := { s.entry b with haveUndo := true })
      hfailed _
  · rfl

include hp in
omit hfailed in
theorem connected_active : (s.connected b).active a ↔ a = b ∨ s.active a :=
  below_iff hp

include hfailed in
theorem connected_sameLinks : SameLinks s (s.connected b) := by
  constructor
  case candidates => rfl
  case unlinked => rfl
  all_goals
    intro a
    rw [connected_entry hfailed]
    split_ifs with heq
    · rw [heq]
      try rfl
    · rfl

include hfailed in
theorem connected_validity {a : ι} : ((s.connected b).entry a).validity =
    if a = b then max (s.entry b).validity blockValidScripts
    else (s.entry a).validity := by
  rw [connected_entry hfailed]
  split_ifs <;> rfl

include hp hfailed in
theorem Usable.connected (husable : s.Usable c) : (s.connected b).Usable c := by
  intro a hac hna
  have hsame := connected_sameLinks hfailed
  rw [connected_active hp, not_or] at hna
  rw [hsame.failed, hsame.haveData]
  exact husable a hac hna.2

include hfailed in
omit hp in
theorem EntriesOk.connected (hs : s.EntriesOk) (hdata : (s.entry b).haveData)
    (hparent : ∀ p, m.pprev b = some p → p = m.genesis ∨ blockValidScripts ≤ (s.entry p).validity) :
    (s.connected b).EntriesOk where
  genesis_known := hs.genesis_known
  pprev_known := hs.pprev_known
  root := hs.root
  fresh := by
    intro a ha
    rw [connected_entry hfailed, if_neg]
    · exact hs.fresh ha
    · rintro rfl
      exact ha (hs.known_of_nTx (hs.haveData hdata))
  treeValid := by
    intro a ha
    rw [connected_validity hfailed]
    split_ifs
    · exact le_max_of_le_right (by decide)
    · exact hs.treeValid ha
  haveUndo := by
    intro a
    rw [connected_entry hfailed]
    split_ifs
    · exact fun _ => hdata
    · exact hs.haveUndo
  haveData := (connected_sameLinks hfailed).nTx_of_haveData hs
  unpruned := fun hpruned => (connected_sameLinks hfailed).haveData_of_nTx hs hpruned
  transactions := by
    intro a
    rw [(connected_sameLinks hfailed).nTx, connected_validity hfailed]
    split_ifs with heq
    · exact ⟨fun _ => heq ▸ hs.haveData hdata, fun _ => le_max_of_le_right (by decide)⟩
    · exact hs.transactions
  chainValid := by
    intro a
    rw [connected_validity hfailed]
    split_ifs
    · exact fun _ => le_max_right _ _
    · exact hs.chainValid
  scriptsValid := by
    intro a p ha hp
    rw [connected_validity hfailed] at ha ⊢
    by_cases hpb : p = b
    · rw [if_pos hpb]
      exact .inr (le_max_right _ _)
    · rw [if_neg hpb]
      by_cases hab : a = b
      · exact hparent p (hab ▸ hp)
      · exact hs.scriptsValid (by rwa [if_neg hab] at ha) hp
  failed_linked := (connected_sameLinks hfailed).failed_linked hs
  failed_below := (connected_sameLinks hfailed).failed_below hs
  nSequenceId := (connected_sameLinks hfailed).nSequenceId_zero hs
  linked_iff := (connected_sameLinks hfailed).linked_iff hs

include hp hfailed in
theorem ActiveOk.connected (hs : s.ActiveOk) (hknown : b ∈ s.known)
    (hlinked : (s.entry b).nChainTx ≠ 0) : (s.connected b).ActiveOk where
  tip_known := hknown
  tip_linked := by
    rwa [(connected_sameLinks hfailed).nChainTx]
  scripts := by
    intro a ha hne
    rw [connected_validity hfailed]
    split_ifs with hab
    · exact le_max_right _ _
    · exact hs.scripts (((connected_active hp).mp ha).resolve_left hab) hne
  not_failed := by
    intro a ha
    rw [(connected_sameLinks hfailed).failed]
    rcases (connected_active hp).mp ha with rfl | ha
    · exact hfailed
    · exact hs.not_failed ha

include hp in
omit [LinearOrder ι] hfailed in
theorem UnlinkedOk.not_found_child (hs : s.UnlinkedOk) : (p, b) ∉ s.unlinked := by
  intro hmem
  obtain rfl : s.tip = p := some.inj (hp.symm.trans (hs.pprev hmem))
  rcases hs.parent hmem with ⟨q, -, hq⟩ | ⟨-, htip⟩
  · exact hs.not_active hq (below_refl _)
  · exact htip (below_refl _)

include hp hfailed in
theorem Consistent.connected (hs : s.Consistent best) (hdata : (s.entry b).haveData) :
    (s.connected b).Consistent best where
  entries := by
    refine hs.entries.connected hfailed hdata fun p hp' => ?_
    obtain rfl : s.tip = p := some.inj (hp.symm.trans hp')
    by_cases hgenesis : s.tip = m.genesis
    · exact .inl hgenesis
    · exact .inr (hs.chain.scripts (below_refl _) hgenesis)
  chain := by
    have hlinked : (s.entry b).nChainTx ≠ 0 := by
      refine hs.entries.linked_iff.mpr ⟨hs.entries.haveData hdata, fun p hp' => ?_⟩
      obtain rfl : s.tip = p := some.inj (hp.symm.trans hp')
      exact hs.chain.tip_linked
    exact hs.chain.connected hp hfailed (hs.entries.known_of_linked hlinked) hlinked
  candidates := (connected_sameLinks hfailed).candidatesOk hs.candidates
    (hs.candidates.best_usable.connected hp hfailed)
  unlinked := by
    refine (connected_sameLinks hfailed).unlinkedOk hs.unlinked (fun hmem ha => ?_)
      fun hmissing hna => ?_
    · rcases (connected_active hp).mp ha with rfl | ha
      · exact hs.unlinked.not_found_child hp hmem
      · exact hs.unlinked.not_active hmem ha
    · rw [connected_active hp, not_or]
      refine ⟨?_, hna⟩
      rintro rfl
      exact hmissing hdata

end

theorem Consistent.pruned (hs : s.Consistent best) (hdata : (s.entry s.tip).haveData) :
    s.pruneBlockIndexCandidates.Consistent (if s.worse s.tip best then best else s.tip) := by
  have htip : ¬s.worse s.tip best → s.tip ∈ s.candidates := by
    intro hgood
    refine hs.mem_candidates hs.chain.tip_linked (fun a ha hinvalid => ?_) hgood hdata
      fun a ha hna => absurd ha hna
    exact hs.chain.not_failed ha (by rw [failed, hinvalid, Bool.true_or])
  have hmem : ∀ c, c ∈ s.pruneBlockIndexCandidates.candidates ↔
      c ∈ s.candidates ∧ ¬s.worse c s.tip := by
    intro c
    simp [pruneBlockIndexCandidates]
  refine
    { entries := hs.entries.congr rfl rfl rfl
      chain := { hs.chain with }
      candidates :=
        { linked := fun hc => hs.candidates.linked ((hmem _).mp hc).1
          not_worse := fun hc => ?_
          best_mem := ?_
          best_usable := ?_
          complete := fun hlinked hvalid hgood hb => ?_ }
      unlinked :=
        { pprev := hs.unlinked.pprev
          haveData := hs.unlinked.haveData
          not_active := hs.unlinked.not_active
          not_candidate := fun hpair hc =>
            hs.unlinked.not_candidate hpair ((hmem _).mp hc).1
          parent := hs.unlinked.parent
          waiting := hs.unlinked.waiting } }
  · obtain ⟨hcand, hgood⟩ := (hmem _).mp hc
    split_ifs
    · exact hs.candidates.not_worse hcand
    · exact hgood
  · rw [hmem]
    split_ifs with hworse
    · exact ⟨hs.candidates.best_mem, not_worse_of_worse hworse⟩
    · exact ⟨htip hworse, worse_irrefl⟩
  · split_ifs
    · exact hs.candidates.best_usable
    · exact fun a ha hna => absurd ha hna
  · split_ifs at hgood with hworse
    · refine (hs.candidates.complete hlinked hvalid hgood hb).imp_left fun hc => ?_
      exact (hmem _).mpr ⟨hc, not_worse_trans hgood (not_worse_of_worse hworse)⟩
    · refine (hs.candidates.complete hlinked hvalid (not_worse_trans hgood hworse)
        hb).imp_left fun hc => ?_
      exact (hmem _).mpr ⟨hc, hgood⟩

theorem clearFailed_of_not_failed (he : ¬e.failed) : e.clearFailed = e := by
  rw [failed, Bool.or_eq_true, not_or] at he
  obtain ⟨_, _, _, _, _, _, _, _, _⟩ := e
  simp only at he
  simp [clearFailed, he]

/-- Nothing of the entries changes but their flags. -/
structure FlagsOnly (s s' : BlockIndex m) : Prop where
  known : s'.known = s.known
  fHavePruned : s'.fHavePruned = s.fHavePruned
  entry : ∀ a, (s'.entry a).clearFailed = (s.entry a).clearFailed

namespace FlagsOnly

omit [LinearOrder ι] in
theorem refl (s : BlockIndex m) : FlagsOnly s s := ⟨rfl, rfl, fun _ => rfl⟩

omit [LinearOrder ι] in
theorem trans {s'' : BlockIndex m} (h : FlagsOnly s s') (h' : FlagsOnly s' s'') : FlagsOnly s s'' :=
  ⟨h'.known.trans h.known, h'.fHavePruned.trans h.fHavePruned,
    fun a => (h'.entry a).trans (h.entry a)⟩

variable {s' : BlockIndex m} (h : FlagsOnly s s')
include h

section

omit [LinearOrder ι]

theorem nTx (a : ι) : (s'.entry a).nTx = (s.entry a).nTx :=
  (congrArg IndexEntry.nTx (h.entry a) :)

theorem nChainTx (a : ι) : (s'.entry a).nChainTx = (s.entry a).nChainTx :=
  (congrArg IndexEntry.nChainTx (h.entry a) :)

theorem haveData (a : ι) : (s'.entry a).haveData = (s.entry a).haveData :=
  (congrArg IndexEntry.haveData (h.entry a) :)

theorem haveUndo (a : ι) : (s'.entry a).haveUndo = (s.entry a).haveUndo :=
  (congrArg IndexEntry.haveUndo (h.entry a) :)

theorem validity (a : ι) : (s'.entry a).validity = (s.entry a).validity :=
  (congrArg IndexEntry.validity (h.entry a) :)

theorem nSequenceId (a : ι) : (s'.entry a).nSequenceId = (s.entry a).nSequenceId :=
  (congrArg IndexEntry.nSequenceId (h.entry a) :)

end

theorem worse (a b : ι) : s'.worse a b = s.worse a b :=
  worse_congr (h.nSequenceId a) (h.nSequenceId b)

omit [LinearOrder ι]

theorem entriesOk (hs : s.EntriesOk)
    (hlinked : ∀ {a}, (s'.entry a).failed → (s.entry a).nChainTx ≠ 0)
    (hbelow : ∀ {a}, (s'.entry a).failed →
      ∃ c, m.tree.Below c a ∧ (s'.entry c).failedValid) : s'.EntriesOk where
  genesis_known := h.known ▸ hs.genesis_known
  pprev_known := by
    rw [h.known]
    exact hs.pprev_known
  root := by
    rw [h.known]
    exact hs.root
  fresh := by
    intro a ha
    rw [h.known] at ha
    have hempty : (s'.entry a).clearFailed = {} := by
      rw [h.entry, hs.fresh ha]
      rfl
    have hfailed : ¬(s'.entry a).failed := by
      intro hfailed
      exact ha (hs.known_of_linked (hlinked hfailed))
    rw [← clearFailed_of_not_failed hfailed, hempty]
  treeValid := by
    intro a ha
    rw [h.validity]
    exact hs.treeValid (h.known ▸ ha)
  haveUndo := by
    intro a
    rw [h.haveUndo, h.haveData]
    exact hs.haveUndo
  haveData := by
    intro a
    rw [h.haveData, h.nTx]
    exact hs.haveData
  unpruned := by
    intro hpruned a
    rw [h.haveData, h.nTx]
    exact hs.unpruned (h.fHavePruned ▸ hpruned)
  transactions := by
    intro a
    rw [h.validity, h.nTx]
    exact hs.transactions
  nSequenceId := by
    intro a
    rw [h.nChainTx, h.nSequenceId]
    exact hs.nSequenceId
  linked_iff := by
    intro a
    simp only [h.nTx, h.nChainTx]
    exact hs.linked_iff
  chainValid := by
    intro a
    rw [h.validity]
    exact hs.chainValid
  scriptsValid := by
    intro a p
    rw [h.validity, h.validity]
    exact hs.scriptsValid
  failed_linked := by
    intro a ha
    rw [h.nChainTx]
    exact hlinked ha
  failed_below := hbelow

theorem activeOk (hs : s.ActiveOk) (htip : s'.tip = s.tip)
    (hfailed : ∀ {a}, s.active a → ¬(s'.entry a).failed) : s'.ActiveOk where
  tip_known := by
    rw [htip, h.known]
    exact hs.tip_known
  tip_linked := by
    rw [htip, h.nChainTx]
    exact hs.tip_linked
  scripts := by
    intro a ha
    rw [active, htip] at ha
    rw [h.validity]
    exact hs.scripts ha
  not_failed := by
    intro a ha
    rw [active, htip] at ha
    exact hfailed ha

end FlagsOnly

theorem invalidBlockFound_entry : (s.invalidBlockFound b).entry a =
    if a = b then { s.entry b with failedValid := true } else s.entry a :=
  Function.update_apply _ _ _ _

theorem invalidBlockFound_flagsOnly : FlagsOnly s (s.invalidBlockFound b) where
  known := rfl
  fHavePruned := rfl
  entry := by
    intro a
    rw [invalidBlockFound_entry]
    split_ifs with heq
    · rw [heq]
      rfl
    · rfl

theorem invalidBlockFound_failedValid : ((s.invalidBlockFound b).entry a).failedValid ↔
    a = b ∨ (s.entry a).failedValid := by
  rw [invalidBlockFound_entry]
  split_ifs with heq <;> simp [heq]

theorem invalidBlockFound_failed : ((s.invalidBlockFound b).entry a).failed ↔
    a = b ∨ (s.entry a).failed := by
  rw [invalidBlockFound_entry]
  split_ifs with heq <;> simp [heq, failed]

theorem Consistent.invalidBlockFound (hs : s.Consistent best)
    (hlinked : (s.entry b).nChainTx ≠ 0) (hnew : ¬s.active b)
    (hbest : ¬m.tree.Below b best) : (s.invalidBlockFound b).Consistent best := by
  have hflags := invalidBlockFound_flagsOnly (s := s) (b := b)
  refine
    { entries := hflags.entriesOk hs.entries (fun hfailed => ?_) fun hfailed => ?_
      chain := hflags.activeOk hs.chain rfl fun ha hfailed => ?_
      candidates :=
        { linked := fun ha => ?_
          not_worse := fun ha => ?_
          best_mem := mem_erase.mpr ⟨?_, hs.candidates.best_mem⟩
          best_usable := fun a hab hna => ?_
          complete := fun {a} ha hvalid hgood hdata => ?_ }
      unlinked :=
        { pprev := hs.unlinked.pprev
          haveData := fun hmem => ?_
          not_active := hs.unlinked.not_active
          not_candidate := fun hmem ha =>
            hs.unlinked.not_candidate hmem (mem_of_mem_erase ha)
          parent := fun hmem => ?_
          waiting := fun hnTx hchain => ?_ } }
  · rcases invalidBlockFound_failed.mp hfailed with rfl | hfailed
    · exact hlinked
    · exact hs.entries.failed_linked hfailed
  · rcases invalidBlockFound_failed.mp hfailed with rfl | hfailed
    · exact ⟨_, below_refl _, invalidBlockFound_failedValid.mpr (.inl rfl)⟩
    · obtain ⟨c, hca, hc⟩ := hs.entries.failed_below hfailed
      exact ⟨c, hca, invalidBlockFound_failedValid.mpr (.inr hc)⟩
  · rcases invalidBlockFound_failed.mp hfailed with rfl | hfailed
    · exact hnew ha
    · exact hs.chain.not_failed ha hfailed
  · rw [hflags.nChainTx]
    exact hs.candidates.linked (mem_of_mem_erase ha)
  · rw [hflags.worse]
    exact hs.candidates.not_worse (mem_of_mem_erase ha)
  · rintro rfl
    exact hbest (below_refl _)
  · rw [invalidBlockFound_failed, hflags.haveData]
    obtain ⟨hfailed, hdata⟩ := hs.candidates.best_usable a hab hna
    refine ⟨?_, hdata⟩
    rintro (rfl | ha)
    · exact hbest hab
    · exact hfailed ha
  · rw [hflags.nChainTx] at ha
    rw [hflags.worse] at hgood
    rw [hflags.haveData] at hdata
    simp only [invalidBlockFound_failedValid, not_or] at hvalid
    refine (hs.candidates.complete ha (fun c hca => (hvalid c hca).2) hgood
      hdata).imp_left fun hmem => ?_
    exact mem_erase.mpr ⟨(hvalid a (below_refl a)).1, hmem⟩
  · rw [hflags.haveData]
    exact hs.unlinked.haveData hmem
  · rw [hflags.haveData]
    exact hs.unlinked.parent hmem
  · rw [hflags.nTx] at hnTx
    rw [hflags.nChainTx] at hchain
    exact hs.unlinked.waiting hnTx hchain

/-! ## Removing a chain -/

theorem removeChain_flagsOnly (above : List ι) (pindexTest : ι) :
    FlagsOnly s (s.removeChain above pindexTest) where
  known := removeChain_known
  fHavePruned := by
    unfold removeChain
    split_ifs <;> rfl
  entry := by
    intro a
    rcases removeChain_entry above pindexTest a with h | ⟨-, -, h⟩ <;>
      rw [h]
    rfl

theorem removeChain_failedValid :
    ((s.removeChain above pindexTest).entry a).failedValid = (s.entry a).failedValid := by
  rcases removeChain_entry above pindexTest a with h | ⟨-, -, h⟩ <;>
    rw [h]

theorem removeChain_failed (hfailed : ((s.removeChain above pindexTest).entry a).failed) :
    (s.entry a).failed ∨ ((s.entry pindexTest).failed ∧ a ∈ above) := by
  rcases removeChain_entry above pindexTest a with h | ⟨hstop, ha, -⟩
  · exact .inl (h ▸ hfailed)
  · exact .inr ⟨hstop, ha⟩

theorem mem_removeChain_unlinked {pair : ι × ι} :
    pair ∈ (s.removeChain above pindexTest).unlinked ↔ pair ∈ s.unlinked ∨
      (¬(s.entry pindexTest).failed ∧ pair.2 ∈ above ∧ m.pprev pair.2 = some pair.1) := by
  unfold removeChain
  split_ifs with hfailed
  · simp [hfailed]
  · rw [List.mem_append, List.mem_filterMap]
    refine or_congr_right ⟨?_, ?_⟩
    · rintro ⟨b, hb, hpair⟩
      obtain ⟨p, hp, rfl⟩ := map_eq_some_iff.mp hpair
      exact ⟨hfailed, hb, hp⟩
    · rintro ⟨-, hb, hp⟩
      exact ⟨pair.2, hb, by rw [hp]; rfl⟩

section
variable {above : List ι} {pindexTest : ι} (hblocked : s.Blocked b above pindexTest)
include hblocked

theorem UnlinkedOk.removeChain (hs : s.UnlinkedOk) :
    (s.removeChain above pindexTest).UnlinkedOk := by
  have hflags := removeChain_flagsOnly (s := s) above pindexTest
  have hmono : ∀ {c}, s.foundInUnlinked c → (s.removeChain above pindexTest).foundInUnlinked c := by
    rintro c ⟨p, hp, hmem⟩
    exact ⟨p, hp, mem_removeChain_unlinked.mpr (.inl hmem)⟩
  refine
    { pprev := fun hmem => ?_
      haveData := fun hmem => ?_
      not_active := fun hmem ha => ?_
      not_candidate := fun hmem hcand => ?_
      parent := fun {p c} hmem => ?_
      waiting := fun hnTx hchain => ?_ }
  · rcases mem_removeChain_unlinked.mp hmem with hmem | ⟨-, -, hp⟩
    · exact hs.pprev hmem
    · exact hp
  · rw [hflags.haveData]
    rcases mem_removeChain_unlinked.mp hmem with hmem | ⟨-, ha, -⟩
    · exact hs.haveData hmem
    · exact (hblocked.above_ok _ ha).2
  · rw [removeChain_active] at ha
    rcases mem_removeChain_unlinked.mp hmem with hmem | ⟨-, habove, -⟩
    · exact hs.not_active hmem ha
    · exact hblocked.above_not_active habove ha
  · rw [removeChain_candidates, mem_filter] at hcand
    rcases mem_removeChain_unlinked.mp hmem with hmem | ⟨-, ha, -⟩
    · exact hs.not_candidate hmem hcand.1
    · exact hcand.2 (List.mem_cons_of_mem _ ha)
  · rw [hflags.haveData, removeChain_active]
    rcases mem_removeChain_unlinked.mp hmem with hmem | ⟨hstop, hc, hp⟩
    · exact (hs.parent hmem).imp_left hmono
    · -- The parent is the block that stops the walk, or a block above it.
      obtain ⟨hcb, htest, hne⟩ := (hblocked.mem_above c).mp hc
      have htest' := htest.to_parent hne.symm hp
      by_cases heq : p = pindexTest
      · subst heq
        exact .inr ⟨hblocked.stops.resolve_left hstop, hblocked.not_active⟩
      · have hmem : p ∈ above := (hblocked.mem_above p).mpr
          ⟨(below_parent hp).trans hcb, htest', heq⟩
        cases hq : m.pprev p with
        | none => exact absurd (htest'.eq_of_root hq).symm heq
        | some q =>
          exact .inl ⟨q, hq, mem_removeChain_unlinked.mpr (.inr ⟨hstop, hmem, hq⟩)⟩
  · rw [hflags.nTx] at hnTx
    rw [hflags.nChainTx] at hchain
    exact hmono (hs.waiting hnTx hchain)

theorem Consistent.removeChain (hs : s.Consistent best) (hb : b ∈ s.candidates) :
    (s.removeChain above pindexTest).Consistent best := by
  have hflags := removeChain_flagsOnly (s := s) above pindexTest
  have hkept : best ∉ pindexTest :: above := fun hmem =>
    hblocked.not_usable (hblocked.below_of_mem hmem) hs.candidates.best_usable
  refine
    { entries := hflags.entriesOk hs.entries (fun hfailed => ?_) fun hfailed => ?_
      chain := hflags.activeOk hs.chain removeChain_tip fun ha hfailed => ?_
      candidates :=
        { linked := fun ha => ?_
          not_worse := fun ha => ?_
          best_mem := ?_
          best_usable := (removeChain_usable hblocked).mpr hs.candidates.best_usable
          complete := fun {a} ha hvalid hgood hdata => ?_ }
      unlinked := hs.unlinked.removeChain hblocked }
  · rcases removeChain_failed hfailed with hfailed | ⟨-, ha⟩
    · exact hs.entries.failed_linked hfailed
    · exact hs.entries.linked_of_below ((hblocked.mem_above _).mp ha).1 (hs.candidates.linked hb)
  · simp [removeChain_failedValid]
    rcases removeChain_failed hfailed with hfailed | ⟨hstop, ha⟩
    · exact hs.entries.failed_below hfailed
    · obtain ⟨c, hc, hinvalid⟩ := hs.entries.failed_below hstop
      exact ⟨c, hc.trans ((hblocked.mem_above _).mp ha).2.1, hinvalid⟩
  · rcases removeChain_failed hfailed with hfailed | ⟨-, habove⟩
    · exact hs.chain.not_failed ha hfailed
    · exact hblocked.above_not_active habove ha
  · rw [removeChain_candidates, mem_filter] at ha
    rw [hflags.nChainTx]
    exact hs.candidates.linked ha.1
  · rw [removeChain_candidates, mem_filter] at ha
    rw [hflags.worse]
    exact hs.candidates.not_worse ha.1
  · rw [removeChain_candidates, mem_filter]
    exact ⟨hs.candidates.best_mem, hkept⟩
  · rw [hflags.nChainTx] at ha
    rw [hflags.worse] at hgood
    rw [hflags.haveData] at hdata
    simp only [removeChain_failedValid] at hvalid
    rcases hs.candidates.complete ha hvalid hgood hdata with hmem | ⟨p, hp, hmem⟩
    · by_cases hgone : a ∈ pindexTest :: above
      · have htest := hblocked.below_of_mem hgone
        have hstop : ¬(s.entry pindexTest).failed := by
          intro hfailed
          obtain ⟨c, hc, hinvalid⟩ := hs.entries.failed_below hfailed
          exact hvalid c (hc.trans htest) hinvalid
        rcases List.mem_cons.mp hgone with rfl | hgone
        · exact absurd hdata (hblocked.stops.resolve_left hstop)
        · cases hp : m.pprev a with
          | none =>
            exact absurd (htest.eq_of_root hp).symm ((hblocked.mem_above a).mp hgone).2.2
          | some p =>
            exact .inr ⟨p, hp, mem_removeChain_unlinked.mpr (.inr ⟨hstop, hgone, hp⟩)⟩
      · rw [removeChain_candidates, mem_filter]
        exact .inl ⟨hmem, hgone⟩
    · exact .inr ⟨p, hp, mem_removeChain_unlinked.mpr (.inl hmem)⟩

end
end BlockIndex
end ImageCoin
