import ImageCoin.ActivationSteps

/-!
# Activating the best chain

A step of `ActivateBestChain` disconnects the active blocks above the fork and connects blocks
towards the chain with the most work until the tip has more work than before, or a block turns
out to be invalid.
-/

namespace ImageCoin

open BlockTree List

namespace BlockIndex

variable {ι : Type} [LinearOrder ι] {m : BlockHeaders ι} {s : BlockIndex m}
  {a b c p best : ι} {s' : BlockIndex m} {fuel : ℕ} {s' s'' : BlockIndex m} {best' : ι}
  {path : List ι} {runs : List (ι → ConnectResult)}

/-- The last active block on the way to a block. -/
structure IsFork (s : BlockIndex m) (b fork : ι) : Prop where
  active : s.active fork
  below : m.tree.Below fork b
  last : ∀ {a}, m.tree.Below a b → s.active a → m.tree.Below a fork

theorem findForkLoop_spec (ha : s.active a) : ∀ b, m.nHeight b < fuel → m.tree.Below a b →
    ∃ fork, s.findForkLoop fuel b = some fork ∧ s.IsFork b fork := by
  induction fuel with
  | zero =>
    intro b hfuel
    omega
  | succ fuel ih =>
    intro b hfuel hab
    unfold findForkLoop
    by_cases hb : s.active b
    · rw [if_pos hb]
      exact ⟨b, rfl, hb, below_refl b, fun hcb _ => hcb⟩
    · rw [if_neg hb]
      have hne : a ≠ b := by
        rintro rfl
        exact hb ha
      cases hp : m.pprev b with
      | none => exact absurd (hab.eq_of_root hp) hne
      | some p =>
        have hheight := m.nHeight_child hp
        obtain ⟨fork, hloop, hfork⟩ := ih p (by omega) (hab.to_parent hne hp)
        refine ⟨fork, hloop, hfork.active,
          hfork.below.trans (below_parent hp), fun {c} hcb hc => ?_⟩
        refine hfork.last (hcb.to_parent ?_ hp) hc
        rintro rfl
        exact hb hc

theorem findFork_spec (ha : s.active a) (hab : m.tree.Below a b) :
    ∃ fork, s.findFork b = some fork ∧ s.IsFork b fork := by
  unfold findFork
  split_ifs with hhigh
  · obtain ⟨start, hstart⟩ := exists_ancestor (t := m.tree) hhigh.le
    have hbelow := below_of_ancestor hstart
    have hheight := (height_of_ancestor hstart).1
    -- Active blocks are not above the tip, so none is passed over.
    have hpass : ∀ {c}, m.tree.Below c b → s.active c → m.tree.Below c start :=
      fun hcb hc => hcb.of_height_le hbelow (hheight ▸ hc.height_le)
    obtain ⟨fork, hloop, hfork⟩ := findForkLoop_spec ha start (Nat.lt_succ_self _) (hpass hab ha)
    refine ⟨fork, ?_, hfork.active, hfork.below.trans hbelow,
      fun hcb hc => hfork.last (hpass hcb hc) hc⟩
    rw [BlockChains.getAncestor_eq (by omega)]
    exact (congrArg (Option.bind · _) hstart).trans hloop
  · exact findForkLoop_spec ha b (Nat.lt_succ_self _) hab

variable {fork : ι}

theorem disconnectTo_spec : ∀ s : BlockIndex m, s.Consistent best → m.tree.Below fork s.tip →
    m.nHeight s.tip ≤ fuel + m.nHeight fork →
    (disconnectTo fork fuel s = .progress { s with tip := fork } ∧
      ({ s with tip := fork } : BlockIndex m).Consistent best) ∨
    ∃ s', disconnectTo fork fuel s = .systemError s' ∧ ∃ a, s.active a ∧ ¬m.tree.Below a fork ∧
        ¬((s.entry a).haveData ∧ (s.entry a).haveUndo) := by
  induction fuel with
  | zero =>
    intro s hs hfork hheight
    rw [Nat.zero_add] at hheight
    obtain rfl := hfork.eq_of_height_eq (le_antisymm hfork.height_le hheight)
    exact .inl ⟨rfl, hs⟩
  | succ fuel ih =>
    intro s hs hfork hheight
    unfold disconnectTo
    by_cases htip : s.tip = fork
    · subst htip
      rw [if_pos rfl]
      exact .inl ⟨rfl, hs⟩
    rw [if_neg htip]
    cases hp : m.pprev s.tip with
    | none => exact absurd (hfork.eq_of_root hp).symm htip
    | some p =>
      have hparent := hfork.to_parent (Ne.symm htip) hp
      have hchild := m.nHeight_child hp
      by_cases hdata : (s.entry s.tip).haveData ∧ (s.entry s.tip).haveUndo
      · have hstep : s.disconnectTip = some { s with tip := p } := by
          rw [disconnectTip, if_pos hdata, hp]
          rfl
        rw [hstep]
        rcases ih { s with tip := p } (hs.disconnected hp hdata.1) hparent
          (by change m.nHeight p ≤ _; omega) with hend | ⟨s', hend, a, ha, hrest⟩
        · exact .inl hend
        · exact .inr ⟨s', hend, a, active_of_disconnected hp ha, hrest⟩
      · have hstep : s.disconnectTip = none := by
          rw [disconnectTip, if_neg hdata]
        rw [hstep]
        refine .inr ⟨s, rfl, s.tip, below_refl _, fun htop => ?_, hdata⟩
        exact htip (htop.antisymm hfork)

/-! ## The way up -/

def IsPath (m : BlockHeaders ι) : ι → List ι → Prop
  | _, [] => True
  | p, b :: rest => m.pprev b = some p ∧ IsPath m b rest

theorem blocksToConnect_spec :
    ∀ b path, m.tree.Below fork b → m.nHeight b ≤ fuel + m.nHeight fork → IsPath m b path →
      IsPath m fork (blocksToConnect m fork fuel b path) ∧
        ∀ a, a ∈ blocksToConnect m fork fuel b path ↔
          a ∈ path ∨ (m.tree.Below a b ∧ ¬m.tree.Below a fork) := by
  induction fuel with
  | zero =>
    intro b path hfork hheight hpath
    rw [Nat.zero_add] at hheight
    obtain rfl := hfork.eq_of_height_eq (le_antisymm hfork.height_le hheight)
    exact ⟨hpath, fun a => ⟨.inl, fun ha => ha.resolve_right fun h => h.2 h.1⟩⟩
  | succ fuel ih =>
    intro b path hfork hheight hpath
    unfold blocksToConnect
    by_cases heq : b = fork
    · subst heq
      rw [if_pos rfl]
      exact ⟨hpath, fun a => ⟨.inl, fun ha => ha.resolve_right fun h => h.2 h.1⟩⟩
    rw [if_neg heq]
    cases hp : m.pprev b with
    | none => exact absurd (hfork.eq_of_root hp).symm heq
    | some p =>
      have hchild := m.nHeight_child hp
      have hparent := hfork.to_parent (Ne.symm heq) hp
      obtain ⟨hisPath, hmem⟩ := ih p (b :: path) hparent (by omega) ⟨hp, hpath⟩
      refine ⟨hisPath, fun a => ?_⟩
      rw [hmem, mem_cons, below_iff (t := m.tree) hp]
      have hself : a = b → ¬m.tree.Below a fork := by
        rintro rfl htop
        exact heq (htop.antisymm hfork)
      tauto

/-- What an activation leaves alone; it does not take flags back. -/
structure Keeps (s s' : BlockIndex m) : Prop where
  known : s'.known = s.known
  nChainTx : ∀ a, (s'.entry a).nChainTx = (s.entry a).nChainTx
  haveData : ∀ a, (s'.entry a).haveData = (s.entry a).haveData
  nSequenceId : ∀ a, (s'.entry a).nSequenceId = (s.entry a).nSequenceId
  failed : ∀ {a}, (s.entry a).failed → (s'.entry a).failed

namespace Keeps

variable {s' s'' : BlockIndex m}

omit [LinearOrder ι] in
theorem refl (s : BlockIndex m) : Keeps s s :=
  ⟨rfl, fun _ => rfl, fun _ => rfl, fun _ => rfl, id⟩

omit [LinearOrder ι] in
theorem trans (h : Keeps s s') (h' : Keeps s' s'') : Keeps s s'' where
  known := h'.known.trans h.known
  nChainTx a := (h'.nChainTx a).trans (h.nChainTx a)
  haveData a := (h'.haveData a).trans (h.haveData a)
  nSequenceId a := (h'.nSequenceId a).trans (h.nSequenceId a)
  failed ha := h'.failed (h.failed ha)

theorem worse (h : Keeps s s') (a b : ι) : s'.worse a b = s.worse a b :=
  worse_congr (h.nSequenceId a) (h.nSequenceId b)

end Keeps

/-- What `ActivateBestChainStep` comes to: a consistent state, for `best` or for a new tip that is
no worse. -/
def Reaches (s : BlockIndex m) (best : ι) (s' : BlockIndex m) : Prop :=
  Keeps s s' ∧ ∃ best', (best' = best ∨ best' = s'.tip) ∧ s'.Consistent best' ∧
    ¬s.worse best' best ∧ ¬s.worse best' s'.tip

/-- The step found a block on the way to `best` that does not connect. -/
def Spoils (s : BlockIndex m) (best : ι) (s' : BlockIndex m) (a : ι) : Prop :=
  Keeps s s' ∧ m.tree.Below a best ∧ ¬s.active a ∧ (s'.entry a).failed

theorem invalidBlockFound_keeps : Keeps s (s.invalidBlockFound b) where
  known := rfl
  nChainTx := invalidBlockFound_flagsOnly.nChainTx
  haveData := invalidBlockFound_flagsOnly.haveData
  nSequenceId := invalidBlockFound_flagsOnly.nSequenceId
  failed ha := invalidBlockFound_failed.mpr (.inr ha)

theorem connected_keeps (hfailed : ¬(s.entry b).failed) :
    Keeps s (s.connected b).pruneBlockIndexCandidates where
  known := rfl
  nChainTx a := (connected_sameLinks hfailed).nChainTx a
  haveData a := (connected_sameLinks hfailed).haveData a
  nSequenceId a := (connected_sameLinks hfailed).nSequenceId a
  failed {a} ha := by
    change ((s.connected b).entry a).failed
    rwa [(connected_sameLinks hfailed).failed]

theorem Reaches.connected (hs : s.Consistent best) (hp : m.pprev b = some s.tip)
    (hfailed : ¬(s.entry b).failed) (hdata : (s.entry b).haveData) :
    s.Reaches best (s.connected b).pruneBlockIndexCandidates := by
  have hkeeps := connected_keeps hfailed
  have hcons := (hs.connected hp hfailed hdata).pruned
    (by rw [(connected_sameLinks hfailed).haveData]; exact hdata)
  rw [(connected_sameLinks hfailed).worse] at hcons
  refine ⟨hkeeps, _, ?_, hcons, ?_, ?_⟩
  · split_ifs
    · exact .inl rfl
    · exact .inr rfl
  · split_ifs with hworse
    · exact worse_irrefl
    · exact hworse
  · split_ifs with hworse
    · exact not_worse_of_worse hworse
    · exact worse_irrefl

theorem Reaches.trans (hkeeps : Keeps s s')
    (hbest' : best' = best ∨ best' = s'.tip) (hgood : ¬s.worse best' best)
    (hup : m.tree.Below s'.tip s''.tip) (h : s'.Reaches best' s'') : s.Reaches best s'' := by
  obtain ⟨hkeeps', best'', hbest'', hcons, hgood', htop⟩ := h
  rw [hkeeps.worse] at hgood' htop
  refine ⟨hkeeps.trans hkeeps', best'', ?_, hcons, not_worse_trans hgood' hgood, htop⟩
  rcases hbest'' with rfl | rfl
  · rcases hbest' with rfl | rfl
    · exact .inl rfl
    · -- The reference is an earlier tip, and no better than the tip above it.
      refine .inr ?_
      by_contra hne
      exact htop (worse_of_below hup hne)
  · exact .inr rfl

omit [LinearOrder ι] in
theorem Spoils.trans (hkeeps : Keeps s s') (hbest' : best' = best ∨ best' = s'.tip)
    (hup : m.tree.Below s.tip s'.tip) (h : s'.Spoils best' s'' a) : s.Spoils best s'' a := by
  obtain ⟨hkeeps', ha, hactive, hfailed⟩ := h
  refine ⟨hkeeps.trans hkeeps', ?_, fun h => hactive (h.trans hup), hfailed⟩
  rcases hbest' with rfl | rfl
  · exact ha
  · exact absurd ha hactive

/-- What holds however far the blocks of a path connect. -/
structure Climbs (s : BlockIndex m) (pindexOldTip : ι) (results : ι → ConnectResult)
    (path : List ι) (s' : BlockIndex m) : Prop where
  up : m.tree.Below s.tip s'.tip
  tip : s'.tip = s.tip ∨ s'.tip ∈ path
  passes : ∀ b ∈ path, (∀ a ∈ path, m.tree.Below a b → results a = .ok ∧ (s.entry a).haveData) →
    m.tree.Below b s'.tip ∨ m.nChainWork pindexOldTip < m.nChainWork s'.tip

/-- How the connection of a path may end. -/
inductive Connects (s : BlockIndex m) (best pindexOldTip : ι)
    (results : ι → ConnectResult) (path : List ι) : StepEnd m → Prop
  | progress {s' : BlockIndex m} (hclimbs : s.Climbs pindexOldTip results path s')
      (hreaches : s.Reaches best s')
      (hfailed : ∀ a, (s'.entry a).failed = (s.entry a).failed)
      (hdone : (∀ b ∈ path, m.tree.Below b s'.tip) ∨
        m.nChainWork pindexOldTip < m.nChainWork s'.tip) :
      Connects s best pindexOldTip results path (.progress s')
  | invalidFound {s' : BlockIndex m} (hclimbs : s.Climbs pindexOldTip results path s')
      (hend : s.Reaches best s' ∨ ∃ a ∈ path, s.Spoils best s' a) :
      Connects s best pindexOldTip results path (.invalidFound s')
  | systemError {s' : BlockIndex m} (hclimbs : s.Climbs pindexOldTip results path s')
      (hreaches : s.Reaches best s')
      (herror : ∃ a ∈ path, results a = .systemError ∨ ¬(s.entry a).haveData) :
      Connects s best pindexOldTip results path (.systemError s')

omit [LinearOrder ι] in
theorem IsPath.below (hpath : IsPath m p path) (ha : a ∈ path) : m.tree.Below p a := by
  induction path generalizing p with
  | nil => exact absurd ha not_mem_nil
  | cons b rest ih =>
    have hpb : m.tree.Below p b := below_parent hpath.1
    rcases mem_cons.mp ha with rfl | ha
    · exact hpb
    · exact hpb.trans (ih hpath.2 ha)

section
variable {pindexOldTip : ι} {results : ι → ConnectResult} {rest : List ι}

omit [LinearOrder ι] in
theorem Climbs.stay (hpath : IsPath m b rest)
    (hstop : ¬(results b = .ok ∧ (s.entry b).haveData)) (htip : s'.tip = s.tip) :
    s.Climbs pindexOldTip results (b :: rest) s' where
  up := htip ▸ below_refl _
  tip := Or.inl htip
  passes := by
    intro c hc hall
    refine absurd (hall b mem_cons_self ?_) hstop
    rcases mem_cons.mp hc with rfl | hc
    · exact below_refl c
    · exact hpath.below hc

omit [LinearOrder ι] in
theorem Climbs.cons (hp : m.pprev b = some s.tip)
    (htip : s'.tip = b) (hkeeps : Keeps s s') (h : s'.Climbs pindexOldTip results rest s'') :
    s.Climbs pindexOldTip results (b :: rest) s'' where
  up := (below_parent hp).trans (htip ▸ h.up)
  tip := by
    rcases h.tip with heq | hmem
    · exact .inr (heq.trans htip ▸ mem_cons_self)
    · exact .inr (mem_cons_of_mem _ hmem)
  passes := by
    intro c hc hall
    rcases mem_cons.mp hc with rfl | hc
    · exact .inl (htip ▸ h.up)
    · refine h.passes c hc fun a ha hac => ?_
      rw [hkeeps.haveData]
      exact hall a (mem_cons_of_mem _ ha) hac

theorem Connects.cons {stop : StepEnd m} (hp : m.pprev b = some s.tip) (htip : s'.tip = b)
    (hkeeps : Keeps s s') (hfailed : ∀ a, (s'.entry a).failed = (s.entry a).failed)
    (hbest' : best' = best ∨ best' = s'.tip) (hgood : ¬s.worse best' best)
    (h : s'.Connects best' pindexOldTip results rest stop) :
    s.Connects best pindexOldTip results (b :: rest) stop := by
  have hup : m.tree.Below s.tip s'.tip := htip ▸ below_parent hp
  cases h with
  | progress hclimbs hreaches hfailed' hdone =>
    refine .progress (hclimbs.cons hp htip hkeeps) (hreaches.trans hkeeps hbest' hgood hclimbs.up)
      (fun a => (hfailed' a).trans (hfailed a)) (hdone.imp_left fun hall c hc => ?_)
    rcases mem_cons.mp hc with rfl | hc
    · exact htip ▸ hclimbs.up
    · exact hall c hc
  | invalidFound hclimbs hend =>
    refine .invalidFound (hclimbs.cons hp htip hkeeps) ?_
    rcases hend with hreaches | ⟨a, ha, hspoils⟩
    · exact .inl (hreaches.trans hkeeps hbest' hgood hclimbs.up)
    · exact .inr ⟨a, mem_cons_of_mem _ ha, hspoils.trans hkeeps hbest' hup⟩
  | systemError hclimbs hreaches herror =>
    obtain ⟨a, ha, herror⟩ := herror
    refine .systemError (hclimbs.cons hp htip hkeeps)
      (hreaches.trans hkeeps hbest' hgood hclimbs.up) ⟨a, mem_cons_of_mem _ ha, ?_⟩
    rwa [hkeeps.haveData] at herror

theorem connectBlocks_spec :
    ∀ (s : BlockIndex m) (best : ι), s.Consistent best → ¬s.worse best s.tip →
      IsPath m s.tip path → (∀ a ∈ path, ¬(s.entry a).failed) →
      s.Connects best pindexOldTip results path (connectBlocks pindexOldTip results path s) := by
  induction path with
  | nil =>
    intro s best hs htop _ _
    refine .progress ⟨below_refl _, .inl rfl, fun b hb => nomatch hb⟩
      ⟨.refl s, best, .inl rfl, hs, worse_irrefl, htop⟩ (fun _ => rfl) (.inl fun b hb => nomatch hb)
  | cons b rest ih =>
    intro s best hs htop hpath hunfailed
    obtain ⟨hp, hrest⟩ := hpath
    have hfailed := hunfailed b mem_cons_self
    have hstay : s.Reaches best s :=
      ⟨.refl s, best, .inl rfl, hs, worse_irrefl, htop⟩
    unfold connectBlocks connectTip
    rw [if_neg (not_not.mpr hp)]
    by_cases hdata : (s.entry b).haveData
    swap
    · rw [if_pos hdata]
      exact .systemError (.stay hrest (fun h => hdata h.2) rfl) hstay ⟨b, mem_cons_self, .inr hdata⟩
    rw [if_neg (not_not.mpr hdata)]
    cases hresult : results b with
    | systemError =>
      exact .systemError (.stay hrest (by simp [hresult]) rfl) hstay
        ⟨b, mem_cons_self, .inl hresult⟩
    | invalid corruptionPossible =>
      cases corruptionPossible with
      | true =>
        exact .invalidFound (.stay hrest (by simp [hresult]) rfl) (.inl hstay)
      | false =>
        refine .invalidFound (.stay hrest (by simp [hresult]) rfl) ?_
        have hnew : ¬s.active b := not_below_parent hp
        by_cases hbelow : m.tree.Below b best
        · exact .inr ⟨b, mem_cons_self, invalidBlockFound_keeps, hbelow,
            hnew, invalidBlockFound_failed.mpr (.inl rfl)⟩
        · have hlinked : (s.entry b).nChainTx ≠ 0 := by
            refine hs.entries.linked_iff.mpr ⟨hs.entries.haveData hdata, ?_⟩
            rintro p hp'
            obtain rfl : s.tip = p := Option.some.inj (hp.symm.trans hp')
            exact hs.chain.tip_linked
          exact .inl ⟨invalidBlockFound_keeps, best, .inl rfl,
            hs.invalidBlockFound hlinked hnew hbelow, worse_irrefl, htop⟩
    | ok =>
      have hreaches := Reaches.connected hs hp hfailed hdata
      have hsame : ∀ a, ((s.connected b).pruneBlockIndexCandidates.entry a).failed =
          (s.entry a).failed := (connected_sameLinks hfailed).failed
      obtain ⟨hkeeps, best', hbest', hs', hgood, htop'⟩ := hreaches
      simp only
      rw [if_neg (Finset.ne_empty_of_mem hs'.candidates.best_mem)]
      by_cases hwork : m.nChainWork pindexOldTip <
          m.nChainWork (s.connected b).pruneBlockIndexCandidates.tip
      · rw [if_pos hwork]
        refine .progress ⟨below_parent hp, .inr mem_cons_self, fun _ _ _ => .inr hwork⟩
          ⟨hkeeps, best', hbest', hs', hgood, htop'⟩ hsame (.inr hwork)
      · rw [if_neg hwork]
        refine .cons hp rfl hkeeps hsame hbest' hgood (ih _ best' hs' ?_ hrest ?_)
        · rwa [hkeeps.worse]
        · intro a ha
          rw [hsame]
          exact hunfailed a (mem_cons_of_mem _ ha)

end

omit [LinearOrder ι] in
theorem Keeps.of_tip {fork : ι}
    (h : Keeps ({ s with tip := fork } : BlockIndex m) s') : Keeps s s' :=
  ⟨h.known, h.nChainTx, h.haveData, h.nSequenceId, h.failed⟩

theorem Reaches.of_tip
    (h : ({ s with tip := fork } : BlockIndex m).Reaches best s') : s.Reaches best s' :=
  ⟨h.1.of_tip, h.2⟩

theorem activateBestChainStep_spec (hs : s.Consistent best) (htop : ¬s.worse best s.tip)
    (hknown : b ∈ s.known) (hunfailed : ∀ a, m.tree.Below a b → ¬s.active a → ¬(s.entry a).failed)
    (results : ι → ConnectResult) :
    ∃ fork, s.IsFork b fork ∧ ((∃ s', s.activateBestChainStep b results = .systemError s' ∧
          ∃ a, s.active a ∧ ¬m.tree.Below a fork ∧
            ¬((s.entry a).haveData ∧ (s.entry a).haveUndo)) ∨
        ∃ path, (∀ a, a ∈ path ↔ m.tree.Below a b ∧ ¬s.active a) ∧
          ({ s with tip := fork } : BlockIndex m).Connects best s.tip results path
            (s.activateBestChainStep b results)) := by
  obtain ⟨fork, hfind, hfork⟩ := findFork_spec
    (hs.entries.genesis_below hs.chain.tip_known) (hs.entries.genesis_below hknown)
  refine ⟨fork, hfork, ?_⟩
  unfold activateBestChainStep
  simp only [hfind]
  rcases disconnectTo_spec s hs hfork.active (Nat.le_add_right _ _)
    with ⟨hdown, hs'⟩ | ⟨s', hdown, herror⟩
  · obtain ⟨hpath, hmem⟩ := blocksToConnect_spec b [] hfork.below (Nat.le_add_right _ _) trivial
    have hmem' : ∀ a, a ∈ blocksToConnect m fork (m.nHeight b) b [] ↔
        m.tree.Below a b ∧ ¬s.active a := by
      intro a
      rw [hmem, or_iff_right not_mem_nil]
      refine and_congr_right fun hab => not_congr ⟨fun ha => ?_, hfork.last hab⟩
      exact active_of_below ha hfork.active
    refine .inr ⟨_, hmem', ?_⟩
    simp only [hdown]
    refine connectBlocks_spec _ best hs' ?_ hpath fun a ha => ?_
    · intro hworse
      have hup : ¬s.worse s.tip fork := not_worse_of_below hfork.active
      exact htop (worse_of_worse_of_not_worse hworse hup)
    · obtain ⟨hab, hna⟩ := (hmem' a).mp ha
      exact hunfailed a hab hna
  · simp only [hdown]
    exact .inl ⟨s', rfl, herror⟩

/-- A block that an activation may work towards. -/
structure Target (s : BlockIndex m) (best b : ι) : Prop where
  known : b ∈ s.known
  unfailed : ∀ a, m.tree.Below a b → ¬s.active a → ¬(s.entry a).failed
  not_worse : ¬s.worse b best

theorem removeChain_keeps {above : List ι} {pindexTest : ι} :
    Keeps s (s.removeChain above pindexTest) where
  known := removeChain_known
  nChainTx := (removeChain_flagsOnly _ _).nChainTx
  haveData := (removeChain_flagsOnly _ _).haveData
  nSequenceId := (removeChain_flagsOnly _ _).nSequenceId
  failed {a} ha := by
    rcases removeChain_entry above pindexTest a with h | ⟨-, -, h⟩
    · rwa [h]
    · rw [h]
      simp [IndexEntry.failed]

theorem Consistent.findMostWorkChain (hs : s.Consistent best) :
    ∃ b s', s.findMostWorkChain = some (some b, s') ∧ s.IsMostWork (some b) ∧
      s'.Consistent best ∧ Keeps s s' ∧ FlagsOnly s s' ∧ s'.tip = s.tip ∧
      s'.Target best b ∧ s'.Usable b := by
  have hlinked : s.CandidatesLinked := fun b hb a hab _ =>
    Or.inl (hs.entries.linked_of_below hab (hs.candidates.linked hb))
  obtain ⟨r, s', hfind, ⟨hs', hkeeps, hflags⟩, hmost, hmost', htip⟩ :=
    findMostWorkChain_spec (P := fun s' => s'.Consistent best ∧ Keeps s s' ∧ FlagsOnly s s')
      (fun h hb hblocked => ⟨h.1.removeChain hblocked hb,
        h.2.1.trans removeChain_keeps, h.2.2.trans (removeChain_flagsOnly _ _)⟩)
      ⟨hs, .refl s, .refl s⟩ hlinked
  cases r with
  | none =>
    exact absurd hs'.candidates.best_usable (hmost' best hs'.candidates.best_mem)
  | some b =>
    obtain ⟨hb, husable, hgreatest⟩ := hmost'
    refine ⟨b, s', hfind, hmost, hs', hkeeps, hflags, htip, ⟨?_, ?_, ?_⟩, husable⟩
    · exact hs'.entries.known_of_linked (hs'.candidates.linked hb)
    · exact fun a hab hna => (husable a hab hna).1
    · exact hgreatest best hs'.candidates.best_mem hs'.candidates.best_usable

/-- A turn that goes on has kept the reference or got a better one, or has found
a block on the way to the reference invalid. -/
inductive TurnEnds (best : ι) : Turn m → Prop
  | returned {s' : BlockIndex m} (hwork : m.nChainWork best ≤ m.nChainWork s'.tip) :
      TurnEnds best (.returned s')
  | again {s' : BlockIndex m} {best' : ι} {pindexMostWork : Option ι}
      (hbest : best' = best ∨ best' = s'.tip) (hs' : s'.Consistent best')
      (hgood : m.nChainWork best ≤ m.nChainWork best') (htop : ¬s'.worse best' s'.tip)
      (htarget : ∀ b ∈ pindexMostWork, s'.Target best' b) :
      TurnEnds best (.again s' pindexMostWork)
  | spoiled {s' : BlockIndex m} {a : ι} {pindexMostWork : Option ι}
      (ha : m.tree.Below a best) (hfailed : (s'.entry a).failed) :
      TurnEnds best (.again s' pindexMostWork)
  | systemError {s' : BlockIndex m} : TurnEnds best (.systemError s')

theorem turnTowards_spec (hs : s.Consistent best) (htop : ¬s.worse best s.tip)
    (htarget : s.Target best b) {results : ι → ConnectResult} :
    TurnEnds best (s.turnTowards b results) := by
  unfold turnTowards
  by_cases hdone : b = s.tip
  · rw [if_pos hdone]
    exact .returned (work_le_of_not_worse (hdone ▸ htarget.not_worse))
  rw [if_neg hdone]
  obtain ⟨fork, hfork, ⟨s', herror, -⟩ | ⟨path, hmem, hconnects⟩⟩ :=
    activateBestChainStep_spec hs htop htarget.known htarget.unfailed results
  · simp [herror]
    exact .systemError
  generalize s.activateBestChainStep b results = stop at hconnects
  cases hconnects with
  | systemError => exact .systemError
  | @invalidFound s' hclimbs hend =>
    rcases hend with hreaches | ⟨a, -, -, ha, -, hfailed⟩
    · obtain ⟨hkeeps, best', hbest', hs', hgood, htop'⟩ := hreaches.of_tip
      refine .again hbest' hs' (work_le_of_not_worse hgood) ?_ fun _ h => nomatch h
      rwa [hkeeps.worse]
    · exact .spoiled ha hfailed
  | @progress s' hclimbs hreaches hfailed hend =>
    obtain ⟨hkeeps, best', hbest', hs', hgood, htop'⟩ := hreaches.of_tip
    simp only
    by_cases htip : s'.tip = b
    · rw [if_pos htip]
      exact .returned (work_le_of_not_worse (htip ▸ htarget.not_worse))
    rw [if_neg htip]
    refine .again hbest' hs' (work_le_of_not_worse hgood) (by rwa [hkeeps.worse]) ?_
    rintro _ ⟨⟩
    have htip' : m.tree.Below s'.tip b := by
      rcases hclimbs.tip with heq | hmem'
      · exact heq ▸ hfork.below
      · exact ((hmem _).mp hmem').1
    refine ⟨hkeeps.known ▸ htarget.known, fun a hab hna => ?_, ?_⟩
    · rw [hfailed]
      exact htarget.unfailed a hab fun ha => hna ((hfork.last hab ha).trans hclimbs.up)
    · rw [hkeeps.worse]
      rcases hbest' with rfl | rfl
      · exact htarget.not_worse
      · exact not_worse_of_below htip'

theorem activateTurn_spec (hs : s.Consistent best) (htop : ¬s.worse best s.tip)
    {pindexMostWork : Option ι} (htarget : ∀ b ∈ pindexMostWork, s.Target best b)
    (results : ι → ConnectResult) : TurnEnds best (s.activateTurn pindexMostWork results) := by
  cases pindexMostWork with
  | some b => exact turnTowards_spec hs htop (htarget b rfl)
  | none =>
    obtain ⟨b, s', hfind, -, hs', hkeeps, -, htip, htarget', -⟩ := hs.findMostWorkChain
    have hturn : s.activateTurn none results = s'.turnTowards b results := by
      simp [activateTurn, hfind]
    rw [hturn]
    exact turnTowards_spec hs' (by rwa [hkeeps.worse, htip]) htarget'

/-! ## Flags stay -/

variable (P : BlockIndex m → Prop)

def StepEnd.All : StepEnd m → Prop
  | .progress s | .invalidFound s | .systemError s => P s
  | .assertFailed => True

def Turn.All : Turn m → Prop
  | .returned s | .again s _ | .systemError s => P s
  | .assertFailed => True

theorem raiseValidity_failed {e : IndexEntry} {nUpTo : ℕ} :
    (e.raiseValidity nUpTo).failed = e.failed := by
  unfold IndexEntry.raiseValidity
  split_ifs <;> rfl

theorem connected_failed : ((s.connected b).entry a).failed = (s.entry a).failed := by
  unfold connected modify
  simp only [Function.update_apply]
  split_ifs with heq
  · rw [raiseValidity_failed, heq]
    rfl
  · rfl

section
variable (results : ι → ConnectResult)

theorem connectBlocks_failed {pindexOldTip : ι} : ∀ s : BlockIndex m, (s.entry a).failed →
    (connectBlocks pindexOldTip results path s).All fun s' => (s'.entry a).failed := by
  induction path with
  | nil => exact fun s ha => ha
  | cons b rest ih =>
    intro s ha
    unfold connectBlocks connectTip
    by_cases hp : m.pprev b ≠ some s.tip
    · rw [if_pos hp]
      trivial
    rw [if_neg hp]
    by_cases hdata : ¬(s.entry b).haveData
    · rw [if_pos hdata]
      exact ha
    rw [if_neg hdata]
    cases results b with
    | systemError => exact ha
    | invalid corruptionPossible =>
      cases corruptionPossible with
      | true => exact ha
      | false => exact invalidBlockFound_failed.mpr (.inr ha)
    | ok =>
      have ha' : ((s.connected b).entry a).failed := by rwa [connected_failed]
      simp only
      split_ifs
      · trivial
      · exact ha'
      · exact ih _ ha'

theorem disconnectTo_entry (fork : ι) (fuel : ℕ) :
    ∀ s : BlockIndex m, (disconnectTo fork fuel s).All fun s' => s'.entry = s.entry := by
  induction fuel with
  | zero => exact fun s => rfl
  | succ fuel ih =>
    intro s
    unfold disconnectTo
    split_ifs
    · rfl
    · cases hstep : s.disconnectTip with
      | none => rfl
      | some s' =>
        obtain ⟨p, -, rfl, -⟩ := disconnectTip_eq_some hstep
        exact ih _

theorem activateBestChainStep_failed (ha : (s.entry a).failed) :
    (s.activateBestChainStep b results).All fun s' => (s'.entry a).failed := by
  unfold activateBestChainStep
  cases s.findFork b with
  | none => trivial
  | some fork =>
    have hentry := disconnectTo_entry fork (m.nHeight s.tip) s
    simp only
    generalize disconnectTo fork (m.nHeight s.tip) s = down at hentry
    cases down with
    | progress s' =>
      refine connectBlocks_failed results _ ?_
      rw [show s'.entry = s.entry from hentry]
      exact ha
    | invalidFound s' =>
      change (s'.entry a).failed
      rwa [show s'.entry = s.entry from hentry]
    | systemError s' =>
      change (s'.entry a).failed
      rwa [show s'.entry = s.entry from hentry]
    | assertFailed => trivial

theorem turnTowards_failed (ha : (s.entry a).failed) :
    (s.turnTowards b results).All fun s' => (s'.entry a).failed := by
  unfold turnTowards
  split_ifs
  · exact ha
  · have hstep := activateBestChainStep_failed results (b := b) ha
    generalize s.activateBestChainStep b results = stop at hstep
    cases stop with
    | progress s' =>
      simp only
      split_ifs <;> exact hstep
    | invalidFound s' => exact hstep
    | systemError s' => exact hstep
    | assertFailed => trivial

theorem findMostWorkLoop_failed (fuel : ℕ) : ∀ s : BlockIndex m, (s.entry a).failed →
    ∀ r ∈ findMostWorkLoop fuel s, (r.2.entry a).failed := by
  induction fuel with
  | zero => exact fun s _ r hr => nomatch hr
  | succ fuel ih =>
    intro s ha r hr
    unfold findMostWorkLoop at hr
    cases hbest : s.bestCandidate with
    | none =>
      rw [hbest] at hr
      obtain rfl := Option.some.inj hr
      exact ha
    | some b =>
      rw [hbest] at hr
      simp only at hr
      cases hcheck : s.checkPath (m.nHeight b + 1) b with
      | usable =>
        rw [hcheck] at hr
        obtain rfl := Option.some.inj hr
        exact ha
      | unusable above pindexTest =>
        rw [hcheck] at hr
        exact ih _ (removeChain_keeps.failed ha) r hr
      | assertFailed =>
        rw [hcheck] at hr
        cases hr

theorem activateTurn_failed (pindexMostWork : Option ι) (ha : (s.entry a).failed) :
    (s.activateTurn pindexMostWork results).All fun s' => (s'.entry a).failed := by
  cases pindexMostWork with
  | some b => exact turnTowards_failed results ha
  | none =>
    have hfind := findMostWorkLoop_failed (s.candidates.card + 1) s ha
    unfold activateTurn
    cases hfound : s.findMostWorkChain with
    | none => trivial
    | some found =>
      obtain ⟨r, s'⟩ := found
      have ha' := hfind _ hfound
      cases r with
      | none => exact ha'
      | some b => exact turnTowards_failed results ha'

theorem activateBestChain_failed :
    ∀ (s : BlockIndex m) (pindexMostWork : Option ι), (s.entry a).failed →
      ((activateBestChain runs s pindexMostWork).final.entry a).failed := by
  induction runs with
  | nil => exact fun s _ ha => ha
  | cons results rest ih =>
    intro s pindexMostWork ha
    have hturn := activateTurn_failed results pindexMostWork ha
    unfold activateBestChain
    generalize s.activateTurn pindexMostWork results = turn at hturn
    cases turn with
    | returned s' => exact hturn
    | again s' pindexMostWork' => exact ih s' _ hturn
    | systemError s' => exact hturn
    | assertFailed => exact ha

end

theorem activateBestChain_work :
    ∀ (s : BlockIndex m) (pindexMostWork : Option ι) (best : ι), s.Consistent best →
      ¬s.worse best s.tip → (∀ b ∈ pindexMostWork, s.Target best b) →
      (activateBestChain runs s pindexMostWork).ending = .returned →
      m.nChainWork best ≤ m.nChainWork (activateBestChain runs s pindexMostWork).final.tip ∨
        ∃ a, (m.tree.Below a best ∨
            ∃ x ∈ (activateBestChain runs s pindexMostWork).turns, x.active a) ∧
          ((activateBestChain runs s pindexMostWork).final.entry a).failed := by
  induction runs with
  | nil =>
    intro s pindexMostWork best _ _ _ hend
    cases hend
  | cons results rest ih =>
    intro s pindexMostWork best hs htop htarget
    have hturn := activateTurn_spec hs htop htarget results
    unfold activateBestChain
    generalize s.activateTurn pindexMostWork results = turn at hturn
    intro hend
    cases hturn with
    | returned hwork => exact .inl hwork
    | @again s' best' next hbest hs' hgood htop' htarget' =>
      rcases ih s' next best' hs' htop' htarget' hend with hwork | ⟨a, ha, hfailed⟩
      · exact .inl (hgood.trans hwork)
      · refine .inr ⟨a, ?_, hfailed⟩
        rcases ha with ha | ⟨x, hx, ha⟩
        · rcases hbest with rfl | rfl
          · exact .inl ha
          · exact .inr ⟨s', mem_cons_self, ha⟩
        · exact .inr ⟨x, mem_cons_of_mem _ hx, ha⟩
    | @spoiled s' a next ha hfailed =>
      exact .inr ⟨a, .inl ha, activateBestChain_failed s' next hfailed⟩
    | systemError => cases hend

end BlockIndex
end ImageCoin
