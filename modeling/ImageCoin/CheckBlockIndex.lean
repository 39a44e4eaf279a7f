import ImageCoin.MostWorkChain

/-!
# The assertions of `CheckBlockIndex`

`CheckBlockIndex` visits every entry and compares it with what it remembers of the way from the
genesis block.
-/

namespace ImageCoin

open BlockTree

namespace BlockIndex

variable {ι : Type} [LinearOrder ι] {m : BlockHeaders ι} {property : ι → Bool}

/-! ## The assertions -/

def firstOn (m : BlockHeaders ι) (property : ι → Bool) (b : ι) : Option ι :=
  (m.tree.path b).find? property

variable (s : BlockIndex m)

def firstInvalid : ι → Option ι :=
  firstOn m fun a => (s.entry a).failedValid

def firstMissing : ι → Option ι :=
  firstOn m fun a => !(s.entry a).haveData

def firstNeverProcessed : ι → Option ι :=
  firstOn m fun a => (s.entry a).nTx == 0

def firstNotValid (level : ℕ) : ι → Option ι :=
  firstOn m fun a => (m.pprev a).isSome && decide ((s.entry a).validity < level)

def foundInUnlinked (b : ι) : Prop :=
  ∃ p, m.pprev b = some p ∧ (p, b) ∈ s.unlinked

/-- The assertions of `CheckBlockIndex` at one block, in the order of the source. -/
structure Checked (s : BlockIndex m) (b : ι) : Prop where
  root : m.pprev b = none → b = m.genesis ∧ s.active b
  nSequenceId : (s.entry b).nChainTx = 0 → (s.entry b).nSequenceId = 0
  unpruned : s.fHavePruned = false → ((s.entry b).haveData = false ↔ (s.entry b).nTx = 0) ∧
      s.firstMissing b = s.firstNeverProcessed b
  pruned : s.fHavePruned → (s.entry b).haveData → 0 < (s.entry b).nTx
  haveUndo : (s.entry b).haveUndo → (s.entry b).haveData
  transactions : blockValidTransactions ≤ (s.entry b).validity ↔ 0 < (s.entry b).nTx
  neverProcessed : s.firstNeverProcessed b ≠ none ↔ (s.entry b).nChainTx = 0
  notTransactionsValid : s.firstNotValid blockValidTransactions b ≠ none ↔ (s.entry b).nChainTx = 0
  nHeight : m.nHeight b = (m.pprev b).elim 0 (m.nHeight · + 1)
  nChainWork : ∀ p, m.pprev b = some p → m.nChainWork p ≤ m.nChainWork b
  pskip : m.nHeight b < 2 ∨ ∃ skip, m.pskip b = some skip ∧ m.nHeight skip < m.nHeight b
  treeValid : s.firstNotValid blockValidTree b = none
  chainValid : blockValidChain ≤ (s.entry b).validity → s.firstNotValid blockValidChain b = none
  scriptsValid : blockValidScripts ≤ (s.entry b).validity →
    s.firstNotValid blockValidScripts b = none
  notFailed : s.firstInvalid b = none → ¬(s.entry b).failed
  candidate : ¬s.worse b s.tip → s.firstNeverProcessed b = none →
    s.firstInvalid b = none → s.firstMissing b = none ∨ b = s.tip → b ∈ s.candidates
  not_candidate : s.worse b s.tip ∨ s.firstNeverProcessed b ≠ none → b ∉ s.candidates
  unlinked_of_neverProcessed : m.pprev b ≠ none → (s.entry b).haveData →
    s.firstNeverProcessed b ≠ none → s.firstInvalid b = none → s.foundInUnlinked b
  data_of_unlinked : ¬(s.entry b).haveData → ¬s.foundInUnlinked b
  missing_of_unlinked : s.firstMissing b = none → ¬s.foundInUnlinked b
  unlinked_of_missing : m.pprev b ≠ none → (s.entry b).haveData →
    s.firstNeverProcessed b = none → s.firstMissing b ≠ none →
    s.fHavePruned ∧ (¬s.worse b s.tip → b ∉ s.candidates →
      s.firstInvalid b = none → s.foundInUnlinked b)

def CheckBlockIndex : Prop := ∀ b ∈ s.known, s.Checked b

/-- The pointers lead into the index. -/
structure WellFormed (s : BlockIndex m) : Prop where
  genesis_known : m.genesis ∈ s.known
  pprev_known : ∀ {b p}, b ∈ s.known → m.pprev b = some p → p ∈ s.known
  tip_known : s.tip ∈ s.known
  candidates_known : s.candidates ⊆ s.known

variable {s} {a b c p : ι}

section

omit [LinearOrder ι]

theorem below_mem_known (hpprev : ∀ {b p}, b ∈ s.known → m.pprev b = some p → p ∈ s.known)
    (hab : m.tree.Below a b) (hb : b ∈ s.known) : a ∈ s.known := by
  refine hab.induction (motive := fun b => b ∈ s.known → a ∈ s.known) id ?_ hb
  intro b p hp _ ih hb
  exact ih (hpprev hb hp)

theorem WellFormed.known_of_below (hs : s.WellFormed) (hab : m.tree.Below a b)
    (hb : b ∈ s.known) : a ∈ s.known :=
  below_mem_known hs.pprev_known hab hb

theorem firstOn_eq_none : firstOn m property b = none ↔ ∀ a, m.tree.Below a b → ¬property a := by
  simp only [firstOn, List.find?_eq_none, mem_path]

theorem firstOn_of_below (hab : m.tree.Below a b)
    (hb : firstOn m property b = none) : firstOn m property a = none :=
  firstOn_eq_none.mpr fun c hca => firstOn_eq_none.mp hb c (hca.trans hab)

end

theorem CheckBlockIndex.candidatesLinked (hcheck : s.CheckBlockIndex)
    (hs : s.WellFormed) : s.CandidatesLinked := by
  intro b hb a hab _
  have hknown := hs.candidates_known hb
  have hprocessed : s.firstNeverProcessed b = none := by
    by_contra hnever
    exact (hcheck b hknown).not_candidate (Or.inr hnever) hb
  have hlinked := (hcheck a (hs.known_of_below hab hknown)).neverProcessed
  left
  intro hzero
  exact hlinked.mpr hzero (firstOn_of_below hab hprocessed)

/-- What holds of the entries whatever the active chain and the candidates are. -/
structure EntriesBase (s : BlockIndex m) : Prop where
  genesis_known : m.genesis ∈ s.known
  pprev_known : ∀ {b p}, b ∈ s.known → m.pprev b = some p → p ∈ s.known
  root : ∀ {b}, b ∈ s.known → m.pprev b = none → b = m.genesis
  fresh : ∀ {b}, b ∉ s.known → s.entry b = {}
  treeValid : ∀ {b}, b ∈ s.known → blockValidTree ≤ (s.entry b).validity
  haveUndo : ∀ {b}, (s.entry b).haveUndo → (s.entry b).haveData
  haveData : ∀ {b}, (s.entry b).haveData → (s.entry b).nTx ≠ 0
  unpruned : s.fHavePruned = false → ∀ {b}, (s.entry b).nTx ≠ 0 → (s.entry b).haveData
  transactions : ∀ {b}, blockValidTransactions ≤ (s.entry b).validity ↔ (s.entry b).nTx ≠ 0
  chainValid : ∀ {b}, blockValidChain ≤ (s.entry b).validity →
    blockValidScripts ≤ (s.entry b).validity
  scriptsValid : ∀ {b p}, blockValidScripts ≤ (s.entry b).validity →
    m.pprev b = some p → p = m.genesis ∨ blockValidScripts ≤ (s.entry p).validity
  failed_linked : ∀ {b}, (s.entry b).failed → (s.entry b).nChainTx ≠ 0
  failed_below : ∀ {b}, (s.entry b).failed → ∃ a, m.tree.Below a b ∧ (s.entry a).failedValid

/-- A block is linked when it and its parent have their transactions. -/
structure EntriesOk (s : BlockIndex m) : Prop extends EntriesBase s where
  nSequenceId : ∀ {b}, (s.entry b).nChainTx = 0 → (s.entry b).nSequenceId = 0
  linked_iff : ∀ {b}, (s.entry b).nChainTx ≠ 0 ↔ (s.entry b).nTx ≠ 0 ∧
    ∀ p, m.pprev b = some p → (s.entry p).nChainTx ≠ 0

structure ActiveOk (s : BlockIndex m) : Prop where
  tip_known : s.tip ∈ s.known
  tip_linked : (s.entry s.tip).nChainTx ≠ 0
  scripts : ∀ {b}, s.active b → b ≠ m.genesis → blockValidScripts ≤ (s.entry b).validity
  not_failed : ∀ {b}, s.active b → ¬(s.entry b).failed

/-- The candidates are the blocks that are at least as good as `best`, which is
the tip or, while a reorganization is under way, the tip to go back to. -/
structure CandidatesOk (s : BlockIndex m) (best : ι) : Prop where
  linked : ∀ {b}, b ∈ s.candidates → (s.entry b).nChainTx ≠ 0
  not_worse : ∀ {b}, b ∈ s.candidates → ¬s.worse b best
  best_mem : best ∈ s.candidates
  best_usable : s.Usable best
  complete : ∀ {b}, (s.entry b).nChainTx ≠ 0 →
    (∀ a, m.tree.Below a b → ¬(s.entry a).failedValid) → ¬s.worse b best →
    (s.entry b).haveData → b ∈ s.candidates ∨ s.foundInUnlinked b

/-- The blocks that wait are not active, and wait for a block without data. -/
structure UnlinkedOk (s : BlockIndex m) : Prop where
  pprev : ∀ {p b}, (p, b) ∈ s.unlinked → m.pprev b = some p
  haveData : ∀ {p b}, (p, b) ∈ s.unlinked → (s.entry b).haveData
  not_active : ∀ {p b}, (p, b) ∈ s.unlinked → ¬s.active b
  not_candidate : ∀ {p b}, (p, b) ∈ s.unlinked → b ∉ s.candidates
  parent : ∀ {p b}, (p, b) ∈ s.unlinked → s.foundInUnlinked p ∨
    (¬(s.entry p).haveData ∧ ¬s.active p)
  waiting : ∀ {b}, (s.entry b).nTx ≠ 0 → (s.entry b).nChainTx = 0 → s.foundInUnlinked b

/-- The invariant of all steps. -/
structure Consistent (s : BlockIndex m) (best : ι) : Prop where
  entries : s.EntriesOk
  chain : s.ActiveOk
  candidates : s.CandidatesOk best
  unlinked : s.UnlinkedOk

/-! ## What follows from it -/

omit [LinearOrder ι] in
theorem EntriesBase.known_of_nTx (hs : s.EntriesBase) (hb : (s.entry b).nTx ≠ 0) : b ∈ s.known := by
  by_contra hnew
  exact hb (by rw [hs.fresh hnew])

namespace EntriesOk

omit [LinearOrder ι]

theorem known_of_linked (hs : s.EntriesOk) (hb : (s.entry b).nChainTx ≠ 0) : b ∈ s.known :=
  hs.known_of_nTx (hs.linked_iff.mp hb).1

theorem known_of_below (hs : s.EntriesOk) (hab : m.tree.Below a b)
    (hb : b ∈ s.known) : a ∈ s.known :=
  below_mem_known hs.pprev_known hab hb

theorem genesis_below (hs : s.EntriesOk) (hb : b ∈ s.known) : m.tree.Below m.genesis b := by
  induction hn : m.nHeight b generalizing b with
  | zero =>
    cases hp : m.pprev b with
    | none => exact hs.root hb hp ▸ below_refl _
    | some p =>
      have hheight := m.nHeight_child hp
      omega
  | succ n ih =>
    cases hp : m.pprev b with
    | none => exact hs.root hb hp ▸ below_refl _
    | some p =>
      have hheight := m.nHeight_child hp
      exact (ih (hs.pprev_known hb hp) (by omega)).trans (below_parent hp)

theorem linked_iff_below (hs : s.EntriesOk) :
    (s.entry b).nChainTx ≠ 0 ↔ ∀ a, m.tree.Below a b → (s.entry a).nTx ≠ 0 := by
  induction hn : m.nHeight b generalizing b with
  | zero =>
    rw [hs.linked_iff]
    cases hp : m.pprev b with
    | none =>
      constructor
      · intro hb a hab
        obtain rfl := hab.eq_of_root hp
        exact hb.1
      · intro hall
        exact ⟨hall b (below_refl b), fun p hp => nomatch hp⟩
    | some p =>
      have hheight := m.nHeight_child hp
      omega
  | succ n ih =>
    rw [hs.linked_iff]
    cases hp : m.pprev b with
    | none =>
      have hheight := m.nHeight_root hp
      omega
    | some p =>
      have hheight := m.nHeight_child hp
      have hparent := ih (b := p) (by omega)
      constructor
      · rintro ⟨hb, hlinked⟩ a hab
        rcases (below_iff hp).mp hab with rfl | hap
        · exact hb
        · exact hparent.mp (hlinked p rfl) a hap
      · intro hall
        refine ⟨hall b (below_refl b), ?_⟩
        rintro q ⟨⟩
        exact hparent.mpr fun a hap => hall a (hap.trans (below_parent hp))

theorem linked_of_below (hs : s.EntriesOk) (hab : m.tree.Below a b)
    (hb : (s.entry b).nChainTx ≠ 0) : (s.entry a).nChainTx ≠ 0 :=
  hs.linked_iff_below.mpr fun c hca => hs.linked_iff_below.mp hb c (hca.trans hab)

theorem scriptsValid_below (hs : s.EntriesOk) (hab : m.tree.Below a b)
    (hb : blockValidScripts ≤ (s.entry b).validity) (ha : a ∈ s.known)
    (hne : m.pprev a ≠ none) : blockValidScripts ≤ (s.entry a).validity := by
  have hgenesis : a ≠ m.genesis := by
    rintro rfl
    exact hne m.pprev_genesis
  refine (hab.induction (motive := fun b =>
    (b = m.genesis ∨ blockValidScripts ≤ (s.entry b).validity) →
      a = m.genesis ∨ blockValidScripts ≤ (s.entry a).validity)
    id ?_ (Or.inr hb)).resolve_left hgenesis
  intro b p hp _ ih hb
  rcases hb with rfl | hb
  · exact absurd (hp.symm.trans m.pprev_genesis) (by simp)
  · exact ih (hs.scriptsValid hb hp)

end EntriesOk

omit [LinearOrder ι] in
theorem UnlinkedOk.exists_missing (hs : s.UnlinkedOk) (hb : s.foundInUnlinked b) :
    ∃ a, m.tree.Below a b ∧ ¬(s.entry a).haveData ∧ ¬s.active a := by
  induction hn : m.nHeight b generalizing b with
  | zero =>
    obtain ⟨p, hp, -⟩ := hb
    have hheight := m.nHeight_child hp
    omega
  | succ n ih =>
    obtain ⟨p, hp, hmem⟩ := hb
    have hheight := m.nHeight_child hp
    rcases hs.parent hmem with hp' | ⟨hdata, hactive⟩
    · obtain ⟨a, hap, ha⟩ := ih hp' (by omega)
      exact ⟨a, hap.trans (below_parent hp), ha⟩
    · exact ⟨p, below_parent hp, hdata, hactive⟩

theorem Consistent.mem_candidates {best : ι} (hs : s.Consistent best)
    (hlinked : (s.entry b).nChainTx ≠ 0) (hvalid : ∀ a, m.tree.Below a b → ¬(s.entry a).failedValid)
    (hgood : ¬s.worse b best) (hdata : (s.entry b).haveData)
    (hall : ∀ a, m.tree.Below a b → ¬s.active a → (s.entry a).haveData) : b ∈ s.candidates := by
  rcases hs.candidates.complete hlinked hvalid hgood hdata with hmem | hfound
  · exact hmem
  · obtain ⟨a, hab, hmissing, hactive⟩ := hs.unlinked.exists_missing hfound
    exact absurd (hall a hab hactive) hmissing

theorem Consistent.wellFormed {best : ι} (hs : s.Consistent best) : s.WellFormed where
  genesis_known := hs.entries.genesis_known
  pprev_known := hs.entries.pprev_known
  tip_known := hs.chain.tip_known
  candidates_known := fun _ hb => hs.entries.known_of_linked (hs.candidates.linked hb)

omit [LinearOrder ι] in
theorem pskip_lower (hheight : 2 ≤ m.nHeight b) :
    ∃ skip, m.pskip b = some skip ∧ m.nHeight skip < m.nHeight b := by
  cases hp : m.pprev b with
  | none =>
    have hroot := m.nHeight_root hp
    omega
  | some p =>
    have hchild := m.nHeight_child hp
    have hless : getSkipHeight (m.nHeight b) < m.nHeight b :=
      getSkipHeight_lt (by omega)
    obtain ⟨skip, hskip⟩ := exists_ancestor (t := m.tree)
      (h := getSkipHeight (m.nHeight b)) (by change _ ≤ m.nHeight p; omega)
    refine ⟨skip, ?_, ?_⟩
    · rw [m.pskip_built, ChainEntries.buildSkip, hp, Option.bind_some,
        BlockChains.getAncestor_eq (by omega)]
      exact hskip
    · have hat : m.nHeight skip = _ := (height_of_ancestor hskip).1
      omega

theorem Consistent.checkBlockIndex (hs : s.Consistent s.tip) : s.CheckBlockIndex := by
  intro b hb
  have he := hs.entries
  have hgenesis : (s.entry m.genesis).nChainTx ≠ 0 :=
    he.linked_of_below (he.genesis_below hs.chain.tip_known) hs.chain.tip_linked
  have hnever : s.firstNeverProcessed b = none ↔ (s.entry b).nChainTx ≠ 0 := by
    rw [he.linked_iff_below, firstNeverProcessed, firstOn_eq_none]
    simp
  have hinvalid : s.firstInvalid b = none ↔
      ∀ a, m.tree.Below a b → ¬(s.entry a).failedValid := firstOn_eq_none
  have hmissing : s.firstMissing b = none ↔ ∀ a, m.tree.Below a b → (s.entry a).haveData := by
    rw [firstMissing, firstOn_eq_none]
    simp
  have hnotValid : ∀ level, s.firstNotValid level b = none ↔
      ∀ a, m.tree.Below a b → m.pprev a ≠ none → level ≤ (s.entry a).validity := by
    intro level
    rw [firstNotValid, firstOn_eq_none]
    simp [Option.isSome_iff_ne_none]
  have hnotRoot : ∀ a, m.tree.Below a b → a ≠ m.genesis → m.pprev a ≠ none :=
    fun a hab hne hp => hne (he.root (he.known_of_below hab hb) hp)
  refine
    { root := fun hp => ?_
      nSequenceId := he.nSequenceId
      unpruned := fun hpruned => ⟨⟨fun hdata => ?_, fun hnTx => ?_⟩, ?_⟩
      pruned := fun _ hdata => Nat.pos_of_ne_zero (he.haveData hdata)
      haveUndo := he.haveUndo
      transactions := by rw [he.transactions, Nat.pos_iff_ne_zero]
      neverProcessed := by rw [ne_eq, hnever, not_not]
      notTransactionsValid := ?_
      nHeight := ?_
      nChainWork := fun p hp => (m.nChainWork_child hp).le
      pskip := ?_
      treeValid := (hnotValid _).mpr fun a hab _ =>
        he.treeValid (he.known_of_below hab hb)
      chainValid := fun hv => (hnotValid _).mpr fun a hab hne => ?_
      scriptsValid := fun hv => (hnotValid _).mpr fun a hab hne =>
        he.scriptsValid_below hab hv (he.known_of_below hab hb) hne
      notFailed := fun hnone hfailed => ?_
      candidate := fun hgood hproc hvalid hdata => ?_
      not_candidate := fun hbad hmem => ?_
      unlinked_of_neverProcessed := fun _ hdata hproc _ =>
        hs.unlinked.waiting (he.haveData hdata) (by rwa [ne_eq, hnever, not_not] at hproc)
      data_of_unlinked := fun hdata hfound => ?_
      missing_of_unlinked := fun hnone hfound => ?_
      unlinked_of_missing := fun _ hdata hproc hmiss => ⟨?_, fun hgood hnot hvalid => ?_⟩ }
  · rw [he.root hb hp]
    exact ⟨rfl, he.genesis_below hs.chain.tip_known⟩
  · by_contra hnTx
    rw [he.unpruned hpruned hnTx] at hdata
    cases hdata
  · by_contra hdata
    exact he.haveData (by simpa using hdata) hnTx
  · rw [firstMissing, firstNeverProcessed]
    congr 1
    funext a
    have hiff : (s.entry a).haveData ↔ (s.entry a).nTx ≠ 0 :=
      ⟨he.haveData, he.unpruned hpruned⟩
    rw [Bool.eq_iff_iff, Bool.not_eq_true', ← Bool.not_eq_true, hiff, not_not, beq_iff_eq]
  · rw [ne_eq, hnotValid, ← not_iff_not, not_not, ← ne_eq, he.linked_iff_below]
    constructor
    · intro hall a hab
      by_cases hne : a = m.genesis
      · exact hne ▸ (he.linked_iff.mp hgenesis).1
      · exact he.transactions.mp (hall a hab (hnotRoot a hab hne))
    · exact fun hall a hab _ => he.transactions.mpr (hall a hab)
  · cases hp : m.pprev b with
    | none => exact m.nHeight_root hp
    | some p => exact m.nHeight_child hp
  · by_cases hheight : m.nHeight b < 2
    · exact Or.inl hheight
    · exact Or.inr (pskip_lower (not_lt.mp hheight))
  · have hscripts := he.scriptsValid_below hab (he.chainValid hv) (he.known_of_below hab hb) hne
    exact le_trans (by decide) hscripts
  · obtain ⟨a, hab, ha⟩ := he.failed_below hfailed
    exact hinvalid.mp hnone a hab ha
  · rcases hdata with hdata | rfl
    · exact hs.mem_candidates (hnever.mp hproc) (hinvalid.mp hvalid) hgood
        (hmissing.mp hdata b (below_refl b)) fun a hab _ => hmissing.mp hdata a hab
    · exact hs.candidates.best_mem
  · rcases hbad with hworse | hproc
    · exact hs.candidates.not_worse hmem hworse
    · exact hproc (hnever.mpr (hs.candidates.linked hmem))
  · obtain ⟨p, -, hmem⟩ := hfound
    exact hdata (hs.unlinked.haveData hmem)
  · obtain ⟨a, hab, hmiss, -⟩ := hs.unlinked.exists_missing hfound
    exact hmiss (hmissing.mp hnone a hab)
  · rw [ne_eq, hmissing] at hmiss
    push Not at hmiss
    obtain ⟨a, hab, ha⟩ := hmiss
    by_contra hpruned
    have hnTx := he.linked_iff_below.mp (hnever.mp hproc) a hab
    exact ha (he.unpruned (by simpa using hpruned) hnTx)
  · exact (hs.candidates.complete (hnever.mp hproc) (hinvalid.mp hvalid) hgood
      hdata).resolve_left hnot

end BlockIndex
end ImageCoin
