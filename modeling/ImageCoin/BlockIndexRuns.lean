import ImageCoin.ActivateBestChain
import ImageCoin.IndexUpdates
import ImageCoin.StepRuns

/-!
# Runs of the block index

Headers and blocks arrive in any order, the best chain is activated turn by turn, since the
lock is released between the turns, and block files are pruned.
-/

namespace ImageCoin

namespace BlockIndex

open StepRuns Finset
variable {ι : Type} [LinearOrder ι] {m : BlockHeaders ι} {s : BlockIndex m} {a b c p : ι}

inductive IndexOp (ι : Type) where
  | addToBlockIndex (b : ι)
  | receivedBlockTransactions (b : ι) (nTx nFile : ℕ)
  | activate (results : ι → ConnectResult)
  | pruneOneBlockFile (fileNumber : ℕ)

def genesisEntry : IndexEntry where
  validity := blockValidTransactions
  haveData := true
  nTx := 1
  nChainTx := 1
  nSequenceId := 1

def initial (m : BlockHeaders ι) : BlockIndex m where
  known := {m.genesis}
  entry := fun b => if b = m.genesis then genesisEntry else {}
  tip := m.genesis
  candidates := {m.genesis}
  unlinked := []
  nBlockSequenceId := 2
  fHavePruned := false

/-- One operation, with the block that `ActivateBestChain` is working towards.
There is no result if an assertion fails or the header has no parent. -/
def step : BlockIndex m × Option ι → IndexOp ι → Option (BlockIndex m × Option ι)
  | (s, target), .addToBlockIndex b => (s.addToBlockIndex b).map fun s' => (s', target)
  | (s, target), .receivedBlockTransactions b nTx nFile =>
    some (s.receivedBlockTransactions b nTx nFile, target)
  | (s, target), .activate results =>
    match s.activateTurn target results with
    | .returned s' => some (s', none)
    | .again s' target' => some (s', target')
    | .systemError s' => some (s', none)
    | .assertFailed => none
  | (s, target), .pruneOneBlockFile fileNumber =>
    some (s.pruneOneBlockFile fileNumber, target)

/-- What the callers check: `AcceptBlockHeader` looks up the parent, and
`AcceptBlock` takes the data of a block once, of blocks that are not marked
invalid and have transactions.  Connections succeed or find the block invalid. -/
def Allowed (s : BlockIndex m) : IndexOp ι → Prop
  | .addToBlockIndex b => b ∈ s.known ∨ ∃ p ∈ s.known, m.pprev b = some p
  | .receivedBlockTransactions b nTx _ => b ∈ s.known ∧ ¬(s.entry b).haveData ∧
      ¬(s.entry b).failed ∧ nTx ≠ 0
  | .activate results => ∀ b, results b ≠ .systemError
  | .pruneOneBlockFile _ => True

/-- The way to a block does not leave the active chain, or it can be left and the
blocks above the fork connect until one is at least as good as the tip. -/
def Completes (s : BlockIndex m) (results : ι → ConnectResult) (b : ι) : Prop :=
  m.tree.Below s.tip b ∨ (∀ a, s.active a → ¬m.tree.Below a b →
      (s.entry a).haveData ∧ (s.entry a).haveUndo) ∧
    ∃ c, m.tree.Below c b ∧ ¬s.active c ∧ ¬s.worse c s.tip ∧
      ∀ a, m.tree.Below a c → ¬s.active a → results a = .ok

def Harmless : BlockIndex m × Option ι → IndexOp ι → Prop
  | _, .addToBlockIndex _ => True
  | (s, _), .receivedBlockTransactions b _ _ => b ∉ s.candidates ∧ s.unlinked.Nodup
  | (s, target), .activate results =>
    target = none → ∀ b, s.IsMostWork (some b) → s.Completes results b
  | (s, _), .pruneOneBlockFile fileNumber => ∀ b, (s.entry b).nFile = fileNumber →
      (s.entry b).haveData → (s.entry b).nChainTx ≠ 0

instance [Fintype ι] (s : BlockIndex m) : DecidablePred s.Allowed
  | .addToBlockIndex b =>
    inferInstanceAs (Decidable (b ∈ s.known ∨ ∃ p ∈ s.known, m.pprev b = some p))
  | .receivedBlockTransactions b nTx _ => inferInstanceAs (Decidable (b ∈ s.known ∧
      ¬(s.entry b).haveData ∧ ¬(s.entry b).failed ∧ nTx ≠ 0))
  | .activate results => inferInstanceAs (Decidable (∀ b, results b ≠ .systemError))
  | .pruneOneBlockFile _ => .isTrue trivial

instance [Fintype ι] (s : BlockIndex m) (results : ι → ConnectResult) (b : ι) :
    Decidable (s.Completes results b) :=
  inferInstanceAs (Decidable (m.tree.Below s.tip b ∨ (∀ a, s.active a → ¬m.tree.Below a b →
      (s.entry a).haveData ∧ (s.entry a).haveUndo) ∧
    ∃ c, m.tree.Below c b ∧ ¬s.active c ∧ ¬s.worse c s.tip ∧
      ∀ a, m.tree.Below a c → ¬s.active a → results a = .ok))

instance [Fintype ι] : ∀ (x : BlockIndex m × Option ι) op, Decidable (Harmless x op)
  | _, .addToBlockIndex _ => .isTrue trivial
  | (s, _), .receivedBlockTransactions b _ _ =>
    inferInstanceAs (Decidable (b ∉ s.candidates ∧ s.unlinked.Nodup))
  | (s, target), .activate results => inferInstanceAs (Decidable (target = none →
      ∀ b, s.IsMostWork (some b) → s.Completes results b))
  | (s, _), .pruneOneBlockFile fileNumber =>
    inferInstanceAs (Decidable (∀ b, (s.entry b).nFile = fileNumber →
      (s.entry b).haveData → (s.entry b).nChainTx ≠ 0))

/-! ## The invariant of a run -/

theorem initial_entry : (initial m).entry b = if b = m.genesis then genesisEntry else {} := rfl

theorem initial_consistent : (initial m).Consistent (initial m).tip := by
  have hself : (initial m).entry m.genesis = genesisEntry := if_pos rfl
  have hother : ∀ {b}, b ≠ m.genesis → (initial m).entry b = {} := fun hb => if_neg hb
  have hfailed : ∀ b, ((initial m).entry b).failed = false := by
    intro b
    rw [initial_entry]
    split_ifs <;> rfl
  have hlow : ∀ b, ¬blockValidChain ≤ ((initial m).entry b).validity := by
    intro b
    rw [initial_entry]
    split_ifs <;> decide
  have hactive : ∀ {b}, (initial m).active b → b = m.genesis :=
    fun hb => BlockTree.Below.eq_of_root hb m.pprev_genesis
  refine
    { entries :=
        { genesis_known := mem_singleton_self _
          pprev_known := fun {b p} hb hp => ?_
          root := fun hb _ => mem_singleton.mp hb
          fresh := fun hb => hother fun heq => hb (mem_singleton.mpr heq)
          treeValid := fun {b} hb => ?_
          haveUndo := fun {b} => ?_
          haveData := fun {b} => ?_
          unpruned := fun _ {b} => ?_
          transactions := fun {b} => ?_
          chainValid := fun {b} hb => absurd hb (hlow b)
          scriptsValid := fun {b p} hb => absurd (le_trans (by decide) hb) (hlow b)
          failed_linked := fun {b} hb => by rw [hfailed] at hb; cases hb
          failed_below := fun {b} hb => by rw [hfailed] at hb; cases hb
          nSequenceId := fun {b} => ?_
          linked_iff := fun {b} => ?_ }
      chain :=
        { tip_known := mem_singleton_self _
          tip_linked := ?_
          scripts := fun hb hne => absurd (hactive hb) hne
          not_failed := fun {b} _ => by rw [hfailed]; decide }
      candidates :=
        { linked := fun {b} hb => ?_
          not_worse := fun {b} hb => ?_
          best_mem := mem_singleton_self _
          best_usable := fun a ha hna => absurd ha hna
          complete := fun {b} hb _ _ _ => ?_ }
      unlinked :=
        { pprev := fun hmem => nomatch hmem
          haveData := fun hmem => nomatch hmem
          not_active := fun hmem => nomatch hmem
          not_candidate := fun hmem => nomatch hmem
          parent := fun hmem => nomatch hmem
          waiting := fun {b} => ?_ } }
  · rw [mem_singleton.mp hb, m.pprev_genesis] at hp
    cases hp
  · rw [mem_singleton.mp hb, hself]
    decide
  · rw [initial_entry]
    split_ifs <;> decide
  · rw [initial_entry]
    split_ifs <;> decide
  · rw [initial_entry]
    split_ifs <;> decide
  · rw [initial_entry]
    split_ifs <;> decide
  · rw [initial_entry]
    split_ifs <;> decide
  · by_cases hb : b = m.genesis
    · rw [hb, hself, m.pprev_genesis]
      exact iff_of_true (by decide) ⟨by decide, fun p hp => nomatch hp⟩
    · rw [hother hb]
      exact iff_of_false (by decide) fun h => h.1 rfl
  · change ((initial m).entry m.genesis).nChainTx ≠ 0
    rw [hself]
    decide
  · rw [mem_singleton.mp hb, hself]
    decide
  · rw [mem_singleton.mp hb]
    exact worse_irrefl
  · by_cases heq : b = m.genesis
    · exact Or.inl (mem_singleton.mpr heq)
    · rw [hother heq] at hb
      exact absurd rfl hb
  · rw [initial_entry]
    split_ifs
    · exact fun _ h => nomatch h
    · exact fun h _ => absurd rfl h

/-- The index is consistent, and the block an activation is working towards is
above the tip. -/
structure Working (x : BlockIndex m × Option ι) : Prop where
  consistent : x.1.Consistent x.1.tip
  target : ∀ b ∈ x.2, x.1.Target x.1.tip b ∧ m.tree.Below x.1.tip b

variable {target : Option ι} {s' : BlockIndex m}

theorem target_of_frame (htarget : ∀ b ∈ target, s.Target s.tip b ∧ m.tree.Below s.tip b)
    (htip : s'.tip = s.tip) (hknown : s.known ⊆ s'.known)
    (hfailed : ∀ a ∈ s.known, (s'.entry a).failed → (s.entry a).failed) (hs : s.EntriesOk) :
    ∀ b ∈ target, s'.Target s'.tip b ∧ m.tree.Below s'.tip b := by
  intro b hb
  obtain ⟨htarget, hbelow⟩ := htarget b hb
  rw [htip]
  refine ⟨⟨hknown htarget.known, fun a hab hna ha => ?_, not_worse_of_below hbelow⟩, hbelow⟩
  rw [active, htip] at hna
  exact htarget.unfailed a hab hna (hfailed a (hs.known_of_below hab htarget.known) ha)

theorem Reaches.consistent (h : s.Reaches s.tip s')
    (hgood : ¬s.worse s'.tip s.tip) : s'.Consistent s'.tip := by
  obtain ⟨-, best', hbest', hs', -, htop⟩ := h
  rcases hbest' with rfl | rfl
  · have heq : s'.tip = s.tip := by
      by_contra hne
      exact htop (worse_of_not_worse hgood hne)
    exact heq.symm ▸ hs'
  · exact hs'

def TurnOk : Turn m → Prop
  | .returned s => s.Consistent s.tip
  | .again s target => Working (s, target)
  | .systemError s => s.Consistent s.tip
  | .assertFailed => False

variable {results : ι → ConnectResult}

theorem turnTowards_ok (hs : s.Consistent s.tip) (htarget : s.Target s.tip b)
    (hdata : m.tree.Below s.tip b ∨ ∀ a, m.tree.Below a b → ¬s.active a → (s.entry a).haveData)
    (hcompletes : s.Completes results b) : TurnOk (s.turnTowards b results) := by
  unfold turnTowards
  by_cases hdone : b = s.tip
  · rw [if_pos hdone]
    exact hs
  rw [if_neg hdone]
  obtain ⟨fork, hfork, hstep⟩ := activateBestChainStep_spec hs worse_irrefl
    htarget.known htarget.unfailed results
  rcases hstep with ⟨s', -, a, ha, habove, hmissing⟩ | ⟨path, hmem, hconnects⟩
  · -- The blocks above the fork can be disconnected.
    exfalso
    rcases hcompletes with hbelow | ⟨hundo, -⟩
    · exact habove (hfork.last (ha.trans hbelow) ha)
    · exact hmissing (hundo a ha fun hab => habove (hfork.last hab ha))
  have hclimb : ∀ {s'}, ({ s with tip := fork } : BlockIndex m).Climbs s.tip results
      path s' → ¬s.worse s'.tip s.tip := by
    intro s' hclimbs
    have htip : m.tree.Below s.tip b → ¬s.worse s'.tip s.tip := fun hbelow =>
      not_worse_of_below ((hfork.last hbelow (BlockTree.below_refl _)).trans hclimbs.up)
    rcases hcompletes with hbelow | ⟨-, c, hcb, hna, hgood, hok⟩
    · exact htip hbelow
    rcases hdata with hbelow | hdata
    · exact htip hbelow
    have hconnect : ∀ a ∈ path, m.tree.Below a c → results a = .ok ∧ (s.entry a).haveData := by
      intro a ha hac
      obtain ⟨hab, hna⟩ := (hmem a).mp ha
      exact ⟨hok a hac hna, hdata a hab hna⟩
    rcases hclimbs.passes c ((hmem c).mpr ⟨hcb, hna⟩) hconnect with hup | hwork
    · exact not_worse_trans (not_worse_of_below hup) hgood
    · exact fun hworse => not_worse_of_worse hworse (worse_of_work hwork)
  generalize s.activateBestChainStep b results = stop at hconnects
  cases hconnects with
  | systemError hclimbs hreaches => exact hreaches.of_tip.consistent (hclimb hclimbs)
  | @invalidFound s' hclimbs hend =>
    rcases hend with hreaches | ⟨a, ha, -, hbelow, -⟩
    · exact ⟨hreaches.of_tip.consistent (hclimb hclimbs), fun _ h => nomatch h⟩
    · exact absurd hbelow ((hmem a).mp ha).2
  | @progress s' hclimbs hreaches hfailed hend =>
    have hs' := hreaches.of_tip.consistent (hclimb hclimbs)
    simp only
    split_ifs with htip
    · exact hs'
    · refine ⟨hs', ?_⟩
      rintro _ ⟨⟩
      have hbelow : m.tree.Below s'.tip b := by
        rcases hclimbs.tip with heq | hmem'
        · exact heq ▸ hfork.below
        · exact ((hmem _).mp hmem').1
      refine ⟨⟨hreaches.1.known ▸ htarget.known, fun a hab hna => ?_,
        not_worse_of_below hbelow⟩, hbelow⟩
      rw [hfailed]
      exact htarget.unfailed a hab fun ha => hna ((hfork.last hab ha).trans hclimbs.up)

theorem activateTurn_ok
    (hs : Working (s, target)) (hharmless : Harmless (s, target) (.activate results)) :
    TurnOk (s.activateTurn target results) := by
  cases target with
  | some b =>
    obtain ⟨htarget, hbelow⟩ := hs.target b rfl
    exact turnTowards_ok hs.consistent htarget (Or.inl hbelow) (Or.inl hbelow)
  | none =>
    obtain ⟨b, s', hfind, hmost, hs', -, hflags, htip, htarget, husable⟩ :=
      hs.consistent.findMostWorkChain
    have hturn : s.activateTurn none results = s'.turnTowards b results := by
      simp [activateTurn, hfind]
    have hcompletes : s'.Completes results b := by
      have hbefore := hharmless rfl b hmost
      unfold Completes active at hbefore ⊢
      simpa only [htip, hflags.haveData, hflags.haveUndo, hflags.worse] using hbefore
    rw [hturn]
    exact turnTowards_ok (htip.symm ▸ hs') (htip.symm ▸ htarget)
      (Or.inr fun a hab hna => (husable a hab hna).2) hcompletes

variable {x : BlockIndex m × Option ι}

theorem step_working {op : IndexOp ι} (hx : Working x) (hallowed : x.1.Allowed op)
    (hharmless : Harmless x op) : ∃ y, step x op = some y ∧ Working y := by
  obtain ⟨s, target⟩ := x
  obtain ⟨hs, htarget⟩ := hx
  cases op with
  | addToBlockIndex b =>
    by_cases hb : b ∈ s.known
    · have hadd : s.addToBlockIndex b = some s := if_pos hb
      exact ⟨(s, target), by simp only [step, hadd, Option.map_some], hs, htarget⟩
    · obtain ⟨p, hp, hparent⟩ := hallowed.resolve_left hb
      have hadd : s.addToBlockIndex b = some (s.withHeader b) := by
        simp only [addToBlockIndex, if_neg hb, hparent, if_pos hp]
        rfl
      refine ⟨(s.withHeader b, target), by simp only [step, hadd, Option.map_some],
        hs.withHeader hb hp hparent, ?_⟩
      refine target_of_frame htarget rfl (subset_insert _ _) (fun a _ ha => ?_) hs.entries
      rwa [(withHeader_sameLinks hs.entries hb).failed] at ha
  | receivedBlockTransactions b nTx nFile =>
    obtain ⟨hknown, hdata, hfailed, hnTx⟩ := hallowed
    obtain ⟨hcand, hnodup⟩ := hharmless
    obtain ⟨htip, hknown', hfailed'⟩ := received_frame hfailed
    refine ⟨_, rfl, hs.received hknown hdata hfailed hnTx hcand hnodup,
      target_of_frame htarget htip hknown'.symm.subset (fun a _ ha => ?_) hs.entries⟩
    rwa [hfailed'] at ha
  | activate results =>
    have hturn := activateTurn_ok ⟨hs, htarget⟩ hharmless
    simp only [step]
    generalize s.activateTurn target results = turn at hturn
    cases turn with
    | returned s' => exact ⟨_, rfl, hturn, fun _ h => nomatch h⟩
    | again s' target' => exact ⟨_, rfl, hturn⟩
    | systemError s' => exact ⟨_, rfl, hturn, fun _ h => nomatch h⟩
    | assertFailed => exact absurd hturn id
  | pruneOneBlockFile fileNumber =>
    refine ⟨_, rfl, hs.prune hharmless,
      target_of_frame htarget rfl (Finset.Subset.refl _) (fun a _ ha => ?_) hs.entries⟩
    rwa [prune_same.failed] at ha

variable {ops : List (IndexOp ι)}

theorem run_working (hx : Working x) (hallowed : Throughout step (fun x op => x.1.Allowed op) x ops)
    (hharmless : Throughout step Harmless x ops) : ∃ y, run step x ops = some y ∧ Working y :=
  exists_run (fun hx h => step_working hx h.1 h.2) hx (hallowed.and hharmless)

def indexAfter (m : BlockHeaders ι) (ops : List (IndexOp ι)) : BlockIndex m :=
  ((run step (initial m, none) ops).getD (initial m, none)).1

theorem initial_working : Working (initial m, none) :=
  ⟨initial_consistent, fun _ h => nomatch h⟩

theorem indexAfter_consistent
    (hallowed : Throughout step (fun x op => x.1.Allowed op) (initial m, none) ops)
    (hharmless : Throughout step Harmless (initial m, none) ops) :
    (indexAfter m ops).Consistent (indexAfter m ops).tip := by
  obtain ⟨x, hx, hworking⟩ := run_working initial_working hallowed hharmless
  rw [indexAfter, hx]
  exact hworking.consistent

/-- The assertions hold after every run whose operations are allowed and
harmless, and none of them fails on the way. -/
theorem checkBlockIndex_of_run {ops : List (IndexOp ι)}
    (hallowed : Throughout step (fun x op => x.1.Allowed op) (initial m, none) ops)
    (hharmless : Throughout step Harmless (initial m, none) ops) :
    ∃ x, run step (initial m, none) ops = some x ∧ x.1.CheckBlockIndex := by
  obtain ⟨x, hx, hworking⟩ := run_working initial_working hallowed hharmless
  exact ⟨x, hx, hworking.consistent.checkBlockIndex⟩

def forkHeaders : BlockHeaders (Fin 3) where
  pprev := ![none, some 0, some 0]
  pskip := ![none, some 0, some 0]
  nHeight := ![0, 1, 1]
  nVersion := fun _ => 1
  nTime := ![0, 600, 700]
  nBits := fun _ => 0x207fffff
  nHeight_root := by decide
  nHeight_child := by decide
  pskip_built := by decide
  genesis := 0
  pprev_genesis := rfl
  nChainWork := ![2, 4, 5]
  nChainWork_child := by decide

/-- Both children arrive; the first one is connected before the second one, which
has more work, is there. -/
def bothChildren (results : Fin 3 → ConnectResult) : List (IndexOp (Fin 3)) :=
  [.addToBlockIndex 1, .receivedBlockTransactions 1 1 1, .activate fun _ => .ok,
    .addToBlockIndex 2, .receivedBlockTransactions 2 1 2, .activate results]

def failsAt (b : Fin 3) : Fin 3 → ConnectResult :=
  fun a => if a = b then .invalid false else .ok

/-- The second child turns out to be invalid.  The genesis block is left as tip,
and it is not a candidate any more. -/
theorem checkBlockIndex_failedReorganization :
    Throughout step (fun x op => x.1.Allowed op) (initial forkHeaders, none)
        (bothChildren (failsAt 2)) ∧
      ∃ x, run step (initial forkHeaders, none) (bothChildren (failsAt 2)) = some x ∧
        ¬x.1.CheckBlockIndex := by
  refine ⟨by decide +kernel, ?_⟩
  have hrun : (run step (initial forkHeaders, none) (bothChildren (failsAt 2))).any
      fun x => decide (x.1.tip ∈ x.1.known ∧ x.1.firstNeverProcessed x.1.tip = none ∧
        x.1.firstInvalid x.1.tip = none ∧ x.1.tip ∉ x.1.candidates) := by
    decide +kernel
  obtain ⟨x, hx, hend⟩ := (Option.any_eq_true _ _).mp hrun
  obtain ⟨hknown, hprocessed, hvalid, htip⟩ := of_decide_eq_true hend
  refine ⟨x, hx, fun hcheck => htip ?_⟩
  exact (hcheck x.1.tip hknown).candidate worse_irrefl hprocessed hvalid (Or.inr rfl)

theorem checkBlockIndex_of_run_reorganization : ∃ x, run step (initial forkHeaders, none)
        (bothChildren (fun _ => .ok) ++ [.pruneOneBlockFile 1]) = some x ∧
      x.1.CheckBlockIndex :=
  checkBlockIndex_of_run (by decide +kernel) (by decide +kernel)

/-- The search finds the best usable candidate.  A run that returns by itself does
not lower the work of the tip unless a block that was active is found invalid. -/
theorem activateBestChain_bestWork (m : BlockHeaders ι) :
    (∀ s : BlockIndex m, s.WellFormed → s.CheckBlockIndex →
      ∃ r s', s.findMostWorkChain = some (r, s') ∧ s.IsMostWork r) ∧
    ∀ s : BlockIndex m, s.Consistent s.tip → ∀ runs,
      (activateBestChain runs s none).ending = .returned →
      m.nChainWork s.tip ≤ m.nChainWork (activateBestChain runs s none).final.tip ∨
        ∃ x ∈ s :: (activateBestChain runs s none).turns, ∃ b, x.active b ∧
          ((activateBestChain runs s none).final.entry b).failed := by
  refine ⟨fun s hs hcheck => ?_, fun s hs runs hend => ?_⟩
  · obtain ⟨r, s', hfind, -, hmost, -⟩ := findMostWorkChain_spec (P := fun _ => True)
      (fun _ _ _ => trivial) trivial (hcheck.candidatesLinked hs)
    exact ⟨r, s', hfind, hmost⟩
  · refine (activateBestChain_work s none s.tip hs worse_irrefl
      (fun _ h => nomatch h) hend).imp_right ?_
    rintro ⟨b, hb | ⟨x, hx, hb⟩, hfailed⟩
    · exact ⟨s, List.mem_cons_self, b, hb, hfailed⟩
    · exact ⟨x, List.mem_cons_of_mem _ hx, b, hb, hfailed⟩

/-- The second child of the fork has arrived, and the first one is still active. -/
def secondWaits : BlockIndex forkHeaders :=
  indexAfter forkHeaders (bothChildren fun _ => .ok).dropLast

theorem secondWaits_consistent : secondWaits.Consistent secondWaits.tip :=
  indexAfter_consistent (by decide +kernel) (by decide +kernel)

/-- A system error after the first child has been disconnected leaves the genesis
block as tip, although no block is invalid. -/
theorem activateBestChain_systemError : secondWaits.Consistent secondWaits.tip ∧
      forkHeaders.nChainWork
          (activateBestChain [fun _ => .systemError] secondWaits none).final.tip <
        forkHeaders.nChainWork secondWaits.tip ∧
      ∀ b, ¬((activateBestChain [fun _ => .systemError] secondWaits none).final.entry b).failed :=
  ⟨secondWaits_consistent, by decide +kernel, by decide +kernel⟩

theorem activateBestChain_bestWork_second :
    (∃ r s', secondWaits.findMostWorkChain = some (r, s') ∧ secondWaits.IsMostWork r) ∧
      (activateBestChain [fun _ => .ok] secondWaits none).ending = .returned ∧
      (forkHeaders.nChainWork secondWaits.tip ≤ forkHeaders.nChainWork
          (activateBestChain [fun _ => .ok] secondWaits none).final.tip ∨
        ∃ x ∈ secondWaits :: (activateBestChain [fun _ => .ok] secondWaits none).turns,
          ∃ b, x.active b ∧ ((activateBestChain [fun _ => .ok]
            secondWaits none).final.entry b).failed) := by
  have hend : (activateBestChain [fun _ => .ok] secondWaits none).ending = .returned := by
    decide +kernel
  have hs := secondWaits_consistent
  obtain ⟨hsearch, hrun⟩ := activateBestChain_bestWork forkHeaders
  exact ⟨hsearch secondWaits hs.wellFormed hs.checkBlockIndex, hend, hrun secondWaits hs _ hend⟩

end BlockIndex
end ImageCoin
