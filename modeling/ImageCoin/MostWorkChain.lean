import ImageCoin.BlockIndex

/-!
# The chain with the most work

`FindMostWorkChain` takes the best candidate and throws it out, with the blocks under it, if
its way to the active chain is not usable.
-/

namespace ImageCoin

open BlockTree Finset

namespace BlockIndex

variable {ι : Type} [LinearOrder ι] {m : BlockHeaders ι} {s : BlockIndex m}
  {a b c : ι} {above : List ι} {pindexTest : ι}

theorem worse_iff : s.worse a b ↔ s.key a < s.key b := by
  unfold worse key
  rw [Prod.Lex.toLex_lt_toLex, Prod.Lex.toLex_lt_toLex]
  split_ifs with hgt hlt hseqlt hseqgt haddr <;> simp <;> grind

omit [LinearOrder ι] in
theorem key_injective : Function.Injective s.key := by
  intro a b heq
  have hpair := congrArg (fun k : Key ι => (ofLex (ofLex k).2).2) heq
  exact OrderDual.toDual_inj.mp hpair

theorem worse_irrefl : ¬s.worse b b := by
  rw [worse_iff]
  exact lt_irrefl _

theorem not_worse_trans (hab : ¬s.worse a b) (hbc : ¬s.worse b c) : ¬s.worse a c := by
  rw [worse_iff, not_lt] at *
  exact hbc.trans hab

theorem worse_of_not_worse (hab : ¬s.worse a b) (hne : a ≠ b) : s.worse b a := by
  rw [worse_iff, not_lt] at *
  exact lt_of_le_of_ne hab fun heq => hne (key_injective heq).symm

theorem worse_of_worse_of_not_worse (hab : s.worse a b) (hcb : ¬s.worse c b) : s.worse a c := by
  rw [worse_iff] at *
  exact lt_of_lt_of_le hab (not_lt.mp hcb)

theorem not_worse_of_worse (hab : s.worse a b) : ¬s.worse b a := by
  rw [worse_iff] at *
  exact hab.asymm

theorem worse_of_work (hwork : m.nChainWork a < m.nChainWork b) : s.worse a b := by
  rw [worse_iff, key, key, Prod.Lex.toLex_lt_toLex]
  exact .inl hwork

theorem work_le_of_not_worse (hab : ¬s.worse a b) : m.nChainWork b ≤ m.nChainWork a := by
  by_contra hlt
  exact hab (worse_of_work (not_le.mp hlt))

theorem worse_congr {s s' : BlockIndex m} (ha : (s'.entry a).nSequenceId = (s.entry a).nSequenceId)
    (hb : (s'.entry b).nSequenceId = (s.entry b).nSequenceId) : s'.worse a b = s.worse a b := by
  rw [worse, worse, ha, hb]

omit [LinearOrder ι] in
theorem nChainWork_le_of_below (hab : m.tree.Below a b) : m.nChainWork a ≤ m.nChainWork b := by
  refine hab.induction (motive := fun b => m.nChainWork a ≤ m.nChainWork b) le_rfl ?_
  intro b p hp _ ih
  exact ih.trans (m.nChainWork_child hp).le

omit [LinearOrder ι] in
theorem nChainWork_lt_of_below (hab : m.tree.Below a b) (hne : a ≠ b) :
    m.nChainWork a < m.nChainWork b := by
  cases hp : m.pprev b with
  | none => exact absurd (hab.eq_of_root hp) hne
  | some p =>
    exact (nChainWork_le_of_below (hab.to_parent hne hp)).trans_lt (m.nChainWork_child hp)

theorem worse_of_below (hab : m.tree.Below a b) (hne : a ≠ b) : s.worse a b :=
  worse_of_work (nChainWork_lt_of_below hab hne)

theorem not_worse_of_below (hab : m.tree.Below a b) : ¬s.worse b a := by
  intro hworse
  by_cases heq : a = b
  · exact worse_irrefl (heq ▸ hworse)
  · exact not_worse_of_worse hworse (worse_of_below hab heq)

theorem bestCandidate_eq_none (hnone : s.bestCandidate = none) : s.candidates = ∅ := by
  unfold bestCandidate at hnone
  split at hnone
  · next hmax => simpa using max_eq_bot.mp hmax
  · cases hnone

theorem bestCandidate_eq_some (hsome : s.bestCandidate = some b) :
    b ∈ s.candidates ∧ ∀ c ∈ s.candidates, ¬s.worse b c := by
  unfold bestCandidate at hsome
  split at hsome
  · cases hsome
  · next best hmax =>
      obtain ⟨c, hc, rfl⟩ := mem_image.mp (mem_of_max hmax)
      obtain rfl : c = b := Option.some.inj hsome
      refine ⟨hc, fun d hd => ?_⟩
      rw [worse_iff, not_lt]
      exact le_max_of_eq (mem_image_of_mem _ hd) hmax

/-- `FindMostWorkChain` finds nothing wrong on the way from the active chain to the block. -/
def Usable (s : BlockIndex m) (b : ι) : Prop :=
  ∀ a, m.tree.Below a b → ¬s.active a → ¬(s.entry a).failed ∧ (s.entry a).haveData

instance [Fintype ι] (s : BlockIndex m) : DecidablePred s.Usable := fun b =>
  inferInstanceAs (Decidable (∀ a, m.tree.Below a b → ¬s.active a →
    ¬(s.entry a).failed ∧ (s.entry a).haveData))

/-- The block that stops the walk, and the blocks that it passed. -/
structure Blocked (s : BlockIndex m) (b : ι) (above : List ι) (pindexTest : ι) : Prop where
  below : m.tree.Below pindexTest b
  not_active : ¬s.active pindexTest
  stops : (s.entry pindexTest).failed ∨ ¬(s.entry pindexTest).haveData
  mem_above : ∀ a, a ∈ above ↔ m.tree.Below a b ∧ m.tree.Below pindexTest a ∧ a ≠ pindexTest
  above_ok : ∀ a ∈ above, ¬(s.entry a).failed ∧ (s.entry a).haveData

omit [LinearOrder ι] in
theorem active_of_below (hab : m.tree.Below a b) (hb : s.active b) : s.active a :=
  BlockTree.Below.trans hab hb

omit [LinearOrder ι] in
theorem Blocked.cons {pindexTest p : ι} (hblocked : s.Blocked p above pindexTest)
    (hp : m.pprev b = some p) (hok : ¬(s.entry b).failed ∧ (s.entry b).haveData) :
    s.Blocked b (b :: above) pindexTest where
  below := hblocked.below.trans (below_parent hp)
  not_active := hblocked.not_active
  stops := hblocked.stops
  mem_above := by
    intro a
    have hne : b ≠ pindexTest := by
      rintro rfl
      exact not_below_parent hp hblocked.below
    rw [List.mem_cons, hblocked.mem_above, below_iff (t := m.tree) hp]
    constructor
    · rintro (rfl | ⟨hap, hrest⟩)
      · exact ⟨.inl rfl, hblocked.below.trans (below_parent hp), hne⟩
      · exact ⟨.inr hap, hrest⟩
    · rintro ⟨rfl | hap, hrest⟩
      · exact .inl rfl
      · exact .inr ⟨hap, hrest⟩
  above_ok := by
    intro a ha
    rcases List.mem_cons.mp ha with rfl | ha
    · exact hok
    · exact hblocked.above_ok a ha

theorem checkPath_cases {fuel : ℕ} : ∀ b, m.nHeight b < fuel →
    (∀ a, m.tree.Below a b → ¬s.active a → (s.entry a).nChainTx ≠ 0 ∨ m.nHeight a = 0) →
    (s.checkPath fuel b = .usable ∧ s.Usable b) ∨
      ∃ above pindexTest, s.checkPath fuel b = .unusable above pindexTest ∧
        s.Blocked b above pindexTest := by
  induction fuel with
  | zero =>
    intro b hfuel
    omega
  | succ fuel ih =>
    intro b hfuel hlinked
    unfold checkPath
    by_cases hactive : s.active b
    · rw [if_pos hactive]
      exact .inl ⟨rfl, fun a hab hna => absurd (active_of_below hab hactive) hna⟩
    rw [if_neg hactive, if_neg (by
      have := hlinked b (below_refl b) hactive
      tauto)]
    by_cases hstop : (s.entry b).failed ∨ ¬(s.entry b).haveData
    · rw [if_pos hstop]
      refine .inr ⟨[], b, rfl, below_refl b, hactive, hstop, ?_, ?_⟩
      · intro a
        refine ⟨fun ha => absurd ha List.not_mem_nil, fun ha => ?_⟩
        exact absurd (ha.1.antisymm ha.2.1) ha.2.2
      · exact fun a ha => absurd ha List.not_mem_nil
    · rw [if_neg hstop]
      have hok : ¬(s.entry b).failed ∧ (s.entry b).haveData := by
        simpa only [not_or, not_not] using hstop
      cases hp : m.pprev b with
      | none =>
        refine .inl ⟨rfl, fun a hab _ => ?_⟩
        obtain rfl := hab.eq_of_root hp
        exact hok
      | some p =>
        have hheight := m.nHeight_child hp
        rcases ih p (by omega) (fun a hap => hlinked a (hap.trans (below_parent hp))) with
          ⟨hcheck, husable⟩ | ⟨above, pindexTest, hcheck, hblocked⟩
        · refine .inl ⟨by simp only [hcheck, PathCheck.cons], ?_⟩
          intro a hab hna
          rcases (below_iff hp).mp hab with rfl | hap
          · exact hok
          · exact husable a hap hna
        · exact .inr ⟨b :: above, pindexTest,
            by simp only [hcheck, PathCheck.cons], hblocked.cons hp hok⟩

section
variable (hblocked : s.Blocked b above pindexTest)

omit [LinearOrder ι]

include hblocked

theorem Blocked.above_not_active (ha : a ∈ above) : ¬s.active a :=
  fun hactive => hblocked.not_active (active_of_below ((hblocked.mem_above a).mp ha).2.1 hactive)

theorem Blocked.below_of_mem (ha : a ∈ pindexTest :: above) : m.tree.Below pindexTest a := by
  rcases List.mem_cons.mp ha with rfl | ha
  · exact below_refl a
  · exact ((hblocked.mem_above a).mp ha).2.1

theorem Blocked.mem_self : b ∈ pindexTest :: above := by
  rw [List.mem_cons, hblocked.mem_above]
  by_cases heq : b = pindexTest
  · exact .inl heq
  · exact .inr ⟨below_refl b, hblocked.below, heq⟩

theorem Blocked.not_usable (hc : m.tree.Below pindexTest c) : ¬s.Usable c := by
  intro husable
  obtain ⟨hfailed, hdata⟩ := husable pindexTest hc hblocked.not_active
  rcases hblocked.stops with hstop | hstop
  · exact hfailed hstop
  · exact hstop hdata

end

@[simp] theorem removeChain_tip : (s.removeChain above pindexTest).tip = s.tip := by
  unfold removeChain
  split_ifs <;> rfl

@[simp] theorem removeChain_candidates : (s.removeChain above pindexTest).candidates =
    s.candidates.filter (· ∉ pindexTest :: above) := by
  unfold removeChain
  split_ifs <;> rfl

@[simp] theorem removeChain_known : (s.removeChain above pindexTest).known = s.known := by
  unfold removeChain
  split_ifs <;> rfl

theorem removeChain_entry (above : List ι) (pindexTest a : ι) :
    (s.removeChain above pindexTest).entry a = s.entry a ∨
      ((s.entry pindexTest).failed ∧ a ∈ above ∧ (s.removeChain above pindexTest).entry a =
          { s.entry a with failedChild := true }) := by
  unfold removeChain
  split_ifs with hfailed
  · by_cases ha : a ∈ above
    · exact .inr ⟨hfailed, ha, if_pos ha⟩
    · exact .inl (if_neg ha)
  · exact .inl rfl

theorem removeChain_worse : (s.removeChain above pindexTest).worse a b = s.worse a b := by
  apply worse_congr
  · rcases removeChain_entry above pindexTest a with h | ⟨-, -, h⟩ <;>
      rw [h]
  · rcases removeChain_entry above pindexTest b with h | ⟨-, -, h⟩ <;>
      rw [h]

theorem removeChain_active : (s.removeChain above pindexTest).active a ↔ s.active a := by
  rw [active, active, removeChain_tip]

theorem removeChain_usable (hblocked : s.Blocked b above pindexTest) :
    (s.removeChain above pindexTest).Usable c ↔ s.Usable c := by
  constructor
  · intro husable a hac hna
    have hnew := husable a hac (by rwa [removeChain_active])
    rcases removeChain_entry above pindexTest a with h | ⟨-, -, h⟩
    · rwa [h] at hnew
    · rw [h] at hnew
      exact absurd (by simp [IndexEntry.failed]) hnew.1
  · intro husable a hac hna
    rw [removeChain_active] at hna
    rcases removeChain_entry above pindexTest a with h | ⟨-, ha, -⟩
    · rw [h]
      exact husable a hac hna
    · exact absurd husable (hblocked.not_usable
        ((hblocked.below_of_mem (List.mem_cons_of_mem _ ha)).trans hac))

theorem removeChain_card (hb : b ∈ s.candidates) (hblocked : s.Blocked b above pindexTest) :
    (s.removeChain above pindexTest).candidates.card < s.candidates.card := by
  rw [removeChain_candidates]
  refine card_lt_card (filter_ssubset.mpr ⟨b, hb, ?_⟩)
  exact not_not.mpr hblocked.mem_self

def CandidatesLinked (s : BlockIndex m) : Prop :=
  ∀ b ∈ s.candidates, ∀ a, m.tree.Below a b → ¬s.active a →
    (s.entry a).nChainTx ≠ 0 ∨ m.nHeight a = 0

def IsMostWork (s : BlockIndex m) : Option ι → Prop
  | none => ∀ c ∈ s.candidates, ¬s.Usable c
  | some b => b ∈ s.candidates ∧ s.Usable b ∧
      ∀ c ∈ s.candidates, s.Usable c → ¬s.worse b c

instance [Fintype ι] (s : BlockIndex m) : DecidablePred s.IsMostWork
  | none => inferInstanceAs (Decidable (∀ c ∈ s.candidates, ¬s.Usable c))
  | some b => inferInstanceAs (Decidable (b ∈ s.candidates ∧ s.Usable b ∧
      ∀ c ∈ s.candidates, s.Usable c → ¬s.worse b c))

theorem IsMostWork.unique {r r' : Option ι} (hr : s.IsMostWork r)
    (hr' : s.IsMostWork r') : r = r' := by
  cases r with
  | none =>
    cases r' with
    | none => rfl
    | some b' => exact absurd hr'.2.1 (hr b' hr'.1)
  | some b =>
    cases r' with
    | none => exact absurd hr.2.1 (hr' b hr.1)
    | some b' =>
      by_contra hne
      have hworse := worse_of_not_worse (hr.2.2 b' hr'.1 hr'.2.1) fun heq => hne (congrArg some heq)
      exact hr'.2.2 b hr.1 hr.2.1 hworse

theorem IsMostWork.of_removeChain {r : Option ι} (hblocked : s.Blocked b above pindexTest)
    (hr : (s.removeChain above pindexTest).IsMostWork r) : s.IsMostWork r := by
  have hkept : ∀ c ∈ s.candidates, s.Usable c →
      c ∈ (s.removeChain above pindexTest).candidates := by
    intro c hc husable
    rw [removeChain_candidates, mem_filter]
    exact ⟨hc, fun hmem => hblocked.not_usable (hblocked.below_of_mem hmem) husable⟩
  cases r with
  | none =>
    intro c hc husable
    exact hr c (hkept c hc husable) ((removeChain_usable hblocked).mpr husable)
  | some d =>
    obtain ⟨hd, husable, hbest⟩ := hr
    rw [removeChain_candidates, mem_filter] at hd
    refine ⟨hd.1, (removeChain_usable hblocked).mp husable, fun c hc hcu => ?_⟩
    have := hbest c (hkept c hc hcu) ((removeChain_usable hblocked).mpr hcu)
    rwa [removeChain_worse] at this

theorem CandidatesLinked.removeChain (hlinked : s.CandidatesLinked)
    (above : List ι) (pindexTest : ι) : (s.removeChain above pindexTest).CandidatesLinked := by
  intro b hb a hab hna
  rw [removeChain_candidates, mem_filter] at hb
  rw [removeChain_active] at hna
  have hold := hlinked b hb.1 a hab hna
  rcases removeChain_entry above pindexTest a with h | ⟨-, -, h⟩ <;>
    rwa [h]

variable {P : BlockIndex m → Prop}
variable
  (hkeep : ∀ {s b above pindexTest},
    P s → b ∈ s.candidates → s.Blocked b above pindexTest → P (s.removeChain above pindexTest))
include hkeep

theorem findMostWorkLoop_spec {fuel : ℕ} :
    ∀ s : BlockIndex m, P s → s.CandidatesLinked → s.candidates.card < fuel →
      ∃ r s', findMostWorkLoop fuel s = some (r, s') ∧ P s' ∧
        s.IsMostWork r ∧ s'.IsMostWork r ∧ s'.tip = s.tip := by
  induction fuel with
  | zero =>
    intro s _ _ hfuel
    omega
  | succ fuel ih =>
    intro s hs hlinked hfuel
    unfold findMostWorkLoop
    cases hbest : s.bestCandidate with
    | none =>
      have hempty := bestCandidate_eq_none hbest
      have hnone : s.IsMostWork none := by
        intro c hc
        rw [hempty] at hc
        exact absurd hc (notMem_empty c)
      exact ⟨none, s, rfl, hs, hnone, hnone, rfl⟩
    | some b =>
      obtain ⟨hb, hgreatest⟩ := bestCandidate_eq_some hbest
      rcases checkPath_cases b (Nat.lt_succ_self _) (hlinked b hb) with
        ⟨hcheck, husable⟩ | ⟨above, pindexTest, hcheck, hblocked⟩
      · simp only [hcheck]
        have hmost : s.IsMostWork (some b) :=
          ⟨hb, husable, fun c hc _ => hgreatest c hc⟩
        exact ⟨some b, s, rfl, hs, hmost, hmost, rfl⟩
      · simp [hcheck]
        have hcard := removeChain_card hb hblocked
        obtain ⟨r, s', hloop, hs', hr, hr', htip⟩ := ih _
          (hkeep hs hb hblocked) (hlinked.removeChain above pindexTest) (by omega)
        exact ⟨r, s', hloop, hs', hr.of_removeChain hblocked, hr', htip.trans removeChain_tip⟩

theorem findMostWorkChain_spec (hs : P s) (hlinked : s.CandidatesLinked) :
    ∃ r s', s.findMostWorkChain = some (r, s') ∧ P s' ∧
      s.IsMostWork r ∧ s'.IsMostWork r ∧ s'.tip = s.tip :=
  findMostWorkLoop_spec hkeep s hs hlinked (Nat.lt_succ_self _)

end BlockIndex
end ImageCoin
