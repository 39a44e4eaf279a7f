import ImageCoin.Chain
import ImageCoin.ChainParams

/-!
# Version-bits deployment states

`GetStateFor` answers for the block after `pindexPrev`: it goes back to the end of the previous
period, then period by period to a block whose state is cached or known, and forward again.
-/

namespace ImageCoin

open Function BlockTree Option
open Nat hiding count

inductive ThresholdState where
  | defined
  | started
  | lockedIn
  | active
  | failed
  deriving DecidableEq, Repr

structure ThresholdConditionChecker (ι : Type) where
  condition : ι → Bool
  beginTime : ℤ
  endTime : ℤ
  period : ℕ
  threshold : ℤ
  period_pos : 0 < period
  beginTime_le_endTime : beginTime ≤ endTime

/-- States for blocks whose height is a multiple of the period, by their
parents. -/
abbrev ThresholdConditionCache (ι : Type) := Option ι → Option ThresholdState

section
variable {ι : Type} (c : ThresholdConditionChecker ι) (m : ChainEntries ι)

/-- The last block of the period before the one that `pindexPrev` is in, or
`pindexPrev` if it ends a period. -/
def periodEnd (pindexPrev : Option ι) : Option ι :=
  pindexPrev.bind fun pindex =>
    m.getAncestor pindex (m.nHeight pindex - ((m.nHeight pindex + 1) % c.period : ℕ))

def periodBefore (pindex : ι) : Option ι :=
  m.getAncestor pindex (m.nHeight pindex - c.period)

def countConditions : ℕ → Option ι → ℤ → Option ℤ
  | 0, _, count => some count
  | _ + 1, none, _ => none
  | left + 1, some pindexCount, count =>
    countConditions left (m.pprev pindexCount)
      (if c.condition pindexCount then count + 1 else count)

def nextState (pindexPrev : ι) : ThresholdState → Option ThresholdState
  | .defined =>
    if c.endTime ≤ m.getMedianTimePast pindexPrev then some .failed
    else if c.beginTime ≤ m.getMedianTimePast pindexPrev then some .started
    else some .defined
  | .started =>
    if c.endTime ≤ m.getMedianTimePast pindexPrev then some .failed
    else do
      let count ← countConditions c m c.period (some pindexPrev) 0
      if c.threshold ≤ count then some .lockedIn else some .started
  | .lockedIn => some .active
  | .failed => some .failed
  | .active => some .active

def walkForward [DecidableEq ι] : List ι → ThresholdState → ThresholdConditionCache ι →
      Option (ThresholdState × ThresholdConditionCache ι)
  | [], state, cache => some (state, cache)
  | pindexPrev :: vToCompute, state, cache => do
      let stateNext ← nextState c m pindexPrev state
      walkForward vToCompute stateNext (update cache (some pindexPrev) (some stateNext))

def walkBack [DecidableEq ι] : ℕ → Option ι → ThresholdConditionCache ι → List ι →
      Option (Option ι × ThresholdConditionCache ι × List ι)
  | 0, _, _, _ => none
  | fuel + 1, pindexPrev, cache, vToCompute =>
    match cache pindexPrev with
    | some _ => some (pindexPrev, cache, vToCompute)
    | none =>
      match pindexPrev with
      | none =>
        -- The genesis block is by definition defined.
        some (none, update cache none (some .defined), vToCompute)
      | some pindex =>
        -- Every earlier block will be before the start time as well.
        if m.getMedianTimePast pindex < c.beginTime then
          some (some pindex, update cache (some pindex) (some .defined), vToCompute)
        else
          walkBack fuel (periodBefore c m pindex) cache (pindex :: vToCompute)

def getStateFor [DecidableEq ι] (pindexPrev : Option ι) (cache : ThresholdConditionCache ι) :
    Option (ThresholdState × ThresholdConditionCache ι) := do
  let pindexPrev := periodEnd c m pindexPrev
  let (pindexPrev, cache, vToCompute) ←
    walkBack c m (pindexPrev.elim 0 m.nHeight + 2) pindexPrev cache []
  let state ← cache pindexPrev
  walkForward c m vToCompute state cache

def getStatesFor [DecidableEq ι] :
    List (Option ι) → ThresholdConditionCache ι → Option (List ThresholdState)
  | [], _ => some []
  | pindexPrev :: queries, cache => do
      let (state, cache) ← getStateFor c m pindexPrev cache
      let states ← getStatesFor queries cache
      return state :: states

end

inductive DeploymentPos where
  | testdummy
  | csv
  | dip0001
  deriving DecidableEq, Repr

/-- A window or a threshold of zero stands for the one of the network. -/
structure BIP9Deployment where
  bit : ℕ
  nStartTime : ℤ
  nTimeout : ℤ
  nWindowSize : ℕ
  nThreshold : ℤ

def vDeployments : Network → DeploymentPos → BIP9Deployment
  | .main, .testdummy => ⟨28, 1199145601, 1230767999, 0, 0⟩
  | .main, .csv => ⟨0, 1486252800, 1517788800, 0, 0⟩
  | .main, .dip0001 => ⟨1, 1508025600, 1539561600, 4032, 3226⟩
  | .test, .testdummy => ⟨28, 1199145601, 1230767999, 0, 0⟩
  | .test, .csv => ⟨0, 1506556800, 1538092800, 0, 0⟩
  | .test, .dip0001 => ⟨1, 1505692800, 1537228800, 100, 50⟩
  | .regtest, .testdummy => ⟨28, 0, 999999999999, 0, 0⟩
  | .regtest, .csv => ⟨0, 0, 999999999999, 0, 0⟩
  | .regtest, .dip0001 => ⟨1, 0, 999999999999, 0, 0⟩

def nMinerConfirmationWindow : Network → ℕ
  | .main => 2016
  | .test => 2016
  | .regtest => 144

def nRuleChangeActivationThreshold : Network → ℤ
  | .main => 1916
  | .test => 1512
  | .regtest => 108

def versionBitsMask (net : Network) (pos : DeploymentPos) : UInt32 :=
  1 <<< UInt32.ofNat (vDeployments net pos).bit

def hasTopBits (nVersion : Int32) : Bool :=
  nVersion.toUInt32 &&& 0xE0000000 == 0x20000000

section
variable {ι : Type} (net : Network) (m : ChainEntries ι)

def versionBitsConditionChecker (pos : DeploymentPos) : ThresholdConditionChecker ι where
  condition pindex := hasTopBits (m.nVersion pindex) &&
    (m.nVersion pindex).toUInt32 &&& versionBitsMask net pos != 0
  beginTime := (vDeployments net pos).nStartTime
  endTime := (vDeployments net pos).nTimeout
  period :=
    if (vDeployments net pos).nWindowSize ≠ 0 then
      (vDeployments net pos).nWindowSize
    else nMinerConfirmationWindow net
  threshold :=
    if (vDeployments net pos).nThreshold ≠ 0 then
      (vDeployments net pos).nThreshold
    else nRuleChangeActivationThreshold net
  period_pos := by cases net <;> cases pos <;> decide
  beginTime_le_endTime := by cases net <;> cases pos <;> decide

end

section
variable {ι : Type} (c : ThresholdConditionChecker ι) (m : BlockChains ι)

def bip9Next (last : ι) : ThresholdState → ThresholdState
  | .defined =>
    if c.endTime ≤ m.getMedianTimePast last then .failed
    else if c.beginTime ≤ m.getMedianTimePast last then .started
    else .defined
  | .started =>
    if c.endTime ≤ m.getMedianTimePast last then .failed
    else if c.threshold ≤
        (((List.range c.period).filterMap (m.tree.up last)).countP c.condition : ℤ) then .lockedIn
    else .started
  | .lockedIn => .active
  | .active => .active
  | .failed => .failed

def bip9Period (tip : ι) : ℕ → ThresholdState
  | 0 => .defined
  | k + 1 =>
    match m.tree.ancestor tip ((k + 1) * c.period - 1) with
    | none => bip9Period tip k
    | some last => bip9Next c m last (bip9Period tip k)

def bip9State : Option ι → ThresholdState
  | none => .defined
  | some pindexPrev =>
    bip9Period c m pindexPrev ((m.nHeight pindexPrev + 1) / c.period)

end

/-! ## Periods on a chain -/

section
variable {ι : Type} {c : ThresholdConditionChecker ι} {m : BlockChains ι}

theorem bip9Period_ancestor {a b : ι} {height : ℕ} (ha : m.tree.ancestor b height = some a) {k : ℕ}
    (hk : k * c.period ≤ height + 1) : bip9Period c m a k = bip9Period c m b k := by
  induction k with
  | zero => rfl
  | succ k ih =>
    have hsplit : (k + 1) * c.period = k * c.period + c.period :=
      succ_mul k c.period
    rw [bip9Period, bip9Period, ancestor_of_ancestor ha (by omega), ih (by omega)]

theorem bip9State_of_ancestor {a b : ι} {height : ℕ} (ha : m.tree.ancestor b height = some a) :
    bip9State c m (some a) = bip9Period c m b ((m.nHeight a + 1) / c.period) := by
  obtain ⟨hheight, -⟩ := height_of_ancestor ha
  have hsame : m.nHeight a = height := hheight
  rw [bip9State, hsame]
  exact bip9Period_ancestor ha (div_mul_le_self _ _)

/-- The next block is the first of a period. -/
def EndsPeriod (c : ThresholdConditionChecker ι) (m : BlockChains ι) (b : ι) : Prop :=
  (m.nHeight b + 1) % c.period = 0

theorem bip9State_periodEnd (pindexPrev : Option ι) :
    bip9State c m (periodEnd c m.toChainEntries pindexPrev) = bip9State c m pindexPrev ∧
      ∀ b, periodEnd c m.toChainEntries pindexPrev = some b → EndsPeriod c m b := by
  cases pindexPrev with
  | none => exact ⟨rfl, fun b hb => absurd hb (some_ne_none b).symm⟩
  | some b =>
    have hpos := c.period_pos
    set next := m.nHeight b + 1
    have hdiv := div_add_mod next c.period
    rw [periodEnd, bind_some]
    by_cases hneg : (m.nHeight b : ℤ) - (next % c.period : ℕ) < 0
    · -- The first period is not over.
      have hnone : m.getAncestor b ((m.nHeight b : ℤ) - (next % c.period : ℕ)) = none := by
        rw [ChainEntries.getAncestor, if_pos (Or.inr hneg)]
      have hzero : next / c.period = 0 := by
        have hlt := mod_lt next hpos
        exact div_eq_of_lt (by omega)
      rw [hnone, bip9State, bip9State, hzero]
      exact ⟨rfl, fun b hb => absurd hb (some_ne_none b).symm⟩
    · rw [BlockChains.getAncestor_eq (not_lt.mp hneg)]
      obtain ⟨a, ha⟩ := exists_ancestor (t := m.tree)
        (h := ((m.nHeight b : ℤ) - (next % c.period : ℕ)).toNat) (by change _ ≤ m.nHeight b; omega)
      obtain ⟨hheight, -⟩ := height_of_ancestor ha
      have hend : m.nHeight a + 1 = c.period * (next / c.period) := by
        change m.nHeight a = _ at hheight
        omega
      rw [ha]
      refine ⟨?_, ?_⟩
      · rw [bip9State_of_ancestor ha, hend, Nat.mul_div_cancel_left _ hpos, bip9State]
      · intro b' hb'
        obtain rfl := some.inj hb'
        rw [EndsPeriod, hend, mul_mod_right]

variable {b : ι}

theorem bip9State_of_endsPeriod (hend : EndsPeriod c m b) :
    bip9State c m (some b) = bip9Next c m b (bip9State c m (periodBefore c m.toChainEntries b)) ∧
      c.period ≤ m.nHeight b + 1 ∧
      ∀ a, periodBefore c m.toChainEntries b = some a →
        EndsPeriod c m a ∧ m.nHeight a < m.nHeight b := by
  have hpos := c.period_pos
  obtain ⟨count, hcount⟩ : c.period ∣ m.nHeight b + 1 :=
    dvd_of_mod_eq_zero hend
  obtain ⟨k, rfl⟩ : ∃ k, count = k + 1 :=
    exists_eq_succ_of_ne_zero (by rintro rfl; omega)
  have hsplit : c.period * (k + 1) = c.period * k + c.period :=
    mul_succ _ _
  have hself : m.tree.ancestor b ((k + 1) * c.period - 1) = some b := by
    have hheight : (k + 1) * c.period - 1 = m.tree.height b := by
      change _ = m.nHeight b
      rw [mul_comm]
      omega
    rw [hheight, ancestor_self]
  rw [bip9State, hcount, Nat.mul_div_cancel_left _ hpos, bip9Period, hself]
  rw [periodBefore]
  by_cases hneg : (m.nHeight b : ℤ) - c.period < 0
  · -- The first period: nothing came before it.
    have hnone : m.getAncestor b ((m.nHeight b : ℤ) - c.period) = none := by
      rw [ChainEntries.getAncestor, if_pos (Or.inr hneg)]
    obtain rfl : k = 0 := by
      by_contra hk
      have hone := mul_le_mul_left c.period (pos_of_ne_zero hk)
      omega
    rw [hnone]
    exact ⟨rfl, by omega, fun a ha => absurd ha (some_ne_none a).symm⟩
  · rw [BlockChains.getAncestor_eq (not_lt.mp hneg)]
    obtain ⟨a, ha⟩ := exists_ancestor (t := m.tree) (h := ((m.nHeight b : ℤ) - c.period).toNat)
      (by change _ ≤ m.nHeight b; omega)
    obtain ⟨hheight, -⟩ := height_of_ancestor ha
    have hbefore : m.nHeight a + 1 = c.period * k := by
      change m.nHeight a = _ at hheight
      omega
    rw [ha]
    refine ⟨?_, by omega, ?_⟩
    · rw [bip9State_of_ancestor ha, hbefore, Nat.mul_div_cancel_left _ hpos]
    · intro a' ha'
      obtain rfl := some.inj ha'
      exact ⟨by rw [EndsPeriod, hbefore, mul_mod_right], by omega⟩

theorem bip9State_of_lt_beginTime (htime : ∀ b p, m.pprev b = some p →
    m.getMedianTimePast p < (m.nTime b).toNat) (hb : m.getMedianTimePast b < c.beginTime) :
    bip9State c m (some b) = .defined := by
  have hperiod : ∀ k, bip9Period c m b k = .defined := by
    intro k
    induction k with
    | zero => rfl
    | succ k ih =>
      have hend := c.beginTime_le_endTime
      rw [bip9Period, ih]
      cases hlast : m.tree.ancestor b ((k + 1) * c.period - 1) with
      | none => rfl
      | some last =>
        have hle := BlockChains.getMedianTimePast_mono htime hlast
        simp only [bip9Next]
        rw [if_neg (by omega), if_neg (by omega)]
  exact hperiod _

theorem countConditions_eq (left : ℕ) : ∀ (b : ι) (count : ℤ), left ≤ m.nHeight b + 1 →
    countConditions c m.toChainEntries left (some b) count =
      some (count + ((List.range left).filterMap (m.tree.up b)).countP c.condition) := by
  induction left with
  | zero => intro b count _; simp [countConditions]
  | succ left ih =>
    intro b count hleft
    have hup : ∀ i, m.tree.up b (i + 1) = (m.pprev b).bind (m.tree.up · i) := by
      intro i
      rw [add_comm, up_add]
      rfl
    have hrest : ((List.range (left + 1)).filterMap (m.tree.up b)) =
        b :: (List.range left).filterMap fun i => (m.pprev b).bind (m.tree.up · i) := by
      have hzero : m.tree.up b 0 = some b := rfl
      rw [List.range_succ_eq_map, List.filterMap_cons]
      simp [hzero, hup]
    rw [countConditions, hrest]
    cases hparent : m.pprev b with
    | none =>
      have hroot := m.nHeight_root hparent
      obtain rfl : left = 0 := by omega
      cases hcond : c.condition b
      · simp [countConditions, hcond]
      · simp [countConditions, hcond]
    | some p =>
      have hheight := m.nHeight_child hparent
      rw [ih p _ (by omega)]
      cases hcond : c.condition b
      · simp [hcond]
      · simp [hcond, add_assoc, add_comm]

theorem nextState_eq (hend : EndsPeriod c m b) (state : ThresholdState) :
    nextState c m.toChainEntries b state = some (bip9Next c m b state) := by
  have hlong := (bip9State_of_endsPeriod hend).2.1
  cases state with
  | defined =>
    rw [nextState, bip9Next]
    split_ifs <;> rfl
  | started =>
    simp only [nextState, bip9Next, countConditions_eq _ _ _ hlong, zero_add,
      bind_eq_bind, bind_some]
    split_ifs <;> rfl
  | lockedIn => rfl
  | active => rfl
  | failed => rfl

end

section
variable {ι : Type} [DecidableEq ι] {c : ThresholdConditionChecker ι} {m : BlockChains ι}

/-- The cache only has states that the rules give. -/
def CacheRight (c : ThresholdConditionChecker ι) (m : BlockChains ι)
    (cache : ThresholdConditionCache ι) : Prop :=
  ∀ pindex state, cache pindex = some state → state = bip9State c m pindex

variable {cache : ThresholdConditionCache ι}

theorem CacheRight.update (hcache : CacheRight c m cache) (pindex : Option ι) :
    CacheRight c m (update cache pindex (some (bip9State c m pindex))) := by
  intro other state hother
  by_cases hsame : other = pindex
  · subst hsame
    rw [update_self] at hother
    exact (some.inj hother).symm
  · rw [update_of_ne hsame] at hother
    exact hcache other state hother

def Linked (c : ThresholdConditionChecker ι) (m : BlockChains ι) : Option ι → List ι → Prop
  | _, [] => True
  | before, b :: rest =>
    EndsPeriod c m b ∧ periodBefore c m.toChainEntries b = before ∧ Linked c m (some b) rest

def lastOf : Option ι → List ι → Option ι
  | before, [] => before
  | _, b :: rest => lastOf (some b) rest

theorem walkForward_eq (vToCompute : List ι) :
    ∀ {before : Option ι} {cache : ThresholdConditionCache ι},
      CacheRight c m cache → Linked c m before vToCompute →
      ∃ cache', walkForward c m.toChainEntries vToCompute (bip9State c m before) cache =
            some (bip9State c m (lastOf before vToCompute), cache') ∧
        CacheRight c m cache' := by
  induction vToCompute with
  | nil => exact fun {before cache} hcache _ => ⟨cache, rfl, hcache⟩
  | cons b rest ih =>
    intro before cache hcache hlinked
    obtain ⟨hend, rfl, hrest⟩ := hlinked
    obtain ⟨cache', hwalk, hcache'⟩ := ih (hcache.update (some b)) hrest
    refine ⟨cache', ?_, hcache'⟩
    rw [walkForward, nextState_eq hend, ← (bip9State_of_endsPeriod hend).1]
    exact hwalk

variable (htime : ∀ b p, m.pprev b = some p → m.getMedianTimePast p < (m.nTime b).toNat)
include htime

theorem walkBack_eq (hcache : CacheRight c m cache) (fuel : ℕ) :
    ∀ (pindexPrev : Option ι) (vToCompute : List ι), pindexPrev.elim 0 (m.nHeight · + 1) < fuel →
      (∀ b, pindexPrev = some b → EndsPeriod c m b) →
      Linked c m pindexPrev vToCompute →
      ∃ before cache' vToCompute', walkBack c m.toChainEntries fuel pindexPrev cache vToCompute =
          some (before, cache', vToCompute') ∧
        cache' before = some (bip9State c m before) ∧ CacheRight c m cache' ∧
        Linked c m before vToCompute' ∧
        lastOf before vToCompute' = lastOf pindexPrev vToCompute := by
  induction fuel with
  | zero => intro pindexPrev vToCompute hfuel; omega
  | succ fuel ih =>
    intro pindexPrev vToCompute hfuel hends hlinked
    unfold walkBack
    cases hknown : cache pindexPrev with
    | some state =>
      have hstate := hcache _ _ hknown
      exact ⟨_, _, _, rfl, by rw [hknown, hstate], hcache, hlinked, rfl⟩
    | none =>
      cases pindexPrev with
      | none =>
        exact ⟨_, _, _, rfl, update_self _ _ _, hcache.update none, hlinked, rfl⟩
      | some b =>
        simp only
        split_ifs with hearly
        · have hdefined := bip9State_of_lt_beginTime htime hearly
          have hright := hcache.update (some b)
          rw [hdefined] at hright
          refine ⟨_, _, _, rfl, ?_, hright, hlinked, rfl⟩
          rw [update_self, hdefined]
        · have hend := hends b rfl
          obtain ⟨-, -, hbefore⟩ := bip9State_of_endsPeriod hend
          have hless : (periodBefore c m.toChainEntries b).elim 0 (m.nHeight · + 1) < fuel := by
            simp only [elim_some] at hfuel
            cases hprev : periodBefore c m.toChainEntries b with
            | none => simp only [elim_none]; omega
            | some a =>
              have hlower := (hbefore a hprev).2
              simp only [elim_some]
              omega
          exact ih _ _ hless (fun a ha => (hbefore a ha).1) ⟨hend, rfl, hlinked⟩

theorem getStateFor_eq (hcache : CacheRight c m cache) (pindexPrev : Option ι) :
    ∃ cache', getStateFor c m.toChainEntries pindexPrev cache =
        some (bip9State c m pindexPrev, cache') ∧ CacheRight c m cache' := by
  obtain ⟨hsame, hends⟩ := bip9State_periodEnd pindexPrev
  obtain ⟨before, cache₁, vToCompute, hback, hknown, hcache₁, hlinked, hlast⟩ :=
    walkBack_eq htime hcache ((periodEnd c m.toChainEntries pindexPrev).elim 0 m.nHeight + 2)
      (periodEnd c m.toChainEntries pindexPrev) []
      (by cases periodEnd c m.toChainEntries pindexPrev <;> simp) hends trivial
  obtain ⟨cache₂, hforward, hcache₂⟩ := walkForward_eq vToCompute hcache₁ hlinked
  refine ⟨cache₂, ?_, hcache₂⟩
  rw [getStateFor]
  simp [hback, hknown, hforward, hlast, lastOf, hsame]

theorem getStatesFor_eq (queries : List (Option ι)) :
    ∀ {cache : ThresholdConditionCache ι}, CacheRight c m cache →
      getStatesFor c m.toChainEntries queries cache = some (queries.map (bip9State c m)) := by
  induction queries with
  | nil => exact fun _ => rfl
  | cons pindexPrev queries ih =>
    intro cache hcache
    obtain ⟨cache', hstate, hcache'⟩ := getStateFor_eq htime hcache pindexPrev
    rw [getStatesFor, hstate]
    simp only [bind_eq_bind, bind_some, ih hcache']
    rfl

end

/-- The changes of state that BIP9 allows. -/
inductive Advances : ThresholdState → ThresholdState → Prop
  | start : Advances .defined .started
  | expireUnstarted : Advances .defined .failed
  | lockIn : Advances .started .lockedIn
  | expire : Advances .started .failed
  | activate : Advances .lockedIn .active

section
variable {ι : Type} {c : ThresholdConditionChecker ι} {m : BlockChains ι}

def periodNumber (c : ThresholdConditionChecker ι) (m : BlockChains ι) : Option ι → ℕ
  | none => 0
  | some pindexPrev => (m.nHeight pindexPrev + 1) / c.period

inductive OnChain (m : BlockChains ι) : Option ι → Option ι → Prop
  | start (b : Option ι) : OnChain m none b
  | blocks {a b : ι} {height : ℕ} (ha : m.tree.ancestor b height = some a) :
      OnChain m (some a) (some b)

theorem advances_bip9Next (last : ι) (state : ThresholdState) :
    Relation.ReflTransGen Advances state (bip9Next c m last state) := by
  cases state with
  | defined =>
    rw [bip9Next]
    split_ifs
    · exact .single .expireUnstarted
    · exact .single .start
    · exact .refl
  | started =>
    rw [bip9Next]
    split_ifs
    · exact .single .expire
    · exact .single .lockIn
    · exact .refl
  | lockedIn => exact .single .activate
  | active => exact .refl
  | failed => exact .refl

theorem advances_bip9Period {b : ι} {k n : ℕ} (hle : k ≤ n) :
    Relation.ReflTransGen Advances (bip9Period c m b k) (bip9Period c m b n) := by
  induction n, hle using le_induction with
  | base => exact .refl
  | succ n _ ih =>
    refine ih.trans ?_
    conv_rhs => rw [bip9Period]
    cases m.tree.ancestor b ((n + 1) * c.period - 1) with
    | none => exact .refl
    | some last => exact advances_bip9Next last _

variable {a b : Option ι}

theorem OnChain.exists_tip (hab : OnChain m a b) : (a = none ∧ b = none) ∨ ∃ tip,
    bip9State c m a = bip9Period c m tip (periodNumber c m a) ∧
    bip9State c m b = bip9Period c m tip (periodNumber c m b) ∧
    periodNumber c m a ≤ periodNumber c m b := by
  cases hab with
  | start =>
    cases b with
    | none => exact Or.inl ⟨rfl, rfl⟩
    | some tip => exact Or.inr ⟨tip, rfl, rfl, zero_le _⟩
  | @blocks a b height ha =>
    obtain ⟨hheight, hle⟩ := height_of_ancestor ha
    have hbelow : m.nHeight a ≤ m.nHeight b := by
      change m.nHeight a = height at hheight
      change height ≤ m.nHeight b at hle
      omega
    exact Or.inr ⟨b, bip9State_of_ancestor ha, rfl, Nat.div_le_div_right (by omega)⟩

theorem OnChain.bip9State_eq (hab : OnChain m a b)
    (hperiod : periodNumber c m a = periodNumber c m b) : bip9State c m a = bip9State c m b := by
  rcases hab.exists_tip with ⟨rfl, rfl⟩ | ⟨tip, ha, hb, -⟩
  · rfl
  · rw [ha, hb, hperiod]

theorem OnChain.advances (hab : OnChain m a b) :
    Relation.ReflTransGen Advances (bip9State c m a) (bip9State c m b) := by
  rcases hab.exists_tip with ⟨rfl, rfl⟩ | ⟨tip, ha, hb, hle⟩
  · exact .refl
  · rw [ha, hb]
    exact advances_bip9Period hle

theorem eq_of_advances_of_terminal {s t : ThresholdState} (hs : s = .active ∨ s = .failed)
    (hadvances : Relation.ReflTransGen Advances s t) : t = s := by
  induction hadvances with
  | refl => rfl
  | tail _ hstep ih =>
    subst ih
    rcases hs with rfl | rfl
    · cases hstep
    · cases hstep

end

/-- For every order of queries with one cache the answers are the states of the
definition; blocks of one period get the same state; and along a chain states
only advance, and never from ACTIVE or FAILED. -/
theorem getStatesFor_eq_bip9 {ι : Type} [DecidableEq ι] (m : BlockChains ι)
    (htime : ∀ b p, m.pprev b = some p → m.getMedianTimePast p < (m.nTime b).toNat)
    (c : ThresholdConditionChecker ι) :
    (∀ queries, getStatesFor c m.toChainEntries queries (fun _ => none) =
      some (queries.map (bip9State c m))) ∧
    ∀ a b, OnChain m a b → (periodNumber c m a = periodNumber c m b →
        bip9State c m a = bip9State c m b) ∧
      Relation.ReflTransGen Advances (bip9State c m a) (bip9State c m b) ∧
      (bip9State c m a = .active ∨ bip9State c m a = .failed →
        bip9State c m b = bip9State c m a) := by
  constructor
  · intro queries
    exact getStatesFor_eq htime queries fun _ _ h => nomatch h
  · intro a b hab
    exact ⟨hab.bip9State_eq, hab.advances,
      fun hterminal => eq_of_advances_of_terminal hterminal hab.advances⟩

def eightBlocks : BlockChains (Fin 8) where
  pprev b := if b = 0 then none else some (b - 1)
  pskip b := if b = 0 then none else some (Fin.ofNat 8 (getSkipHeight b))
  nHeight b := b
  nVersion _ := 0x20000000
  nTime b := UInt32.ofNat (b + 1)
  nBits _ := 0x1e0fffff
  nHeight_root := by decide
  nHeight_child := by decide
  pskip_built := by decide +kernel

def everySecondBlock : ThresholdConditionChecker (Fin 8) where
  condition _ := true
  beginTime := 1
  endTime := 100
  period := 2
  threshold := 2
  period_pos := by decide
  beginTime_le_endTime := by decide

theorem getStatesFor_eq_bip9_eight : getStatesFor everySecondBlock eightBlocks.toChainEntries
        [some 7, some 2, none, some 4] (fun _ => none) =
      some [.active, .started, .defined, .lockedIn] ∧
    ∀ a b, OnChain eightBlocks a b → (periodNumber everySecondBlock eightBlocks a =
          periodNumber everySecondBlock eightBlocks b →
        bip9State everySecondBlock eightBlocks a = bip9State everySecondBlock eightBlocks b) ∧
      Relation.ReflTransGen Advances (bip9State everySecondBlock eightBlocks a)
        (bip9State everySecondBlock eightBlocks b) ∧
      (bip9State everySecondBlock eightBlocks a = .active ∨
          bip9State everySecondBlock eightBlocks a = .failed →
        bip9State everySecondBlock eightBlocks b = bip9State everySecondBlock eightBlocks a) := by
  have hall := getStatesFor_eq_bip9 eightBlocks (by decide +kernel) everySecondBlock
  exact ⟨(hall.1 _).trans (by decide +kernel), hall.2⟩

end ImageCoin
