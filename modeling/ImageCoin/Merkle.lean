import ImageCoin.MerkleTree

/-!
# Merkle roots and branches

`MerkleComputation` keeps one subtree hash for every set bit of the number of leaves read so
far, like a binary counter, and pads the rightmost path at the end.  The hash of a pair is a
parameter.
-/

namespace ImageCoin

open MerkleTree List
variable {α : Type}

/-! ## `MerkleComputation` -/

/-- What the loops carry up the tree: the hash `h`, whether it depends on the
matching leaf, and what has been reported so far. -/
structure Carry (α : Type) where
  h : α
  matchh : Bool
  mutated : Bool
  branch : List α

/-- The variables of the loop over the leaves. -/
structure MerkleState (α : Type) where
  count : UInt32
  inner : ℕ → α
  matchlevel : Option ℕ
  mutated : Bool
  branch : List α

def bitClear (count : UInt32) (level : ℕ) : Bool := !count.toNat.testBit level

/-- `for (; !(count & (1 << level)); level++)`, with the levels left for fuel. -/
def walkUp {C : Type} (step : ℕ → C → C) (count : UInt32) : ℕ → ℕ → C → Option (ℕ × C)
  | 0, _, _ => none
  | fuel + 1, level, c =>
    if bitClear count level then
      walkUp step count fuel (level + 1) (step level c)
    else some (level, c)

section
variable (hash : α → α → α) (pbranch : Bool)

/-- Combine `inner[level]` with `h`, and record the sibling of the matching
leaf's subtree. -/
def combine (inner : ℕ → α) (matchlevel : Option ℕ) (level : ℕ) (c : Carry α) : Carry α :=
  let h := hash (inner level) c.h
  if pbranch then
    if c.matchh then { c with h := h, branch := c.branch ++ [inner level] }
    else if matchlevel = some level then
      { c with h := h, matchh := true, branch := c.branch ++ [c.h] }
    else { c with h := h }
  else { c with h := h }

variable [DecidableEq α]

def combineComplete (inner : ℕ → α) (matchlevel : Option ℕ) (level : ℕ) (c : Carry α) : Carry α :=
  { combine hash pbranch inner matchlevel level c with
    mutated := c.mutated || inner level = c.h }

def addLeaf (branchpos : UInt32) (s : MerkleState α) (leaf : α) : Option (MerkleState α) := do
  let matchh := s.count = branchpos
  let count := s.count + 1
  let (level, c) ← walkUp (combineComplete hash pbranch s.inner s.matchlevel)
    count 32 0 ⟨leaf, matchh, s.mutated, s.branch⟩
  return { count := count
           inner := Function.update s.inner level c.h
           matchlevel := if c.matchh then some level else s.matchlevel
           mutated := c.mutated
           branch := c.branch }

omit [DecidableEq α] in
def duplicate (c : Carry α) : Carry α :=
  { c with
    h := hash c.h c.h
    branch := if pbranch && c.matchh then c.branch ++ [c.h] else c.branch }

def sweep (inner : ℕ → α) (matchlevel : Option ℕ) : ℕ → UInt32 → ℕ → Carry α → Option (Carry α)
  | 0, _, _, _ => none
  | fuel + 1, count, level, c =>
    if count.toNat = 2 ^ level then some c
    else do
      let count := count + UInt32.ofNat (2 ^ level)
      let (level, c) ← walkUp (combine hash pbranch inner matchlevel) count
        (32 - (level + 1)) (level + 1) (duplicate hash pbranch c)
      sweep inner matchlevel fuel count level c

end

/-- `*proot`, `*pmutated` and `*pbranch`. -/
structure MerkleResult (α : Type) where
  root : α
  mutated : Bool
  branch : List α
  deriving DecidableEq

section
variable [Zero α] [DecidableEq α] (hash : α → α → α) (leaves : List α)

def merkleComputation (branchpos : UInt32) (pbranch : Bool) : Option (MerkleResult α) :=
  if leaves = [] then some ⟨0, false, []⟩
  else do
    let s ← leaves.foldlM (addLeaf hash pbranch branchpos)
      ⟨0, fun _ => 0, none, false, []⟩
    let (level, _) ← walkUp (fun _ => id) s.count 32 0 ()
    let c ← sweep hash pbranch s.inner s.matchlevel 32 s.count level
      ⟨s.inner level, s.matchlevel = some level, s.mutated, s.branch⟩
    return ⟨c.h, c.mutated, c.branch⟩

def computeMerkleRoot : Option (α × Bool) :=
  (merkleComputation hash leaves 0xffffffff false).map fun r => (r.root, r.mutated)

def computeMerkleBranch (position : UInt32) : Option (List α) :=
  (merkleComputation hash leaves position true).map fun r => r.branch

omit [Zero α] [DecidableEq α] in
def computeMerkleRootFromBranch (leaf : α) (vMerkleBranch : List α) (nIndex : UInt32) : α :=
  match vMerkleBranch with
  | [] => leaf
  | it :: rest =>
    computeMerkleRootFromBranch (if nIndex &&& 1 = 1 then hash it leaf else hash leaf it) rest
      (nIndex >>> 1)

end

theorem bitClear_iff {count : UInt32} {level : ℕ} (hdvd : 2 ^ level ∣ count.toNat) :
    bitClear count level ↔ 2 ^ (level + 1) ∣ count.toNat := by
  obtain ⟨m, hm⟩ := hdvd
  have hpos : 0 < 2 ^ level := by positivity
  unfold bitClear
  rw [Nat.testBit_eq_decide_div_mod_eq, hm, pow_succ, Nat.mul_dvd_mul_iff_left hpos]
  simp
  omega

theorem walkUp_spec {C : Type} (step : ℕ → C → C) (count : UInt32) (hcount : count.toNat ≠ 0)
    {Q : ℕ → C → Prop} (hstep : ∀ level c, 2 ^ (level + 1) ∣ count.toNat → Q level c →
    Q (level + 1) (step level c)) (fuel : ℕ) :
    ∀ level c, level + fuel = 32 → 2 ^ level ∣ count.toNat → Q level c →
      ∃ level' c', walkUp step count fuel level c = some (level', c') ∧
        level ≤ level' ∧ level' < 32 ∧ 2 ^ level' ∣ count.toNat ∧
        ¬2 ^ (level' + 1) ∣ count.toNat ∧ Q level' c' := by
  induction fuel with
  | zero =>
    intro level c hfuel hdvd _
    obtain rfl : level = 32 := hfuel
    have hle := Nat.le_of_dvd (Nat.pos_of_ne_zero hcount) hdvd
    exact absurd count.toNat_lt (not_lt.mpr hle)
  | succ fuel ih =>
    intro level c hfuel hdvd hQ
    by_cases hclear : 2 ^ (level + 1) ∣ count.toNat
    · obtain ⟨level', c', hwalk, hle, hrest⟩ := ih (level + 1) (step level c)
        (by omega) hclear (hstep level c hclear hQ)
      refine ⟨level', c', ?_, by omega, hrest⟩
      rw [walkUp, if_pos ((bitClear_iff hdvd).mpr hclear), hwalk]
    · refine ⟨level, c, ?_, le_rfl, by omega, hdvd, hclear, hQ⟩
      rw [walkUp, if_neg (mt (bitClear_iff hdvd).mp hclear)]

theorem walkUp_zero {C : Type} (step : ℕ → C → C) (fuel : ℕ) :
    ∀ level c, walkUp step 0 fuel level c = none := by
  induction fuel with
  | zero => exact fun _ _ => rfl
  | succ fuel ih =>
    intro level c
    rw [walkUp, if_pos (by simp [bitClear]), ih]

section
variable {hash : α → α → α}

theorem computeMerkleRootFromBranch_append (branch : List α) (x : α) : ∀ (leaf : α) (p : UInt32),
    computeMerkleRootFromBranch hash leaf (branch ++ [x]) p =
      if p.toNat / 2 ^ branch.length % 2 = 1 then
        hash x (computeMerkleRootFromBranch hash leaf branch p)
      else hash (computeMerkleRootFromBranch hash leaf branch p) x := by
  have hodd : ∀ p : UInt32, p &&& 1 = 1 ↔ p.toNat % 2 = 1 := by
    intro p
    rw [← UInt32.toNat_inj]
    simp
  induction branch with
  | nil =>
    intro leaf p
    simp [computeMerkleRootFromBranch, hodd]
  | cons it rest ih =>
    intro leaf p
    have hshift : (p >>> 1).toNat / 2 ^ rest.length = p.toNat / 2 ^ (rest.length + 1) := by
      simp [Nat.shiftRight_eq_div_pow, Nat.div_div_eq_div_mul, pow_succ, mul_comm]
    simp only [cons_append, computeMerkleRootFromBranch, ih, hshift, length_cons]

end

/-! ## Reading the leaves -/

section
variable (hash : α → α → α) (leaf : ℕ → α) (n : ℕ) (p : UInt32)

/-- The branch so far leads from the matching leaf to its node at the level. -/
def BranchTo (level : ℕ) (branch : List α) : Prop :=
  branch.length = level ∧ computeMerkleRootFromBranch hash (leaf p.toNat) branch p =
      node hash leaf n level (p.toNat / 2 ^ level)

/-- After `count` leaves, the matching leaf is in the complete subtree at
`matchlevel`, and not below `level`. -/
def Waiting (count level : ℕ) (matchlevel : Option ℕ) (branch : List α) : Prop :=
  (p.toNat < count → ∃ m i, matchlevel = some m ∧ level ≤ m ∧
    count / 2 ^ m = 2 * i + 1 ∧ p.toNat / 2 ^ m = 2 * i ∧
    BranchTo hash leaf n p m branch) ∧
  (count ≤ p.toNat → matchlevel = none ∧ branch = [])

/-- The invariant of the first loop: `inner` has the complete subtrees for the bits of `count`. -/
structure Streamed (pbranch : Bool) (count : ℕ) (s : MerkleState α) : Prop where
  count_eq : s.count.toNat = count
  inner : ∀ level i, count / 2 ^ level = 2 * i + 1 → s.inner level = node hash leaf n level (2 * i)
  mutated : s.mutated ↔ HasTwins hash leaf n count
  waiting : pbranch → Waiting hash leaf n p count 0 s.matchlevel s.branch

/-- The matching leaf is below the node `j` that is carried, or it waits. -/
structure Follows (count : ℕ) (matchlevel : Option ℕ) (level j : ℕ) (c : Carry α) : Prop where
  here : c.matchh → p.toNat / 2 ^ level = j ∧ BranchTo hash leaf n p level c.branch
  waits : c.matchh = false → Waiting hash leaf n p count level matchlevel c.branch

/-- The subtree that ends with leaf `count`, on its way up. -/
structure Rising (pbranch : Bool) (count : ℕ) (matchlevel : Option ℕ)
    (level : ℕ) (c : Carry α) : Prop where
  position : ∃ j, count + 1 = (j + 1) * 2 ^ level ∧ c.h = node hash leaf n level j ∧
    (pbranch → Follows hash leaf n p count matchlevel level j c)
  mutated : c.mutated ↔ HasTwins hash leaf n count ∨
    ∃ l < level, ∃ i, (2 * i + 2) * 2 ^ l = count + 1 ∧
      node hash leaf n l (2 * i) = node hash leaf n l (2 * i + 1)
  matched : pbranch → c.matchh → p.toNat ≤ count
  missed : c.matchh = false → p.toNat ≠ count

variable {hash leaf n p} {pbranch : Bool} {count level : ℕ}
  {inner : ℕ → α} {matchlevel : Option ℕ} {c : Carry α} {i : ℕ} {branch : List α}

theorem BranchTo.push_left (hbranch : BranchTo hash leaf n p level branch)
    (hindex : p.toNat / 2 ^ level = 2 * i + 1) (hright : 2 * i + 1 < width n level) :
    BranchTo hash leaf n p (level + 1) (branch ++ [node hash leaf n level (2 * i)]) := by
  obtain ⟨rfl, hroot⟩ := hbranch
  have hup : p.toNat / 2 ^ (branch.length + 1) = i := by
    rw [pow_succ, ← Nat.div_div_eq_div_mul]
    omega
  refine ⟨by simp, ?_⟩
  rw [computeMerkleRootFromBranch_append, hroot, hindex, hup,
    if_pos (by omega), node_succ_of_lt hright]

theorem BranchTo.push_right (hbranch : BranchTo hash leaf n p level branch)
    (hindex : p.toNat / 2 ^ level = 2 * i) {x : α}
    (hnode : node hash leaf n (level + 1) i = hash (node hash leaf n level (2 * i)) x) :
    BranchTo hash leaf n p (level + 1) (branch ++ [x]) := by
  obtain ⟨rfl, hroot⟩ := hbranch
  have hup : p.toNat / 2 ^ (branch.length + 1) = i := by
    rw [pow_succ, ← Nat.div_div_eq_div_mul]
    omega
  refine ⟨by simp, ?_⟩
  rw [computeMerkleRootFromBranch_append, hroot, hindex, hup, if_neg (by omega), hnode]

theorem follows_combine (hcount : count / 2 ^ level = 2 * i + 1)
    (hright : 2 * i + 1 < width n level) (hinner : inner level = node hash leaf n level (2 * i))
    (hh : c.h = node hash leaf n level (2 * i + 1))
    (hfollows : Follows hash leaf n p count matchlevel level (2 * i + 1) c) :
    Follows hash leaf n p count matchlevel (level + 1) i
      (combine hash true inner matchlevel level c) := by
  have hhalf : ∀ {k}, p.toNat / 2 ^ level = 2 * i + k → k < 2 → p.toNat / 2 ^ (level + 1) = i := by
    intro k hindex hk
    rw [pow_succ, ← Nat.div_div_eq_div_mul]
    omega
  cases hmatch : c.matchh with
  | true =>
    obtain ⟨hindex, hbranch⟩ := hfollows.here hmatch
    simp only [combine, hmatch]
    refine ⟨fun _ => ⟨hhalf hindex (by omega), ?_⟩, by simp⟩
    rw [hinner]
    exact hbranch.push_left hindex hright
  | false =>
    have hwaits := hfollows.waits hmatch
    by_cases hlevel : matchlevel = some level
    · simp only [combine, hmatch, hlevel]
      have hlt : p.toNat < count := by
        by_contra hle
        rw [(hwaits.2 (not_lt.mp hle)).1] at hlevel
        cases hlevel
      obtain ⟨m, i', hm, _, hcount', hindex, hbranch⟩ := hwaits.1 hlt
      obtain rfl : m = level := by simpa [hlevel] using hm.symm
      obtain rfl : i' = i := by omega
      refine ⟨fun _ => ⟨hhalf (k := 0) hindex (by omega), ?_⟩, by simp⟩
      apply hbranch.push_right hindex
      rw [hh, node_succ_of_lt hright]
    · simp [combine, hmatch, Bool.false_eq_true, hlevel]
      refine ⟨by simp, fun _ => ⟨fun hlt => ?_, hwaits.2⟩⟩
      obtain ⟨m, i', hm, hle, hrest⟩ := hwaits.1 hlt
      refine ⟨m, i', hm, ?_, hrest⟩
      rcases Nat.eq_or_lt_of_le hle with rfl | hlt
      · exact absurd hm hlevel
      · exact hlt

theorem combine_h (pbranch : Bool) : (combine hash pbranch inner matchlevel level c).h =
    hash (inner level) c.h := by
  unfold combine
  split_ifs <;> rfl

theorem combine_mutated (pbranch : Bool) :
    (combine hash pbranch inner matchlevel level c).mutated = c.mutated := by
  unfold combine
  split_ifs <;> rfl

theorem combine_matchh : (combine hash pbranch inner matchlevel level c).matchh =
    (c.matchh || pbranch && matchlevel = some level) := by
  unfold combine
  split_ifs with hbranch hmatch hlevel <;> simp_all

variable {s : MerkleState α}

theorem div_two_pow_succ_count {m : ℕ} (hdvd : ¬2 ^ (level + 1) ∣ count + 1)
    (hlt : level < m) : (count + 1) / 2 ^ m = count / 2 ^ m := by
  rw [Nat.succ_div, if_neg, add_zero]
  exact fun h => hdvd ((pow_dvd_pow 2 hlt).trans h)

variable (hs : Streamed hash leaf n p pbranch count s)

include hs in
theorem rising_leaf : Rising hash leaf n p pbranch count s.matchlevel 0
    ⟨leaf count, s.count = p, s.mutated, s.branch⟩ := by
  have hhere : s.count = p ↔ count = p.toNat := by
    rw [← UInt32.toNat_inj, hs.count_eq]
  refine ⟨⟨count, by simp, rfl, fun hbranch => ⟨?_, fun _ => hs.waiting hbranch⟩⟩,
    by simp [hs.mutated], ?_, ?_⟩
  · intro hmatch
    have hp := hhere.mp (of_decide_eq_true hmatch)
    have hnone := ((hs.waiting hbranch).2 hp.le).2
    refine ⟨by simp [hp], ?_, ?_⟩
    · simp [hnone]
    · simp [hnone, computeMerkleRootFromBranch, node]
  · intro _ hmatch
    exact (hhere.mp (of_decide_eq_true hmatch)).ge
  · intro hmatch hp
    exact of_decide_eq_false hmatch (hhere.mpr hp.symm)

theorem hasTwins_succ_count (hodd : ¬2 ^ (level + 1) ∣ count + 1) :
    HasTwins hash leaf n (count + 1) ↔ HasTwins hash leaf n count ∨
      ∃ l < level, ∃ i, (2 * i + 2) * 2 ^ l = count + 1 ∧
        node hash leaf n l (2 * i) = node hash leaf n l (2 * i + 1) := by
  constructor
  · rintro ⟨l, i, hle, hpair⟩
    rcases Nat.le_or_eq_of_le_succ hle with hle | hend
    · exact Or.inl ⟨l, i, hle, hpair⟩
    · refine Or.inr ⟨l, ?_, i, hend, hpair⟩
      by_contra hge
      apply hodd
      have hl : 2 ^ (l + 1) ∣ count + 1 :=
        ⟨i + 1, hend.symm.trans (by ring)⟩
      exact (pow_dvd_pow 2 (by omega)).trans hl
  · rintro (⟨l, i, hle, hpair⟩ | ⟨l, -, i, hend, hpair⟩)
    · exact ⟨l, i, by omega, hpair⟩
    · exact ⟨l, i, hend.le, hpair⟩

include hs in
theorem streamed_store (hdvd : 2 ^ level ∣ count + 1) (hodd : ¬2 ^ (level + 1) ∣ count + 1)
    (hrising : Rising hash leaf n p pbranch count s.matchlevel level c)
    {count' : UInt32} (hcount' : count'.toNat = count + 1) :
    Streamed hash leaf n p pbranch (count + 1) ⟨count', Function.update s.inner level c.h,
        if c.matchh then some level else s.matchlevel, c.mutated, c.branch⟩ := by
  obtain ⟨⟨j, hj, hh, hfollows⟩, hmutated, hmatched, hmissed⟩ := hrising
  have hpos : 0 < 2 ^ level := by positivity
  obtain ⟨i, rfl⟩ : ∃ i, j = 2 * i := by
    rw [hj, pow_succ, mul_comm (2 ^ level), Nat.mul_dvd_mul_iff_right hpos] at hodd
    exact ⟨j / 2, by omega⟩
  have hquot : (count + 1) / 2 ^ level = 2 * i + 1 := by
    rw [hj, Nat.mul_div_cancel _ hpos]
  have hbefore : count / 2 ^ level = 2 * i := by
    rw [Nat.succ_div, if_pos hdvd] at hquot
    omega
  refine ⟨hcount', ?_, by rw [hmutated, hasTwins_succ_count hodd], ?_⟩
  · intro l i' hl
    rcases lt_trichotomy l level with hlt | rfl | hlt
    · have heven : 2 ∣ (count + 1) / 2 ^ l := by
        apply (Nat.dvd_div_iff_mul_dvd ((pow_dvd_pow 2 hlt.le).trans hdvd)).mpr
        exact (pow_dvd_pow 2 hlt).trans hdvd
      omega
    · obtain rfl : i' = i := by omega
      simpa using hh
    · rw [div_two_pow_succ_count hodd hlt] at hl
      simpa [hlt.ne'] using hs.inner l i' hl
  · intro hbranch
    cases hmatch : c.matchh with
    | true =>
      obtain ⟨hindex, hto⟩ := (hfollows hbranch).here hmatch
      have hle := hmatched hbranch hmatch
      exact ⟨fun _ => ⟨level, i, by simp, Nat.zero_le _, hquot, hindex, hto⟩,
        fun hge => absurd hge (by omega)⟩
    | false =>
      have hne := hmissed hmatch
      have hwaits := (hfollows hbranch).waits hmatch
      refine ⟨fun hlt => ?_, fun hge => hwaits.2 (by omega)⟩
      obtain ⟨m, i', hm, hle, hcount, hrest⟩ := hwaits.1 (by omega)
      have hlt : level < m := by
        rcases Nat.eq_or_lt_of_le hle with rfl | hlt
        · omega
        · exact hlt
      refine ⟨m, i', hm, Nat.zero_le _, ?_, hrest⟩
      rw [div_two_pow_succ_count hodd hlt, hcount]

variable [DecidableEq α]

include hs in
theorem rising_combineComplete (hroom : count + 1 ≤ n) (hdvd : 2 ^ (level + 1) ∣ count + 1)
    (hrising : Rising hash leaf n p pbranch count s.matchlevel level c) :
    Rising hash leaf n p pbranch count s.matchlevel (level + 1)
      (combineComplete hash pbranch s.inner s.matchlevel level c) := by
  obtain ⟨⟨j, hj, hh, hfollows⟩, hmutated, hmatched, hmissed⟩ := hrising
  have hpos : 0 < 2 ^ level := by positivity
  -- The carried node is a right child, and its sibling is in `inner`.
  obtain ⟨i, rfl⟩ : ∃ i, j = 2 * i + 1 := by
    rw [hj, pow_succ, mul_comm (2 ^ level), Nat.mul_dvd_mul_iff_right hpos] at hdvd
    exact ⟨j / 2, by omega⟩
  have hcount : count / 2 ^ level = 2 * i + 1 := by
    rw [Nat.div_eq_iff hpos]
    have hsplit : (2 * i + 1 + 1) * 2 ^ level = (2 * i + 1) * 2 ^ level + 2 ^ level := by ring
    omega
  have hright : 2 * i + 1 < width n level := by
    rw [lt_width]
    have hsplit : (2 * i + 1 + 1) * 2 ^ level = (2 * i + 1) * 2 ^ level + 2 ^ level := by ring
    omega
  have hinner := hs.inner level i hcount
  refine ⟨⟨i, ?_, ?_, ?_⟩, ?_, ?_, ?_⟩
  · rw [hj]
    ring
  · simp only [combineComplete, combine_h, hinner, hh, node_succ_of_lt hright]
  · rintro rfl
    have hnext := follows_combine hcount hright hinner hh (hfollows rfl)
    exact ⟨hnext.here, hnext.waits⟩
  · simp only [combineComplete, Bool.or_eq_true, hmutated, decide_eq_true_eq, hinner, hh]
    constructor
    · rintro ((htwins | ⟨l, hl, hpair⟩) | hpair)
      · exact Or.inl htwins
      · exact Or.inr ⟨l, by omega, hpair⟩
      · exact Or.inr ⟨level, by omega, i, hj.symm, hpair⟩
    · rintro (htwins | ⟨l, hl, i', hend, hpair⟩)
      · exact Or.inl (Or.inl htwins)
      · rcases Nat.lt_succ_iff_lt_or_eq.mp hl with hl | rfl
        · exact Or.inl (Or.inr ⟨l, hl, i', hend, hpair⟩)
        · have hsame := Nat.eq_of_mul_eq_mul_right hpos (hend.trans hj)
          obtain rfl : i' = i := by omega
          exact Or.inr hpair
  · rintro rfl hmatch
    simp only [combineComplete, combine_matchh, Bool.or_eq_true] at hmatch
    cases hold : c.matchh with
    | true => exact hmatched rfl hold
    | false =>
      have hlevel := hmatch.resolve_left (by simp [hold])
      by_contra hle
      have hnone := ((hfollows rfl).waits hold).2 (by omega)
      rw [hnone.1] at hlevel
      cases hlevel
  · intro hmatch
    simp only [combineComplete, combine_matchh, Bool.or_eq_false_iff] at hmatch
    exact hmissed hmatch.1

include hs in
theorem streamed_addLeaf (hroom : count + 1 ≤ n) (hfits : count + 1 < 2 ^ 32) :
    ∃ s', addLeaf hash pbranch p s (leaf count) = some s' ∧
      Streamed hash leaf n p pbranch (count + 1) s' := by
  have hnext : (s.count + 1).toNat = count + 1 := by
    rw [UInt32.toNat_add, hs.count_eq]
    exact Nat.mod_eq_of_lt hfits
  obtain ⟨level, c, hwalk, -, -, hdvd, hodd, hrising⟩ :=
    walkUp_spec _ (s.count + 1) (by omega) (fun level c hdvd hrising =>
        rising_combineComplete hs hroom (hnext ▸ hdvd) hrising)
      32 0 _ rfl (by simp) (rising_leaf hs)
  rw [hnext] at hdvd hodd
  refine ⟨_, ?_, streamed_store hs hdvd hodd hrising hnext⟩
  simp only [addLeaf, hwalk]
  rfl

theorem streamed_foldlM (rest : List α) :
    ∀ {count : ℕ} {s : MerkleState α}, Streamed hash leaf n p pbranch count s →
      (∀ i, rest[i]? = if i < rest.length then some (leaf (count + i)) else none) →
      count + rest.length ≤ n → count + rest.length < 2 ^ 32 →
      ∃ s', rest.foldlM (addLeaf hash pbranch p) s = some s' ∧
        Streamed hash leaf n p pbranch (count + rest.length) s' := by
  induction rest with
  | nil => exact fun {count s} hs _ _ _ => ⟨s, rfl, hs⟩
  | cons x rest ih =>
    intro count s hs hleaf hroom hfits
    simp only [length_cons] at hroom hfits ⊢
    obtain rfl : x = leaf count := by simpa using hleaf 0
    obtain ⟨s₁, hadd, hs₁⟩ := streamed_addLeaf hs (by omega) (by omega)
    obtain ⟨s₂, hrest, hs₂⟩ := ih hs₁
      (fun i => by simpa [add_assoc, add_comm 1] using hleaf (i + 1)) (by omega) (by omega)
    refine ⟨s₂, ?_, ?_⟩
    · rw [foldlM_cons, hadd]
      exact hrest
    · rw [add_comm rest.length, ← add_assoc]
      exact hs₂

end

/-! ## The final sweep -/

section
variable (hash : α → α → α) (leaf : ℕ → α) (n : ℕ) (p : UInt32)

/-- The last node of an odd level, where the sweep has to duplicate. -/
structure AtOdd (pbranch : Bool) (matchlevel : Option ℕ) (mutated : Bool)
    (count : UInt32) (level i : ℕ) (c : Carry α) : Prop where
  odd : width n level = 2 * i + 1
  level_le : level ≤ Nat.clog 2 n
  count_eq : count.toNat = (2 * i + 1) * 2 ^ level
  h_eq : c.h = node hash leaf n level (2 * i)
  mutated_eq : c.mutated = mutated
  here : pbranch → c.matchh → p.toNat / 2 ^ level = 2 * i ∧ BranchTo hash leaf n p level c.branch
  waits : pbranch → c.matchh = false → Waiting hash leaf n p n (level + 1) matchlevel c.branch

/-- The last node of a level that has been padded. -/
structure Padded (pbranch : Bool) (matchlevel : Option ℕ) (mutated : Bool)
    (count : UInt32) (level : ℕ) (c : Carry α) (j : ℕ) : Prop where
  last : width n level = j + 1
  level_le : level ≤ Nat.clog 2 n
  beyond : n < (j + 1) * 2 ^ level
  count_eq : count.toNat = (j + 1) * 2 ^ level
  h_eq : c.h = node hash leaf n level j
  mutated_eq : c.mutated = mutated
  follows : pbranch → Follows hash leaf n p n matchlevel level j c

variable {hash leaf n p} {pbranch mutated : Bool} {matchlevel : Option ℕ}
  {count : UInt32} {level i j : ℕ} {c : Carry α}

theorem lt_clog_of_one_lt_width (hone : 1 < width n level) : level < Nat.clog 2 n := by
  rw [lt_width, one_mul] at hone
  exact (Nat.lt_clog_iff_pow_lt (by omega)).mpr hone

variable (hodd : AtOdd hash leaf n p pbranch matchlevel mutated count level i c)

include hodd in
theorem AtOdd.duplicate
    (hi : i ≠ 0) {count' : UInt32} (hcount' : count'.toNat = count.toNat + 2 ^ level) :
    Padded hash leaf n p pbranch matchlevel mutated count' (level + 1)
      (duplicate hash pbranch c) i := by
  have habsent : ¬2 * i + 1 < width n level := by rw [hodd.odd]; omega
  have hbeyond := mt lt_width.mpr habsent
  have hpos : 0 < 2 ^ level := by positivity
  have hpow : (i + 1) * 2 ^ (level + 1) = (2 * i + 1) * 2 ^ level + 2 ^ level := by
    ring
  refine ⟨by rw [width_succ, hodd.odd]; omega, ?_, by omega, ?_, ?_,
    hodd.mutated_eq, ?_⟩
  · exact lt_clog_of_one_lt_width (by rw [hodd.odd]; omega)
  · rw [hcount', hodd.count_eq, hpow]
  · rw [ImageCoin.duplicate, hodd.h_eq, node_succ_of_not_lt habsent]
  · rintro rfl
    refine ⟨fun hmatch => ?_, fun hmatch => ?_⟩
    · obtain ⟨hindex, hbranch⟩ := hodd.here rfl hmatch
      have hup : p.toNat / 2 ^ (level + 1) = i := by
        rw [pow_succ, ← Nat.div_div_eq_div_mul]
        omega
      have hmatch' : c.matchh := hmatch
      refine ⟨hup, ?_⟩
      simp only [ImageCoin.duplicate, hmatch']
      apply hbranch.push_right hindex
      rw [node_succ_of_not_lt habsent, hodd.h_eq]
    · have hmatch' : c.matchh = false := hmatch
      simpa [ImageCoin.duplicate, hmatch'] using hodd.waits rfl hmatch'

theorem Padded.div_eq (hpadded : Padded hash leaf n p pbranch matchlevel mutated count level c j) :
    n / 2 ^ level = j := by
  have hlast : j < width n level := by rw [hpadded.last]; omega
  rw [lt_width] at hlast
  have hbeyond := hpadded.beyond
  rw [add_mul] at hbeyond
  rw [Nat.div_eq_iff (by positivity)]
  omega

theorem Padded.combine {inner : ℕ → α} (hinner : ∀ level i, n / 2 ^ level = 2 * i + 1 →
      inner level = node hash leaf n level (2 * i))
    (hpadded : Padded hash leaf n p pbranch matchlevel mutated count level c j)
    (hdvd : 2 ^ (level + 1) ∣ count.toNat) :
    Padded hash leaf n p pbranch matchlevel mutated count (level + 1)
      (combine hash pbranch inner matchlevel level c) (j / 2) := by
  have hpos : 0 < 2 ^ level := by positivity
  obtain ⟨i, rfl⟩ : ∃ i, j = 2 * i + 1 := by
    rw [hpadded.count_eq, pow_succ, mul_comm (2 ^ level), Nat.mul_dvd_mul_iff_right hpos] at hdvd
    exact ⟨j / 2, by omega⟩
  have hhalf : (2 * i + 1) / 2 = i := by omega
  have hpow : (i + 1) * 2 ^ (level + 1) = (2 * i + 1 + 1) * 2 ^ level := by
    ring
  have hright : 2 * i + 1 < width n level := by rw [hpadded.last]; omega
  have hquot := hpadded.div_eq
  have hleft := hinner level i hquot
  rw [hhalf]
  refine ⟨by rw [width_succ, hpadded.last]; omega, ?_, ?_, ?_, ?_, ?_, ?_⟩
  · exact lt_clog_of_one_lt_width (by rw [hpadded.last]; omega)
  · rw [hpow]
    exact hpadded.beyond
  · rw [hpow]
    exact hpadded.count_eq
  · rw [combine_h, hleft, hpadded.h_eq, node_succ_of_lt hright]
  · rw [combine_mutated]
    exact hpadded.mutated_eq
  · rintro rfl
    exact follows_combine hquot hright hleft hpadded.h_eq (hpadded.follows rfl)

theorem Padded.atOdd (hpadded : Padded hash leaf n p pbranch matchlevel mutated count level c j)
    (hodd : ¬2 ^ (level + 1) ∣ count.toNat) :
    ∃ i, AtOdd hash leaf n p pbranch matchlevel mutated count level i c := by
  have hpos : 0 < 2 ^ level := by positivity
  have hquot := hpadded.div_eq
  obtain ⟨i, rfl⟩ : ∃ i, j = 2 * i := by
    rw [hpadded.count_eq, pow_succ, mul_comm (2 ^ level), Nat.mul_dvd_mul_iff_right hpos] at hodd
    exact ⟨j / 2, by omega⟩
  refine ⟨i, hpadded.last, hpadded.level_le, hpadded.count_eq, hpadded.h_eq,
    hpadded.mutated_eq, fun hbranch => (hpadded.follows hbranch).here, fun hbranch hmatch => ?_⟩
  obtain ⟨hin, hout⟩ := (hpadded.follows hbranch).waits hmatch
  refine ⟨fun hlt => ?_, hout⟩
  obtain ⟨m, i', hm, hle, hcount, hrest⟩ := hin hlt
  refine ⟨m, i', hm, ?_, hcount, hrest⟩
  rcases Nat.eq_or_lt_of_le hle with rfl | hlt'
  · omega
  · exact hlt'

theorem succ_mul_le_of_dvd {i m top : ℕ} (hlt : i * m < top) (hdvd : m ∣ top) :
    (i + 1) * m ≤ top := by
  obtain ⟨k, rfl⟩ := hdvd
  rw [mul_comm m] at hlt ⊢
  exact Nat.mul_le_mul_right _ (lt_of_mul_lt_mul_right hlt (Nat.zero_le _))

include hodd in
theorem AtOdd.padded_le {top : ℕ}
    (hlevel : level < top) (htop : n ≤ 2 ^ top) : count.toNat + 2 ^ level ≤ 2 ^ top := by
  have hlast : 2 * i < width n level := by rw [hodd.odd]; omega
  rw [lt_width] at hlast
  have hpow : ∀ x, x * 2 ^ (level + 1) = 2 * x * 2 ^ level := by
    intro x
    ring
  have hle := succ_mul_le_of_dvd (i := i) (by rw [hpow]; omega)
    (pow_dvd_pow 2 (Nat.succ_le_of_lt hlevel))
  rw [hpow] at hle
  have hcount := hodd.count_eq
  have hsum : 2 * (i + 1) * 2 ^ level = (2 * i + 1) * 2 ^ level + 2 ^ level := by
    ring
  omega

include hodd in
theorem AtOdd.count_ne (hi : i ≠ 0) : count.toNat ≠ 2 ^ level := by
  intro heq
  have hcount := hodd.count_eq
  rw [heq] at hcount
  have hone := Nat.eq_of_mul_eq_mul_right (by positivity) ((one_mul (2 ^ level)).trans hcount)
  omega

section
variable {inner : ℕ → α} (hinner : ∀ level i, n / 2 ^ level = 2 * i + 1 →
    inner level = node hash leaf n level (2 * i))
include hinner

include hodd in
theorem exists_walkUp_duplicate
    (hi : i ≠ 0) (hlevel : level < 32) (hfits : count.toNat + 2 ^ level < 2 ^ 32) :
    ∃ level' c' i', walkUp (ImageCoin.combine hash pbranch inner matchlevel)
        (count + UInt32.ofNat (2 ^ level)) (32 - (level + 1)) (level + 1)
        (ImageCoin.duplicate hash pbranch c) = some (level', c') ∧
      level < level' ∧ level' < 32 ∧
      AtOdd hash leaf n p pbranch matchlevel mutated
        (count + UInt32.ofNat (2 ^ level)) level' i' c' := by
  set next := count + UInt32.ofNat (2 ^ level)
  have hcount : next.toNat = count.toNat + 2 ^ level := by
    have hsmall : 2 ^ level < 2 ^ 32 := Nat.pow_lt_pow_right (by omega) hlevel
    rw [UInt32.toNat_add, UInt32.toNat_ofNat', Nat.mod_eq_of_lt hsmall]
    exact Nat.mod_eq_of_lt hfits
  have hstart := hodd.duplicate hi hcount
  have hpos : 0 < 2 ^ level := by positivity
  obtain ⟨level', c', hwalk, hle, hlt, -, hnot, j, hpadded⟩ :=
    walkUp_spec _ next (by omega)
      (Q := fun up c => ∃ j, Padded hash leaf n p pbranch matchlevel mutated
        next up c j)
      (fun _ _ hdvd ⟨_, hpadded⟩ => ⟨_, hpadded.combine hinner hdvd⟩)
      (32 - (level + 1)) (level + 1) _ (by omega)
      ⟨i + 1, by rw [hstart.count_eq, mul_comm]⟩ ⟨i, hstart⟩
  obtain ⟨i', hodd'⟩ := hpadded.atOdd hnot
  exact ⟨level', c', i', hwalk, hle, hlt, hodd'⟩

theorem exists_sweep (hn : n ≤ 2 ^ 31) (fuel : ℕ) :
    ∀ {count : UInt32} {level i : ℕ} {c : Carry α}, 32 ≤ level + fuel → level < 32 →
      AtOdd hash leaf n p pbranch matchlevel mutated count level i c →
      ∃ c', sweep hash pbranch inner matchlevel fuel count level c = some c' ∧
        c'.h = node hash leaf n (Nat.clog 2 n) 0 ∧ c'.mutated = mutated ∧
        (pbranch → p.toNat < n → BranchTo hash leaf n p (Nat.clog 2 n) c'.branch) := by
  induction fuel with
  | zero => intro _ _ _ _ hfuel hlevel; omega
  | succ fuel ih =>
    intro count level i c hfuel hlevel hodd
    by_cases htop : i = 0
    · subst htop
      have hcount := hodd.count_eq
      have hone : ¬1 < width n level := by rw [hodd.odd]; omega
      rw [lt_width, one_mul, not_lt] at hone
      obtain rfl : level = Nat.clog 2 n :=
        le_antisymm hodd.level_le (Nat.clog_le_of_le_pow hone)
      refine ⟨c, ?_, hodd.h_eq, hodd.mutated_eq, ?_⟩
      · rw [sweep, if_pos (by omega)]
      · intro hbranch hlt
        cases hmatch : c.matchh with
        | true => exact (hodd.here hbranch hmatch).2
        | false =>
          -- No complete subtree is higher than the root.
          obtain ⟨m, i', -, hle, hquot, -⟩ :=
            (hodd.waits hbranch hmatch).1 hlt
          have hbig : 2 ^ m ≤ n := by
            by_contra hsmall
            rw [Nat.div_eq_of_lt (not_le.mp hsmall)] at hquot
            omega
          have hgrow := Nat.pow_lt_pow_right (a := 2) (by omega) hle
          omega
    · have hcount := hodd.count_eq
      have hne : count.toNat ≠ 2 ^ level := hodd.count_ne htop
      have hbelow : level < 31 := by
        by_contra hge
        have hhalf : (2 : ℕ) ^ 31 ≤ 2 ^ level :=
          Nat.pow_le_pow_right (by omega) (by omega)
        have hthree : 3 * 2 ^ 31 ≤ (2 * i + 1) * 2 ^ level :=
          Nat.mul_le_mul (by omega) hhalf
        have hlt := count.toNat_lt
        omega
      have hle := hodd.padded_le hbelow hn
      obtain ⟨level', c', i', hwalk, hup, hlt, hodd'⟩ :=
        exists_walkUp_duplicate hodd hinner htop hlevel (by omega)
      obtain ⟨c'', hsweep, hrest⟩ := ih (by omega) hlt hodd'
      refine ⟨c'', ?_, hrest⟩
      rw [sweep, if_neg hne]
      simp only [hwalk]
      exact hsweep

theorem sweep_eq_none (hn : 2 ^ 31 < n) (hmax : n < 2 ^ 32) (fuel : ℕ) :
    ∀ {count : UInt32} {level i : ℕ} {c : Carry α}, level < 32 →
      AtOdd hash leaf n p pbranch matchlevel mutated count level i c →
      sweep hash pbranch inner matchlevel fuel count level c = none := by
  induction fuel with
  | zero => exact fun _ _ => rfl
  | succ fuel ih =>
    intro count level i c hlevel hodd
    have hi : i ≠ 0 := by
      rintro rfl
      have hwidth : ¬1 < width n level := by rw [hodd.odd]; omega
      rw [lt_width] at hwidth
      have hbound : 2 ^ level ≤ 2 ^ 31 :=
        Nat.pow_le_pow_right (by omega) (by omega)
      omega
    have hne : count.toNat ≠ 2 ^ level := hodd.count_ne hi
    rw [sweep, if_neg hne]
    have hle := hodd.padded_le hlevel hmax.le
    rcases Nat.lt_or_eq_of_le hle with hfits | hover
    · obtain ⟨level', c', i', hwalk, -, hlt, hodd'⟩ :=
        exists_walkUp_duplicate hodd hinner hi hlevel hfits
      simp only [hwalk]
      exact ih hlt hodd'
    · have hzero : count + UInt32.ofNat (2 ^ level) = 0 := by
        have hsmall : 2 ^ level < 2 ^ 32 :=
          Nat.pow_lt_pow_right (by omega) hlevel
        rw [← UInt32.toNat_inj, UInt32.toNat_add, UInt32.toNat_ofNat',
          Nat.mod_eq_of_lt hsmall, hover]
        rfl
      simp only [hzero, walkUp_zero]
      rfl

end
end

/-! ## The whole computation -/

section
variable {hash : α → α → α} {leaf : ℕ → α} {n : ℕ} {p : UInt32} {pbranch : Bool} {s : MerkleState α}

theorem Streamed.atOdd {level : ℕ} (hs : Streamed hash leaf n p pbranch n s) (hpos : 0 < n)
    (hdvd : 2 ^ level ∣ n) (hodd : ¬2 ^ (level + 1) ∣ n) :
    ∃ i, AtOdd hash leaf n p pbranch s.matchlevel s.mutated s.count level i
      ⟨s.inner level, s.matchlevel = some level, s.mutated, s.branch⟩ := by
  have hle := Nat.le_of_dvd hpos hdvd
  have hpow : 0 < 2 ^ level := by positivity
  obtain ⟨m, hm⟩ := hdvd
  obtain ⟨i, rfl⟩ : ∃ i, m = 2 * i + 1 := by
    rw [hm, pow_succ, Nat.mul_dvd_mul_iff_left hpow] at hodd
    exact ⟨m / 2, by omega⟩
  have hquot : n / 2 ^ level = 2 * i + 1 := by
    rw [hm, Nat.mul_div_cancel_left _ hpow]
  refine ⟨i, ?_, ?_, ?_, hs.inner level i hquot, rfl, ?_, ?_⟩
  · rw [width_of_dvd ⟨_, hm⟩, hquot]
  · exact (Nat.pow_le_pow_iff_right (by omega)).mp (hle.trans (Nat.le_pow_clog (by omega) n))
  · rw [hs.count_eq, mul_comm, ← hm]
  · intro hbranch hmatch
    obtain ⟨hin, hout⟩ := hs.waiting hbranch
    have hlevel := of_decide_eq_true hmatch
    have hlt : p.toNat < n := by
      by_contra hle
      rw [(hout (not_lt.mp hle)).1] at hlevel
      cases hlevel
    obtain ⟨m, i', hm', -, hquot', hindex, hto⟩ := hin hlt
    obtain rfl : m = level := by simpa [hlevel] using hm'.symm
    obtain rfl : i' = i := by omega
    exact ⟨hindex, hto⟩
  · intro hbranch hmatch
    obtain ⟨hin, hout⟩ := hs.waiting hbranch
    have hlevel := of_decide_eq_false hmatch
    refine ⟨fun hlt => ?_, hout⟩
    obtain ⟨m, i', hm', -, hquot', hrest⟩ := hin hlt
    refine ⟨m, i', hm', ?_, hquot', hrest⟩
    rcases lt_trichotomy m level with hbelow | rfl | habove
    · have heven : 2 ∣ n / 2 ^ m := by
        apply (Nat.dvd_div_iff_mul_dvd ((pow_dvd_pow 2 hbelow.le).trans ⟨_, hm⟩)).mpr
        exact (pow_dvd_pow 2 hbelow).trans ⟨_, hm⟩
      omega
    · exact absurd hm' hlevel
    · exact habove

theorem Streamed.exists_start (hs : Streamed hash leaf n p pbranch n s) (hpos : 0 < n) :
    ∃ level i, walkUp (fun _ => id) s.count 32 0 () = some (level, ()) ∧ level < 32 ∧
      AtOdd hash leaf n p pbranch s.matchlevel s.mutated s.count level i
        ⟨s.inner level, s.matchlevel = some level, s.mutated, s.branch⟩ := by
  have hcount := hs.count_eq
  obtain ⟨level, ⟨⟩, hwalk, -, hlt, hdvd, hodd, -⟩ :=
    walkUp_spec (fun _ => id) s.count (by omega)
      (Q := fun _ (_ : Unit) => True) (fun _ _ _ _ => True.intro) 32 0 () rfl (by simp) True.intro
  rw [hcount] at hdvd hodd
  obtain ⟨i, hstart⟩ := hs.atOdd hpos hdvd hodd
  exact ⟨level, i, hwalk, hlt, hstart⟩

variable [Zero α]

theorem streamed_start : Streamed hash leaf n p pbranch 0 ⟨0, fun _ => 0, none, false, []⟩ := by
  refine ⟨rfl, ?_, ?_, fun _ => ⟨by simp, fun _ => ⟨rfl, rfl⟩⟩⟩
  · intro level i hquot
    simp at hquot
  · simp
    rintro ⟨level, i, hle, -⟩
    have hpos : 0 < (2 * i + 2) * 2 ^ level := by positivity
    omega

def leafAt (leaves : List α) (i : ℕ) : α := leaves.getD i 0

variable [DecidableEq α] {leaves : List α}

variable (hash p pbranch) in
theorem exists_stream (leaves : List α) (hlength : leaves.length < 2 ^ 32) :
    ∃ s, leaves.foldlM (addLeaf hash pbranch p) ⟨0, fun _ => 0, none, false, []⟩ = some s ∧
      Streamed hash (leafAt leaves) leaves.length p pbranch leaves.length s := by
  have hleaf : ∀ i, leaves[i]? =
      if i < leaves.length then some (leafAt leaves (0 + i)) else none := by
    intro i
    split_ifs with hi
    · simp [leafAt, hi]
    · simp [not_lt.mp hi]
  simpa using streamed_foldlM leaves streamed_start hleaf (by simp) (by simpa)

variable (hash p pbranch) in
theorem exists_merkleComputation (hne : leaves ≠ []) (hlength : leaves.length ≤ 2 ^ 31) :
    ∃ r, merkleComputation hash leaves p pbranch = some r ∧
      r.root = node hash (leafAt leaves) leaves.length (Nat.clog 2 leaves.length) 0 ∧
      (r.mutated ↔ HasTwins hash (leafAt leaves) leaves.length leaves.length) ∧
      (pbranch → p.toNat < leaves.length → BranchTo hash (leafAt leaves) leaves.length p
          (Nat.clog 2 leaves.length) r.branch) := by
  obtain ⟨s, hstream, hs⟩ := exists_stream hash p pbranch leaves (by omega)
  obtain ⟨level, i, hwalk, hlt, hstart⟩ :=
    hs.exists_start (length_pos_iff.mpr hne)
  obtain ⟨c, hsweep, hh, hmutated, hbranch⟩ :=
    exists_sweep hs.inner hlength 32 (by omega) hlt hstart
  refine ⟨⟨c.h, c.mutated, c.branch⟩, ?_, hh, ?_, hbranch⟩
  · simp only [merkleComputation, if_neg hne, hstream, Option.bind_eq_bind,
      Option.bind_some, hwalk, hsweep]
    rfl
  · rw [hmutated]
    exact hs.mutated

theorem merkleComputation_eq_none (hlength : 2 ^ 31 < leaves.length) :
    merkleComputation hash leaves p pbranch = none := by
  have hne : leaves ≠ [] := by
    rintro rfl
    simp at hlength
  by_cases hmax : leaves.length < 2 ^ 32
  · obtain ⟨s, hstream, hs⟩ := exists_stream hash p pbranch leaves hmax
    obtain ⟨level, i, hwalk, hlt, hstart⟩ := hs.exists_start (by omega)
    simp only [merkleComputation, if_neg hne, hstream, Option.bind_eq_bind,
      Option.bind_some, hwalk, sweep_eq_none hs.inner hlength hmax 32 hlt hstart]
    rfl
  · -- The counter wraps to zero with leaf number `2 ^ 32`.
    obtain ⟨front, x, back, hsplit, hfront⟩ : ∃ front x back,
        leaves = front ++ x :: back ∧ front.length = 2 ^ 32 - 1 := by
      have hdrop : (leaves.drop (2 ^ 32 - 1)).length ≠ 0 := by
        rw [length_drop]
        omega
      obtain ⟨x, back, hback⟩ :=
        exists_cons_of_length_pos (Nat.pos_of_ne_zero hdrop)
      refine ⟨leaves.take (2 ^ 32 - 1), x, back, ?_, ?_⟩
      · rw [← hback, take_append_drop]
      · rw [length_take]
        omega
    obtain ⟨s, hstream, hs⟩ := exists_stream hash p pbranch front (by omega)
    have hwrap : s.count + 1 = 0 := by
      rw [← UInt32.toNat_inj, UInt32.toNat_add, hs.count_eq, hfront]
      rfl
    have hadd : addLeaf hash pbranch p s x = none := by
      simp only [addLeaf, hwrap]
      rfl
    have hfold : leaves.foldlM (addLeaf hash pbranch p)
        ⟨0, fun _ => 0, none, false, []⟩ = none := by
      rw [hsplit, foldlM_append, hstream]
      simp [hadd]
    simp only [merkleComputation, if_neg hne, hfold]
    rfl

end
end ImageCoin
