import ImageCoin.Merkle
import ImageCoin.ChainParams
import Mathlib.Data.BitVec

/-!
# Merkle roots, level by level, and their collisions

`BlockBuildMerkleTree` of the tests builds the tree one level at a time and duplicates the last
node of an odd level.  The one-pass computation returns its root, and its branches lead there.
-/

namespace ImageCoin

open MerkleTree List Nat
variable {α : Type}

section
variable (hash : α → α → α)

def nextLevel : List α → List α
  | a :: b :: rest => hash a b :: nextLevel rest
  | [a] => [hash a a]
  | [] => []

def lastLevel [Zero α] : ℕ → List α → α
  | 0, level => level.headD 0
  | fuel + 1, level =>
    if level.length > 1 then lastLevel fuel (nextLevel hash level)
    else level.headD 0

def naiveMerkleRoot [Zero α] (leaves : List α) : α :=
  lastLevel hash leaves.length leaves

variable {hash}

theorem getElem?_nextLevel (level : List α) : ∀ i, (nextLevel hash level)[i]? =
    level[2 * i]?.map fun a => hash a (level[2 * i + 1]?.getD a) := by
  induction level using nextLevel.induct with
  | case1 a b rest ih =>
    intro i
    cases i with
    | zero => simp [nextLevel]
    | succ i =>
      have hleft : 2 * (i + 1) = 2 * i + 1 + 1 := by omega
      simp [nextLevel, ih, hleft]
  | case2 a =>
    intro i
    cases i with
    | zero => simp [nextLevel]
    | succ i =>
      have hleft : 2 * (i + 1) = 2 * i + 1 + 1 := by omega
      simp [nextLevel]
  | case3 => intro i; simp [nextLevel]

variable {leaf : ℕ → α} {n : ℕ}

def nodesAt (hash : α → α → α) (leaf : ℕ → α) (n level : ℕ) : List α :=
  (range (width n level)).map (node hash leaf n level)

variable (hash leaf n) in
theorem getElem?_nodesAt (level i : ℕ) : (nodesAt hash leaf n level)[i]? =
    if i < width n level then some (node hash leaf n level i) else none := by
  unfold nodesAt
  split_ifs with hi
  · simp [hi]
  · simp [not_lt.mp hi]

theorem nextLevel_nodesAt (level : ℕ) : nextLevel hash (nodesAt hash leaf n level) =
    nodesAt hash leaf n (level + 1) := by
  apply ext_getElem?
  intro i
  have hup : i < width n (level + 1) ↔ 2 * i < width n level := by
    rw [width_succ]
    omega
  simp only [getElem?_nextLevel, getElem?_nodesAt, hup]
  by_cases hleft : 2 * i < width n level
  · by_cases hright : 2 * i + 1 < width n level
    · simp [hright, node]
    · simp [hright, node]
  · simp [hleft]

variable (hash leaf) in
theorem lastLevel_nodesAt [Zero α] (hpos : 0 < n) (fuel : ℕ) :
    ∀ level ≤ clog 2 n, width n level ≤ fuel + 1 →
      lastLevel hash fuel (nodesAt hash leaf n level) = node hash leaf n (clog 2 n) 0 := by
  -- A level with one node is the top.
  have htop : ∀ level ≤ clog 2 n, ¬1 < width n level → (nodesAt hash leaf n level).headD 0 =
        node hash leaf n (clog 2 n) 0 := by
    intro level hle hone
    have hbound := mt lt_width.mpr hone
    rw [one_mul, not_lt] at hbound
    obtain rfl := le_antisymm hle (clog_le_of_le_pow hbound)
    have hfirst := getElem?_nodesAt hash leaf n (clog 2 n) 0
    rw [if_pos (width_pos hpos _)] at hfirst
    rw [headD_eq_head?_getD, head?_eq_getElem?, hfirst]
    rfl
  induction fuel with
  | zero => exact fun level hle hwidth => htop level hle (by omega)
  | succ fuel ih =>
    intro level hle hwidth
    have hlength : (nodesAt hash leaf n level).length = width n level := by
      simp [nodesAt]
    by_cases hmany : 1 < width n level
    · rw [lastLevel, if_pos (by omega), nextLevel_nodesAt]
      apply ih _ (lt_clog_of_one_lt_width hmany)
      rw [width_succ]
      omega
    · rw [lastLevel, if_neg (by omega)]
      exact htop level hle hmany

theorem nodesAt_zero [Zero α] (leaves : List α) :
    nodesAt hash (leafAt leaves) leaves.length 0 = leaves := by
  apply ext_getElem?
  intro i
  rw [getElem?_nodesAt, width_zero]
  split_ifs with hi
  · simp [node, leafAt, hi]
  · simp [not_lt.mp hi]

theorem naiveMerkleRoot_eq_node [Zero α] {leaves : List α} (hne : leaves ≠ []) :
    naiveMerkleRoot hash leaves =
      node hash (leafAt leaves) leaves.length (clog 2 leaves.length) 0 := by
  have hlast := lastLevel_nodesAt hash (leafAt leaves)
    (length_pos_iff.mpr hne) leaves.length 0 (zero_le _) (by rw [width_zero]; omega)
  rwa [nodesAt_zero] at hlast

end

/-- The one-pass computation is the tree built level by level, and the branch of
every leaf leads to its root. -/
theorem length_le_of_computeMerkleRoot [Zero α] [DecidableEq α] {hash : α → α → α}
    {leaves : List α} {result : α × Bool} (hroot : computeMerkleRoot hash leaves = some result) :
    leaves.length ≤ 2 ^ 31 := by
  by_contra hlong
  rw [computeMerkleRoot, merkleComputation_eq_none (not_le.mp hlong)] at hroot
  cases hroot

/-- The one-pass computation gives the root of the levels, and every branch leads to it, as long
as the number of leaves padded to a power of two is below the 32 levels of the counter. -/
theorem computeMerkleRoot_eq_naive_iff [Zero α] [DecidableEq α]
    (hash : α → α → α) (leaves : List α) :
    ((∃ mutated, computeMerkleRoot hash leaves = some (naiveMerkleRoot hash leaves, mutated)) ∧
      ∀ i leaf, leaves[i]? = some leaf →
        ∃ branch, computeMerkleBranch hash leaves (UInt32.ofNat i) = some branch ∧
          computeMerkleRootFromBranch hash leaf branch (UInt32.ofNat i) =
            naiveMerkleRoot hash leaves) ↔
      leaves.length ≤ 2 ^ 31 := by
  constructor
  · rintro ⟨⟨mutated, hroot⟩, -⟩
    exact length_le_of_computeMerkleRoot hroot
  · intro hlength
    by_cases hne : leaves = []
    · subst hne
      exact ⟨⟨false, rfl⟩, by simp⟩
    rw [naiveMerkleRoot_eq_node hne]
    constructor
    · obtain ⟨r, hr, hroot, -, -⟩ := exists_merkleComputation hash 0xffffffff false hne hlength
      refine ⟨r.mutated, ?_⟩
      rw [computeMerkleRoot, hr, Option.map_some, hroot]
    · intro i leaf hleaf
      obtain ⟨hi, hget⟩ := List.getElem?_eq_some_iff.mp hleaf
      have hindex : (UInt32.ofNat i).toNat = i := by
        exact mod_eq_of_lt (by omega)
      obtain ⟨r, hr, -, -, hbranch⟩ := exists_merkleComputation hash
        (UInt32.ofNat i) true hne hlength
      obtain ⟨hdepth, hto⟩ := hbranch rfl (by rwa [hindex])
      refine ⟨r.branch, by rw [computeMerkleBranch, hr]; rfl, ?_⟩
      have hat : leafAt leaves i = leaf := by simp [leafAt, hleaf]
      rw [hindex, hat] at hto
      rw [hto, div_eq_of_lt (lt_of_lt_of_le hi (le_pow_clog (by omega) _))]

def sumHash (left right : UInt256) : UInt256 := 3 * left + 5 * right + 7

/-- One leaf more than the counter can pad: there is no root. -/
theorem computeMerkleRoot_overflow : ∃ leaves : List UInt256, leaves.length = 2 ^ 31 + 1 ∧
      ¬∃ mutated, computeMerkleRoot sumHash leaves =
        some (naiveMerkleRoot sumHash leaves, mutated) := by
  refine ⟨replicate (2 ^ 31 + 1) 0, length_replicate, ?_⟩
  rintro ⟨mutated, hroot⟩
  have hlength := length_le_of_computeMerkleRoot hroot
  rw [length_replicate] at hlength
  omega

section
variable [Zero α] {hash : α → α → α} {leaves : List α}

theorem computeMerkleRoot_eq_some [DecidableEq α] {root : α} {mutated : Bool} (hne : leaves ≠ [])
    (hroot : computeMerkleRoot hash leaves = some (root, mutated)) :
    root = node hash (leafAt leaves) leaves.length (clog 2 leaves.length) 0 ∧
      (mutated ↔ HasTwins hash (leafAt leaves) leaves.length leaves.length) := by
  obtain ⟨r, hr, hnode, hmutated, -⟩ := exists_merkleComputation hash 0xffffffff false hne
    (length_le_of_computeMerkleRoot hroot)
  rw [computeMerkleRoot, hr, Option.map_some, Option.some_inj, Prod.mk.injEq] at hroot
  obtain ⟨rfl, rfl⟩ := hroot
  exact ⟨hnode, hmutated⟩

variable {leaves' : List α}

theorem eq_of_leafAt_eq (hlength : leaves.length = leaves'.length)
    (hleaf : ∀ i < leaves.length, leafAt leaves i = leafAt leaves' i) : leaves = leaves' := by
  apply ext_getElem hlength
  intro i hi hi'
  have hat := hleaf i hi
  simpa [leafAt, hi, hi'] using hat

theorem clog_le_clog_of_root_eq (hinj : Function.Injective2 hash) (hne : leaves ≠ [])
    (hleaf : ∀ a b, hash a b ∉ leaves)
    (hroot : node hash (leafAt leaves) leaves.length (clog 2 leaves.length) 0 =
      node hash (leafAt leaves') leaves'.length (clog 2 leaves'.length) 0) :
    clog 2 leaves'.length ≤ clog 2 leaves.length := by
  by_contra hlt
  obtain ⟨extra, hextra⟩ : ∃ extra, clog 2 leaves'.length = clog 2 leaves.length + (extra + 1) :=
    ⟨clog 2 leaves'.length - clog 2 leaves.length - 1, by omega⟩
  rw [hextra] at hroot
  have hfirst := leaf_eq_of_node_eq hinj _ hroot
  have hmem : leafAt leaves 0 ∈ leaves := by
    cases leaves with
    | nil => exact absurd rfl hne
    | cons a rest => simp [leafAt]
  rw [hfirst, node] at hmem
  exact hleaf _ _ hmem

end

/-- Of two different lists with the same root, one is reported as mutated. -/
theorem mutated_of_same_root [Zero α] [DecidableEq α] (hash : α → α → α)
    (hinj : Function.Injective2 hash) (leaves₁ leaves₂ : List α)
    (hne₁ : leaves₁ ≠ []) (hne₂ : leaves₂ ≠ []) (hdiffer : leaves₁ ≠ leaves₂)
    (hleaf : ∀ a b, hash a b ∉ leaves₁ ∧ hash a b ∉ leaves₂) (root : α) (mutated₁ mutated₂ : Bool)
    (hroot₁ : computeMerkleRoot hash leaves₁ = some (root, mutated₁))
    (hroot₂ : computeMerkleRoot hash leaves₂ = some (root, mutated₂)) :
    mutated₁ ∨ mutated₂ := by
  obtain ⟨hnode₁, htwins₁⟩ := computeMerkleRoot_eq_some hne₁ hroot₁
  obtain ⟨hnode₂, htwins₂⟩ := computeMerkleRoot_eq_some hne₂ hroot₂
  have hsame := hnode₁.symm.trans hnode₂
  have hheight : clog 2 leaves₁.length = clog 2 leaves₂.length :=
    le_antisymm (clog_le_clog_of_root_eq hinj hne₂ (fun a b => (hleaf a b).2) hsame.symm)
      (clog_le_clog_of_root_eq hinj hne₁ (fun a b => (hleaf a b).1) hsame)
  have hpos₁ := length_pos_iff.mpr hne₁
  have hpos₂ := length_pos_iff.mpr hne₂
  rw [htwins₁, htwins₂]
  rcases lt_trichotomy leaves₁.length leaves₂.length with hlt | heq | hlt
  · right
    rw [hheight] at hsame
    exact hasTwins_of_root_eq hinj hpos₁ hlt (le_pow_clog (by omega) _) hsame
  · -- Of the same length, the lists agree leaf by leaf.
    exfalso
    apply hdiffer
    apply eq_of_leafAt_eq heq
    intro i hi
    rw [← hheight, ← zero_add (clog 2 leaves₁.length)] at hsame
    have hbound := le_pow_clog (b := 2) (by omega) leaves₁.length
    have hleaves := node_eq_of_node_eq hinj _ hsame i (by omega)
      (by simpa using hi) (by simpa [← heq] using hi)
    simpa [node] using hleaves
  · left
    rw [← hheight] at hsame
    exact hasTwins_of_root_eq hinj hpos₂ hlt (le_pow_clog (by omega) _) hsame.symm

def pairHash (left right : ℕ) : ℕ := pair left right + 10

theorem pairHash_injective2 : Function.Injective2 pairHash := by
  intro a a' b b' heq
  exact pair_eq_pair.mp (add_right_cancel heq)

theorem mutated_of_same_root_repeated : ∃ root mutated₁ mutated₂,
      computeMerkleRoot pairHash [1, 2, 3] = some (root, mutated₁) ∧
      computeMerkleRoot pairHash [1, 2, 3, 3] = some (root, mutated₂) ∧
      (mutated₁ ∨ mutated₂) := by
  have hroot₁ : computeMerkleRoot pairHash [1, 2, 3] =
      some (pairHash (pairHash 1 2) (pairHash 3 3), false) := by
    decide +kernel
  have hroot₂ : computeMerkleRoot pairHash [1, 2, 3, 3] =
      some (pairHash (pairHash 1 2) (pairHash 3 3), true) := by
    decide +kernel
  refine ⟨_, false, true, hroot₁, hroot₂, mutated_of_same_root pairHash
    pairHash_injective2 [1, 2, 3] [1, 2, 3, 3] (by decide) (by decide)
    (by decide) ?_ _ false true hroot₁ hroot₂⟩
  intro a b
  simp [pairHash]

end ImageCoin
