import Mathlib.Tactic

/-!
# Hash trees whose odd levels repeat their last node

A tree over `n` leaves has `width n level` nodes at each level.  A node whose right child would
lie beyond the end of its level hashes its left child with itself.
-/

namespace MerkleTree

open Nat
variable {α : Type} {n level : ℕ}

def width (n level : ℕ) : ℕ := (n + 2 ^ level - 1) / 2 ^ level

theorem lt_width {i : ℕ} : i < width n level ↔ i * 2 ^ level < n := by
  have hpos : 0 < 2 ^ level := by positivity
  unfold width
  rw [lt_iff_add_one_le, le_div_iff_mul_le hpos, add_mul]
  omega

@[simp] theorem width_zero (n : ℕ) : width n 0 = n := by
  simp [width]

theorem width_succ (n level : ℕ) : width n (level + 1) = (width n level + 1) / 2 := by
  apply eq_of_forall_lt_iff
  intro i
  have hhalf : i < (width n level + 1) / 2 ↔ 2 * i < width n level := by omega
  rw [hhalf, lt_width, lt_width, pow_succ]
  have hmul : i * (2 ^ level * 2) = 2 * i * 2 ^ level := by ring
  rw [hmul]

theorem width_pos (hn : 0 < n) (level : ℕ) : 0 < width n level := by
  rw [lt_width]
  omega

theorem width_of_dvd (hdvd : 2 ^ level ∣ n) : width n level = n / 2 ^ level := by
  obtain ⟨m, rfl⟩ := hdvd
  have hpos : 0 < 2 ^ level := by positivity
  apply eq_of_forall_lt_iff
  intro i
  rw [lt_width, Nat.mul_div_cancel_left _ hpos, mul_comm, Nat.mul_lt_mul_left hpos]

section
variable (hash : α → α → α) (leaf : ℕ → α) (n : ℕ)

def node : ℕ → ℕ → α
  | 0, i => leaf i
  | level + 1, i =>
    hash (node level (2 * i)) (if 2 * i + 1 < width n level then node level (2 * i + 1)
        else node level (2 * i))

variable {hash leaf n} {level i : ℕ}

theorem node_succ_of_lt (hright : 2 * i + 1 < width n level) :
    node hash leaf n (level + 1) i = hash (node hash leaf n level (2 * i))
        (node hash leaf n level (2 * i + 1)) := by
  rw [node, if_pos hright]

theorem node_succ_of_not_lt (hright : ¬2 * i + 1 < width n level) :
    node hash leaf n (level + 1) i = hash (node hash leaf n level (2 * i))
        (node hash leaf n level (2 * i)) := by
  rw [node, if_neg hright]

/-- Two siblings that are complete among the first `count` leaves are equal. -/
def HasTwins (hash : α → α → α) (leaf : ℕ → α) (n : ℕ) (count : ℕ) : Prop :=
  ∃ level i, (2 * i + 2) * 2 ^ level ≤ count ∧
    node hash leaf n level (2 * i) = node hash leaf n level (2 * i + 1)

end

section
variable {hash : α → α → α} {leaf₁ leaf₂ : ℕ → α} {n₁ n₂ : ℕ} (hinj : Function.Injective2 hash)
include hinj

theorem node_eq_of_node_eq (steps : ℕ) :
    ∀ {level i₁ i₂ : ℕ}, node hash leaf₁ n₁ (level + steps) i₁ =
        node hash leaf₂ n₂ (level + steps) i₂ →
      ∀ offset < 2 ^ steps, i₁ * 2 ^ steps + offset < width n₁ level →
        i₂ * 2 ^ steps + offset < width n₂ level →
        node hash leaf₁ n₁ level (i₁ * 2 ^ steps + offset) =
          node hash leaf₂ n₂ level (i₂ * 2 ^ steps + offset) := by
  induction steps with
  | zero =>
    intro level i₁ i₂ heq offset hoffset _ _
    obtain rfl : offset = 0 := by simpa using hoffset
    simpa using heq
  | succ steps ih =>
    intro level i₁ i₂ heq offset hoffset hlt₁ hlt₂
    -- The parents of the two nodes are `steps` levels below, by induction.
    have hparent : ∀ i, i * 2 ^ (steps + 1) + offset =
        2 * (i * 2 ^ steps + offset / 2) + offset % 2 := by
      intro i
      ring_nf
      omega
    have hup : ∀ {n i : ℕ}, i * 2 ^ (steps + 1) + offset < width n level →
        i * 2 ^ steps + offset / 2 < width n (level + 1) := by
      intro n i hlt
      rw [hparent] at hlt
      rw [width_succ]
      omega
    have hsteps : level + (steps + 1) = level + 1 + steps := by omega
    rw [hsteps] at heq
    have hnode := ih heq (offset / 2) (by rw [pow_succ] at hoffset; omega) (hup hlt₁) (hup hlt₂)
    rw [hparent] at hlt₁ hlt₂ ⊢
    rw [hparent]
    rcases mod_two_eq_zero_or_one offset with hmod | hmod
    · rw [hmod, add_zero, add_zero]
      exact (hinj hnode).1
    · rw [hmod] at hlt₁ hlt₂ ⊢
      rw [node_succ_of_lt hlt₁, node_succ_of_lt hlt₂] at hnode
      exact (hinj hnode).2

theorem leaf_eq_of_node_eq (level : ℕ) :
    ∀ {extra : ℕ}, node hash leaf₁ n₁ level 0 = node hash leaf₂ n₂ (level + extra) 0 →
      leaf₁ 0 = node hash leaf₂ n₂ extra 0 := by
  induction level with
  | zero =>
    intro extra heq
    simpa [node] using heq
  | succ level ih =>
    intro extra heq
    have hsteps : level + 1 + extra = level + extra + 1 := by omega
    rw [hsteps, node, node] at heq
    exact ih (hinj heq).1

theorem twin_of_node_eq {i₁ i₂ : ℕ}
    (heq : node hash leaf₁ n₁ (level + 1) i₁ = node hash leaf₂ n₂ (level + 1) i₂)
    (habsent : ¬2 * i₁ + 1 < width n₁ level) (hpresent : 2 * i₂ + 1 < width n₂ level) :
    node hash leaf₂ n₂ level (2 * i₂) = node hash leaf₂ n₂ level (2 * i₂ + 1) := by
  rw [node_succ_of_not_lt habsent, node_succ_of_lt hpresent] at heq
  exact (hinj heq).1.symm.trans (hinj heq).2

theorem hasTwins_of_cut_twin {leaf : ℕ → α} {k a : ℕ}
    (htwin : node hash leaf n k (2 * a) = node hash leaf n k (2 * a + 1))
    (hstart : (2 * a + 1) * 2 ^ k < n) (hend : n < (2 * a + 2) * 2 ^ k) :
    HasTwins hash leaf n n := by
  -- `n` ends with a complete subtree at a level `j` below `k`.
  obtain ⟨j, m, ⟨b, rfl⟩, hn⟩ := exists_eq_two_pow_mul_odd (n := n) (by omega)
  have hj : j < k := by
    by_contra hle
    obtain ⟨extra, rfl⟩ := Nat.exists_eq_add_of_le (not_lt.mp hle)
    have hmul : n = 2 ^ extra * (2 * b + 1) * 2 ^ k := by
      rw [hn, pow_add]
      ring
    rw [hmul] at hstart hend
    have hlow := lt_of_mul_lt_mul_right hstart (zero_le _)
    have hhigh := lt_of_mul_lt_mul_right hend (zero_le _)
    omega
  obtain ⟨steps, rfl⟩ : ∃ steps, k = j + 1 + steps := ⟨k - (j + 1), by omega⟩
  have hpow : ∀ x, x * 2 ^ (j + 1 + steps) = x * 2 ^ steps * 2 * 2 ^ j := by
    intro x
    ring
  rw [hpow, hn, mul_comm (2 ^ j)] at hstart hend
  have hlow := lt_of_mul_lt_mul_right hstart (zero_le _)
  have hhigh := lt_of_mul_lt_mul_right hend (zero_le _)
  obtain ⟨offset, hb⟩ : ∃ offset, b = (2 * a + 1) * 2 ^ steps + offset :=
    ⟨b - (2 * a + 1) * 2 ^ steps, by omega⟩
  have hsum : (2 * a + 2) * 2 ^ steps = (2 * a + 1) * 2 ^ steps + 2 ^ steps := by
    ring
  have hless : (2 * a + 1) * 2 ^ steps = 2 * a * 2 ^ steps + 2 ^ steps := by ring
  have hedge : ∀ i, i < width n j ↔ i < 2 * b + 1 := by
    intro i
    rw [lt_width, hn, mul_comm (2 ^ j), Nat.mul_lt_mul_right (by positivity)]
  have hnode : node hash leaf n (j + 1) b =
      node hash leaf n (j + 1) (2 * a * 2 ^ steps + offset) := by
    rw [hb]
    apply node_eq_of_node_eq hinj steps htwin.symm offset (by omega)
    all_goals
      rw [width_succ]
      have hbelow := hedge (2 * b)
      omega
  refine ⟨j, 2 * a * 2 ^ steps + offset, ?_,
    twin_of_node_eq hinj hnode (by rw [hedge]; omega) (by rw [hedge]; omega)⟩
  rw [hn, mul_comm (2 ^ j)]
  apply Nat.mul_le_mul_right
  omega

theorem hasTwins_of_root_eq {height : ℕ} (hpos : 0 < n₁) (hlt : n₁ < n₂) (hheight : n₂ ≤ 2 ^ height)
    (hroot : node hash leaf₁ n₁ height 0 = node hash leaf₂ n₂ height 0) :
    HasTwins hash leaf₂ n₂ n₂ := by
  -- `n₁` ends with a complete subtree at level `k` that has no sibling.
  obtain ⟨k, m₁, ⟨a, rfl⟩, hn₁⟩ := exists_eq_two_pow_mul_odd hpos.ne'
  have hk : k < height := by
    apply (Nat.pow_lt_pow_iff_right (a := 2) (by omega)).mp
    calc 2 ^ k ≤ 2 ^ k * (2 * a + 1) := Nat.le_mul_of_pos_right _ (by omega)
      _ < 2 ^ height := by omega
  obtain ⟨steps, rfl⟩ : ∃ steps, height = k + 1 + steps := ⟨height - (k + 1), by omega⟩
  have ha : a * 2 ^ (k + 1) < n₁ := by
    rw [hn₁, pow_succ]
    nlinarith
  have hoffset : a < 2 ^ steps := by
    have hprod : a * 2 ^ (k + 1) < 2 ^ steps * 2 ^ (k + 1) := by
      rw [← pow_add, add_comm steps]
      omega
    exact lt_of_mul_lt_mul_right hprod (zero_le _)
  have hparent : node hash leaf₁ n₁ (k + 1) a = node hash leaf₂ n₂ (k + 1) a := by
    have hnode := node_eq_of_node_eq hinj steps hroot a hoffset
      (by rwa [zero_mul, zero_add, lt_width]) (by rw [zero_mul, zero_add, lt_width]; omega)
    simpa using hnode
  have hedge : (2 * a + 1) * 2 ^ k = n₁ := by rw [hn₁, mul_comm]
  have htwin := twin_of_node_eq hinj hparent (by rw [lt_width]; omega) (by rw [lt_width]; omega)
  by_cases hfull : (2 * a + 2) * 2 ^ k ≤ n₂
  · exact ⟨k, a, hfull, htwin⟩
  · exact hasTwins_of_cut_twin hinj htwin (by omega) (by omega)

end
end MerkleTree
