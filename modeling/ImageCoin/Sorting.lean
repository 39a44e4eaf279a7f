import Mathlib.Tactic

/-!
# Sorting by a comparison

What a sort promises that need not be stable: the elements again, none before a lesser one.
-/

structure Sorting {α : Type} (less : α → α → Bool) where
  sort : List α → List α
  perm : ∀ l, (sort l).Perm l
  sorted : ∀ l, (sort l).Pairwise fun a b => less b a = false

namespace Sorting

open List
variable {α κ : Type} [LinearOrder κ] {less : α → α → Bool} {key : α → κ}

def byKey (key : α → κ) (hkey : ∀ a b, less a b ↔ key a < key b) : Sorting less where
  sort := insertionSort fun a b => key a ≤ key b
  perm := perm_insertionSort _
  sorted l := by
    have : Std.Total fun a b : α => key a ≤ key b := ⟨fun a b => le_total _ _⟩
    have : IsTrans α fun a b => key a ≤ key b := ⟨fun a b c => le_trans⟩
    refine (pairwise_insertionSort (fun a b => key a ≤ key b) l).imp fun {a b} hle => ?_
    rw [Bool.eq_false_iff, Ne, hkey]
    exact not_lt.mpr hle

theorem not_less_iff (hkey : ∀ a b, less a b ↔ key a < key b) (a b : α) :
    less b a = false ↔ key a ≤ key b := by
  rw [Bool.eq_false_iff, Ne, hkey, not_lt]

theorem isStrictWeakOrder (hkey : ∀ a b, less a b ↔ key a < key b) :
    IsStrictWeakOrder α fun a b => less a b where
  irrefl a h := lt_irrefl _ ((hkey a a).mp h)
  trans a b c hab hbc := (hkey a c).mpr (((hkey a b).mp hab).trans ((hkey b c).mp hbc))
  incomp_trans a b c hab hbc := by
    simp only [hkey, not_lt] at *
    exact ⟨hbc.1.trans hab.1, hab.2.trans hbc.2⟩

variable {l l' : List α}

theorem eq_of_perm (hkey : ∀ a b, less a b ↔ key a < key b)
    (hinj : ∀ a ∈ l, ∀ b ∈ l, key a = key b → a = b) (hl : l.Pairwise fun a b => less b a = false)
    (hl' : l'.Pairwise fun a b => less b a = false) (hperm : l.Perm l') : l = l' := by
  refine hperm.eq_of_pairwise (fun a b ha hb hab hba => ?_) hl hl'
  rw [not_less_iff hkey] at hab hba
  exact hinj a ha b (hperm.mem_iff.mpr hb) (le_antisymm hab hba)

theorem sort_congr (sorting sorting' : Sorting less) (hkey : ∀ a b, less a b ↔ key a < key b)
    (hinj : ∀ a ∈ l, ∀ b ∈ l, key a = key b → a = b) (hperm : l.Perm l') :
    sorting.sort l = sorting'.sort l' := by
  refine eq_of_perm hkey (fun a ha b hb => ?_) (sorting.sorted l) (sorting'.sorted l') ?_
  · exact hinj a ((sorting.perm l).mem_iff.mp ha) b ((sorting.perm l).mem_iff.mp hb)
  · exact ((sorting.perm l).trans hperm).trans (sorting'.perm l').symm

variable (sorting : Sorting less)

theorem sort_eq_self (hkey : ∀ a b, less a b ↔ key a < key b)
    {l : List α} (h : l.Pairwise fun a b => less a b ∨ a = b) : sorting.sort l = l := by
  -- Elements with one key are the same.
  have hsame : ∀ a ∈ l, ∀ b ∈ l, key a = key b → a = b := by
    have : Std.Symm fun a b : α => key a = key b → a = b := ⟨fun a b h heq => (h heq.symm).symm⟩
    refine List.Pairwise.forall_of_forall (fun _ _ _ => rfl) (h.imp ?_)
    rintro a b (hlt | rfl) heq
    · exact absurd heq ((hkey a b).mp hlt).ne
    · rfl
  refine (eq_of_perm hkey hsame (h.imp ?_) (sorting.sorted l) (sorting.perm l).symm).symm
  rintro a b (hlt | rfl)
  · exact (not_less_iff hkey a b).mpr ((hkey a b).mp hlt).le
  · exact (not_less_iff hkey a a).mpr le_rfl

theorem mem_take_sort_iff (hkey : ∀ a b, less a b ↔ key a < key b) {l : List α}
    (hnodup : l.Nodup) (hinj : ∀ a ∈ l, ∀ b ∈ l, key a = key b → a = b) (k : ℕ) (a : α) :
    a ∈ (sorting.sort l).take k ↔ a ∈ l ∧ l.countP (less · a) < k := by
  have hperm := sorting.perm l
  rw [← hperm.countP_eq, ← hperm.mem_iff]
  by_cases ha : a ∈ sorting.sort l
  · obtain ⟨pre, post, heq⟩ := append_of_mem ha
    have hsorted := sorting.sorted l
    have hfresh := hperm.nodup_iff.mpr hnodup
    rw [heq] at hsorted hfresh
    replace hfresh := (nodup_cons.mp (nodup_middle.mp hfresh)).1
    -- Those before it, and no others, are less.
    have hpre : pre.countP (less · a) = pre.length := by
      rw [countP_eq_length]
      intro b hb
      rw [hkey]
      refine lt_of_le_of_ne ((not_less_iff hkey b a).mp ?_) fun hsame => ?_
      · exact (pairwise_append.mp hsorted).2.2 b hb a (by simp)
      · have hmem : ∀ c ∈ pre ++ a :: post, c ∈ l := fun c hc => hperm.mem_iff.mp (heq ▸ hc)
        obtain rfl := hinj b (hmem b (by simp [hb])) a (hmem a (by simp)) hsame
        exact hfresh (mem_append_left _ hb)
    have hpost : (a :: post).countP (less · a) = 0 := by
      rw [countP_eq_zero]
      intro b hb
      rcases mem_cons.mp hb with rfl | hb
      · simp [hkey]
      · have := (pairwise_cons.mp (pairwise_append.mp hsorted).2.1).1 b hb
        simp [this]
    have hbefore : a ∉ pre.take k :=
      fun h => hfresh (mem_append_left _ (mem_of_mem_take h))
    rw [heq, countP_append, hpre, hpost, add_zero, take_append]
    cases hk : k - pre.length with
    | zero =>
      have : ¬pre.length < k := by omega
      simp [hbefore, this]
    | succ n =>
      have : pre.length < k := by omega
      simp [this]
  · simp only [ha, false_and, iff_false]
    exact fun h => ha (mem_of_mem_take h)

end Sorting
