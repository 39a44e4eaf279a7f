import Mathlib.Tactic

/-!
# Trees of blocks

A forest given by parents and heights.
-/

/-- Blocks with parents, and heights that count the steps to a root. -/
structure BlockTree (ι : Type) where
  parent : ι → Option ι
  height : ι → ℕ
  height_root : ∀ {b}, parent b = none → height b = 0
  height_child : ∀ {b p}, parent b = some p → height b = height p + 1

namespace BlockTree

open Option
variable {ι : Type}

def up (t : BlockTree ι) (b : ι) : ℕ → Option ι
  | 0 => some b
  | steps + 1 => (t.up b steps).bind t.parent

def ancestor (t : BlockTree ι) (b : ι) (height : ℕ) : Option ι :=
  if height ≤ t.height b then t.up b (t.height b - height) else none

variable {t : BlockTree ι} {a b p : ι} {h k steps : ℕ}

theorem up_add (steps k : ℕ) : t.up b (steps + k) = (t.up b steps).bind (t.up · k) := by
  induction k with
  | zero => cases t.up b steps <;> rfl
  | succ k ih =>
    rw [← Nat.add_assoc, up, ih]
    cases t.up b steps <;> rfl

theorem height_of_up (hup : t.up b steps = some a) : t.height b = t.height a + steps := by
  induction steps generalizing a with
  | zero =>
    obtain rfl : b = a := some.inj hup
    rfl
  | succ steps ih =>
    obtain ⟨c, hc, ha⟩ := bind_eq_some_iff.mp hup
    have hchild := t.height_child ha
    have hrest := ih hc
    omega

theorem exists_up (hle : steps ≤ t.height b) : ∃ a, t.up b steps = some a := by
  induction steps with
  | zero => exact ⟨b, rfl⟩
  | succ steps ih =>
    obtain ⟨c, hc⟩ := ih (by omega)
    have hheight := height_of_up hc
    cases hparent : t.parent c with
    | none =>
      have hroot := t.height_root hparent
      omega
    | some a => exact ⟨a, by rw [up, hc, bind_some, hparent]⟩

@[simp] theorem ancestor_self : t.ancestor b (t.height b) = some b := by
  rw [ancestor, if_pos le_rfl, Nat.sub_self, up]

theorem exists_ancestor (hle : h ≤ t.height b) : ∃ a, t.ancestor b h = some a := by
  rw [ancestor, if_pos hle]
  exact exists_up (Nat.sub_le _ _)

theorem height_of_ancestor (ha : t.ancestor b h = some a) : t.height a = h ∧ h ≤ t.height b := by
  rw [ancestor] at ha
  split_ifs at ha with hle
  have hheight := height_of_up ha
  omega

theorem ancestor_of_ancestor (ha : t.ancestor b h = some a) (hk : k ≤ h) :
    t.ancestor a k = t.ancestor b k := by
  obtain ⟨hheight, hle⟩ := height_of_ancestor ha
  rw [ancestor, if_pos hle] at ha
  have hsteps : t.height b - k = (t.height b - h) + (h - k) := by omega
  rw [ancestor, ancestor, if_pos (by omega), if_pos (by omega), hsteps, up_add,
    ha, hheight, bind_some]

theorem ancestor_parent (hp : t.parent b = some p) : t.ancestor b (t.height p) = some p := by
  have hheight := t.height_child hp
  have hone : t.height b - t.height p = 1 := by omega
  rw [ancestor, if_pos (by omega), hone, up, up, bind_some, hp]

/-- `a` is `b` or an ancestor of it. -/
def Below (t : BlockTree ι) (a b : ι) : Prop := t.ancestor b (t.height a) = some a

instance [DecidableEq ι] : DecidableRel t.Below :=
  fun a b => inferInstanceAs (Decidable (t.ancestor b (t.height a) = some a))

def path (t : BlockTree ι) (b : ι) : List ι :=
  (List.range (t.height b + 1)).filterMap (t.ancestor b)

variable {c : ι}

theorem below_refl (b : ι) : t.Below b b := ancestor_self

theorem below_of_ancestor (ha : t.ancestor b h = some a) : t.Below a b := by
  rw [Below, (height_of_ancestor ha).1, ha]

theorem below_parent (hp : t.parent b = some p) : t.Below p b :=
  ancestor_parent hp

section
variable (hab : t.Below a b)
include hab

theorem Below.height_le : t.height a ≤ t.height b :=
  (height_of_ancestor hab).2

theorem Below.trans (hbc : t.Below b c) : t.Below a c := by
  rw [Below, ← ancestor_of_ancestor hbc hab.height_le]
  exact hab

omit hab in
theorem Below.of_height_le (hac : t.Below a c) (hbc : t.Below b c)
    (hle : t.height a ≤ t.height b) : t.Below a b := by
  rw [Below, ancestor_of_ancestor hbc hle]
  exact hac

theorem Below.eq_of_height_eq (heq : t.height a = t.height b) : a = b := by
  rw [Below, heq, ancestor_self] at hab
  exact (some.inj hab).symm

theorem Below.antisymm (hba : t.Below b a) : a = b :=
  hab.eq_of_height_eq (le_antisymm hab.height_le hba.height_le)

theorem Below.to_parent (hne : a ≠ b) (hp : t.parent b = some p) : t.Below a p := by
  have hheight := t.height_child hp
  have hle := hab.height_le
  have hlt : t.height a ≠ t.height b := fun heq => hne (hab.eq_of_height_eq heq)
  exact hab.of_height_le (below_parent hp) (by omega)

theorem Below.eq_of_root (hroot : t.parent b = none) : a = b := by
  have hzero := t.height_root hroot
  have hle := hab.height_le
  exact hab.eq_of_height_eq (by omega)

end

theorem below_iff (hp : t.parent b = some p) : t.Below a b ↔ a = b ∨ t.Below a p := by
  constructor
  · intro hab
    by_cases heq : a = b
    · exact Or.inl heq
    · exact Or.inr (hab.to_parent heq hp)
  · rintro (rfl | hap)
    · exact below_refl a
    · exact hap.trans (below_parent hp)

theorem not_below_parent (hp : t.parent b = some p) : ¬t.Below b p := by
  intro hbp
  have hheight := t.height_child hp
  have hle := hbp.height_le
  omega

theorem Below.induction {motive : ι → Prop} (hab : t.Below a b) (hself : motive a)
    (hstep : ∀ {b p}, t.parent b = some p → t.Below a p → motive p → motive b) : motive b := by
  induction hn : t.height b generalizing b with
  | zero =>
    have hle := hab.height_le
    obtain rfl := hab.eq_of_height_eq (by omega)
    exact hself
  | succ n ih =>
    by_cases heq : a = b
    · exact heq ▸ hself
    · cases hp : t.parent b with
      | none =>
        have hroot := t.height_root hp
        omega
      | some p =>
        have hheight := t.height_child hp
        have hap := hab.to_parent heq hp
        exact hstep hp hap (ih hap (by omega))

theorem mem_path : a ∈ t.path b ↔ t.Below a b := by
  rw [path, List.mem_filterMap]
  constructor
  · rintro ⟨height, -, ha⟩
    exact below_of_ancestor ha
  · intro hab
    have hle := hab.height_le
    exact ⟨t.height a, List.mem_range.mpr (by omega), hab⟩

end BlockTree
