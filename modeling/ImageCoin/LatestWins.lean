import Mathlib.Tactic

/-!
# The latest entry wins

A register keeps the entry with the latest stamp; among entries with equal stamps it keeps the
one that came last.
-/

namespace LatestWins

open List
variable {α T : Type} [LinearOrder T] (stamp : α → T)

def take (r a : α) : α := if stamp a < stamp r then r else a

def latest (r : α) (as : List α) : α := as.foldl (take stamp) r

variable {stamp} {r a : α} {as bs : List α}

@[simp] theorem latest_nil : latest stamp r [] = r := rfl

@[simp] theorem latest_cons : latest stamp r (a :: as) = latest stamp (take stamp r a) as := rfl

theorem latest_append : latest stamp r (as ++ bs) = latest stamp (latest stamp r as) bs :=
  foldl_append

theorem le_take_left : stamp r ≤ stamp (take stamp r a) := by
  unfold take
  split_ifs with hlt
  · exact le_rfl
  · exact le_of_not_gt hlt

theorem le_take_right : stamp a ≤ stamp (take stamp r a) := by
  unfold take
  split_ifs with hlt
  · exact hlt.le
  · exact le_rfl

variable (stamp) in
theorem le_latest (r : α) (as : List α) : stamp r ≤ stamp (latest stamp r as) := by
  induction as generalizing r with
  | nil => exact le_rfl
  | cons a as ih => exact le_take_left.trans (ih _)

variable (stamp) in
theorem le_latest_of_mem (ha : a ∈ as) (r : α) : stamp a ≤ stamp (latest stamp r as) := by
  induction as generalizing r with
  | nil => exact absurd ha not_mem_nil
  | cons b as ih =>
    rcases mem_cons.mp ha with rfl | ha
    · exact le_take_right.trans (le_latest stamp _ as)
    · exact ih ha _

variable (stamp) in
theorem latest_cases (r : α) (as : List α) :
    (latest stamp r as = r ∧ ∀ a ∈ as, stamp a < stamp r) ∨ latest stamp r as ∈ as := by
  induction as generalizing r with
  | nil => exact .inl ⟨rfl, by simp⟩
  | cons a as ih =>
    rw [latest_cons]
    by_cases hlt : stamp a < stamp r
    · rw [show take stamp r a = r from if_pos hlt]
      rcases ih r with ⟨heq, hall⟩ | hmem
      · exact .inl ⟨heq, forall_mem_cons.mpr ⟨hlt, hall⟩⟩
      · exact .inr (mem_cons_of_mem _ hmem)
    · rw [show take stamp r a = a from if_neg hlt]
      rcases ih a with ⟨heq, -⟩ | hmem
      · exact .inr (by rw [heq]; exact mem_cons_self)
      · exact .inr (mem_cons_of_mem _ hmem)

theorem latest_eq_self (hall : ∀ a ∈ as, stamp a < stamp r) : latest stamp r as = r := by
  rcases latest_cases stamp r as with ⟨heq, -⟩ | hmem
  · exact heq
  · exact absurd (hall _ hmem) (le_latest stamp r as).not_gt

theorem latest_congr (hmem : ∀ a, a ∈ as ↔ a ∈ bs)
    (hties : ∀ a ∈ as, ∀ b ∈ as, stamp a = stamp b → a = b) (r : α) :
    latest stamp r as = latest stamp r bs := by
  rcases latest_cases stamp r as with ⟨heq, hall⟩ | ha
  · rw [heq, latest_eq_self fun b hb => hall b ((hmem b).mpr hb)]
  · rcases latest_cases stamp r bs with ⟨-, hall⟩ | hb
    · exact absurd (hall _ ((hmem _).mp ha)) (le_latest stamp r as).not_gt
    · refine hties _ ha _ ((hmem _).mpr hb) (le_antisymm ?_ ?_)
      · exact le_latest_of_mem stamp ((hmem _).mp ha) r
      · exact le_latest_of_mem stamp ((hmem _).mpr hb) r

theorem exists_le_of_lt (hlt : stamp a < stamp r) (hle : ∃ b ∈ a :: as, stamp r ≤ stamp b) :
    ∃ b ∈ as, stamp r ≤ stamp b := by
  obtain ⟨b, hb, hle⟩ := hle
  rcases mem_cons.mp hb with rfl | hb
  · exact absurd hlt hle.not_gt
  · exact ⟨b, hb, hle⟩

theorem latest_eq_of_exists_le {r' : α} (hle : ∃ b ∈ as, stamp r ≤ stamp b)
    (hle' : ∃ b ∈ as, stamp r' ≤ stamp b) : latest stamp r as = latest stamp r' as := by
  induction as generalizing r r' with
  | nil => simp at hle
  | cons a as ih =>
    rw [latest_cons, latest_cons]
    unfold take
    split_ifs with hr hr' hr'
    · exact ih (exists_le_of_lt hr hle) (exists_le_of_lt hr' hle')
    · obtain ⟨b, hb, hb'⟩ := exists_le_of_lt hr hle
      exact ih ⟨b, hb, hb'⟩ ⟨b, hb, hr.le.trans hb'⟩
    · obtain ⟨b, hb, hb'⟩ := exists_le_of_lt hr' hle'
      exact ih ⟨b, hb, hr'.le.trans hb'⟩ ⟨b, hb, hb'⟩
    · rfl

end LatestWins
