import Mathlib.Data.List.Destutter
import Mathlib.Tactic

/-!
# Resumable scans

The items of a list are looked up in another one, each from where the item before it was found.
-/

namespace ResumableScan

variable {α β : Type} (hits : α → β → Prop)

/-- Each element is hit at or after the place where the one before it was. -/
def Covers (out : List β) : List α → ℕ → Prop
  | [], _ => True
  | a :: l, start => ∃ j, start ≤ j ∧ (∃ b, out[j]? = some b ∧ hits a b) ∧ Covers out l j

def Matches (l : List α) (out : List β) (f : Fin l.length → Fin out.length) : Prop :=
  StrictMono f ∧ ∀ i, hits (l.get i) (out.get (f i))

variable {hits} {out : List β} {l : List α} {a : α} {n k : ℕ}

theorem Covers.of_le (h : Covers hits out l n) (hle : k ≤ n) : Covers hits out l k := by
  cases l with
  | nil => trivial
  | cons a l =>
    obtain ⟨j, hj, hrest⟩ := h
    exact ⟨j, hle.trans hj, hrest⟩

theorem Covers.sublist {l' : List α} (h : Covers hits out l n) (hsub : l'.Sublist l) :
    Covers hits out l' n := by
  induction hsub generalizing n with
  | slnil => trivial
  | cons a _ ih =>
    obtain ⟨j, hj, -, hrest⟩ := h
    exact ih (hrest.of_le hj)
  | cons_cons a _ ih =>
    obtain ⟨j, hj, hhit, hrest⟩ := h
    exact ⟨j, hj, hhit, ih hrest⟩

theorem Covers.next (hone : ∀ a a' b, hits a b → hits a' b → a = a')
    (hchain : (a :: l).IsChain (· ≠ ·)) {b : β} (hb : out[n]? = some b) (ha : hits a b)
    (h : Covers hits out l n) : Covers hits out l (n + 1) := by
  cases l with
  | nil => trivial
  | cons a' l =>
    obtain ⟨j, hj, ⟨b', hb', ha'⟩, hrest⟩ := h
    have hne : n ≠ j := by
      rintro rfl
      rw [hb, Option.some_inj] at hb'
      subst hb'
      exact hchain.rel (hone a a' b ha ha')
    exact ⟨j, by omega, ⟨b', hb', ha'⟩, hrest⟩

theorem Covers.exists_matches (hone : ∀ a a' b, hits a b → hits a' b → a = a')
    (hchain : l.IsChain (· ≠ ·)) (h : Covers hits out l n) :
    ∃ f, Matches hits l out f ∧ ∀ i, n ≤ (f i).val := by
  induction l generalizing n with
  | nil => exact ⟨Fin.elim0, ⟨fun i => i.elim0, fun i => i.elim0⟩, fun i => i.elim0⟩
  | cons a l ih =>
    obtain ⟨j, hj, ⟨b, hb, ha⟩, hrest⟩ := h
    obtain ⟨f, ⟨hmono, hhits⟩, hlow⟩ :=
      ih hchain.tail (hrest.next hone hchain hb ha)
    obtain ⟨hlt, hget⟩ := List.getElem?_eq_some_iff.mp hb
    refine ⟨Fin.cons ⟨j, hlt⟩ f, ⟨?_, ?_⟩, ?_⟩
    · intro i i'
      induction i using Fin.cases with
      | zero =>
        induction i' using Fin.cases with
        | zero => exact fun hlt => absurd hlt (lt_irrefl _)
        | succ i' =>
          intro _
          exact Fin.lt_def.mpr (hlow i')
      | succ i =>
        induction i' using Fin.cases with
        | zero => exact fun hlt => absurd hlt (Fin.not_lt_zero _)
        | succ i' => exact fun hlt => hmono (Fin.succ_lt_succ_iff.mp hlt)
    · intro i
      induction i using Fin.cases with
      | zero =>
        change hits a out[j]
        rwa [hget]
      | succ i => exact hhits i
    · intro i
      induction i using Fin.cases with
      | zero => exact hj
      | succ i => exact (hj.trans (Nat.le_succ j)).trans (hlow i)

theorem Matches.length_le {f : Fin l.length → Fin out.length} (hf : Matches hits l out f)
    (hnone : ∀ b ∈ out.drop n, ∀ a ∈ l, ¬hits a b) : l.length ≤ n := by
  have hlow : ∀ i, (f i).val < n := by
    intro i
    by_contra hge
    refine hnone (out.get (f i)) ?_ (l.get i) (l.get_mem i) (hf.2 i)
    exact List.mem_drop_iff_getElem.mpr ⟨(f i).val - n, by omega, by simp; congr; omega⟩
  have hinj : Function.Injective fun i => (⟨(f i).val, hlow i⟩ : Fin n) := by
    intro i i' heq
    exact hf.1.injective (Fin.ext (Fin.mk.inj heq))
  simpa using Fintype.card_le_of_injective _ hinj

variable [DecidableEq α]

theorem exists_destutter'_eq_cons (a : α) (l : List α) :
    ∃ rest, l.destutter' (· ≠ ·) a = a :: rest := by
  induction l with
  | nil => exact ⟨[], rfl⟩
  | cons b l ih =>
    by_cases hab : a ≠ b
    · exact ⟨_, List.destutter'_cons_pos _ hab⟩
    · rw [List.destutter'_cons_neg _ hab]
      exact ih

theorem covers_destutter {g : α → β} (hg : ∀ a, hits a (g a)) (xs ys : List β) (a : α)
    (l : List α) : Covers hits (xs ++ (l.destutter' (· ≠ ·) a).map g ++ ys) (a :: l) xs.length := by
  induction l generalizing xs a with
  | nil =>
    refine ⟨xs.length, le_rfl, ⟨g a, ?_, hg a⟩, trivial⟩
    simp
  | cons b l ih =>
    by_cases hab : a ≠ b
    · rw [List.destutter'_cons_pos _ hab, List.map_cons]
      refine ⟨xs.length, le_rfl, ⟨g a, by simp, hg a⟩, ?_⟩
      have hassoc : xs ++ g a :: (l.destutter' (· ≠ ·) b).map g ++ ys =
          xs ++ [g a] ++ (l.destutter' (· ≠ ·) b).map g ++ ys := by simp
      rw [hassoc]
      exact (ih (xs ++ [g a]) b).of_le (by simp)
    · obtain rfl : a = b := not_not.mp hab
      rw [List.destutter'_cons_neg _ hab]
      refine ⟨xs.length, le_rfl, ⟨g a, ?_, hg a⟩, ih xs a⟩
      obtain ⟨rest, hrest⟩ := exists_destutter'_eq_cons a l
      simp [hrest]

end ResumableScan
