import Mathlib.Tactic

/-!
# Write-back caches

One key of a write-back cache over a base map.
-/

namespace WriteBack

variable {V : Type} {base : Option V}

structure Entry (V : Type) where
  value : Option V
  dirty : Bool
  fresh : Bool

def seen : Option (Entry V) → Option V → Option V
  | some e, _ => e.value
  | none, base => base

def written : Option (Entry V) → Option V → Option V
  | some e, base => if e.dirty then e.value else base
  | none, base => base

/-- An entry that is not dirty holds what the base has, and below a fresh one there is nothing. -/
def Coherent (entry : Option (Entry V)) (base : Option V) : Prop :=
  ∀ e ∈ entry, (e.dirty = false → e.value = base) ∧ (e.fresh → base = none)

variable (e : Entry V)

@[simp] theorem seen_some (base : Option V) : seen (some e) base = e.value := rfl

@[simp] theorem seen_none (base : Option V) : seen none base = base := rfl

@[simp] theorem coherent_none (base : Option V) : Coherent none base := by
  simp [Coherent]

theorem coherent_some {e : Entry V} : Coherent (some e) base ↔ (e.dirty = false → e.value = base) ∧
    (e.fresh → base = none) := by
  simp [Coherent]

@[simp] theorem written_none (base : Option V) : written none base = base := rfl

@[simp] theorem written_some (base : Option V) :
    written (some e) base = if e.dirty then e.value else base := rfl

variable {entry : Option (Entry V)}

theorem written_eq_seen
    (hcoherent : Coherent entry base) : written entry base = seen entry base := by
  cases entry with
  | none => rfl
  | some e =>
    rw [written_some, seen_some]
    split_ifs with hdirty
    · rfl
    · exact ((coherent_some.mp hcoherent).1 (by simpa using hdirty)).symm

def fetch (base : Option V) : Entry V := ⟨base, false, base.isNone⟩

theorem coherent_fetch (base : Option V) : Coherent (some (fetch base)) base := by
  rw [coherent_some]
  constructor
  · exact fun _ => rfl
  · exact Option.isNone_iff_eq_none.mp

/-- Store a value.  Without permission to overwrite, a key that is not known to
differ from the base is taken to be absent from it. -/
def store (v : V) (overwrite : Bool) (entry : Option (Entry V)) : Entry V :=
  match entry with
  | none => ⟨some v, true, !overwrite⟩
  | some e => ⟨some v, true, e.fresh || (!overwrite && !e.dirty)⟩

@[simp] theorem store_value (v : V) (overwrite : Bool)
    (entry : Option (Entry V)) : (store v overwrite entry).value = some v := by
  cases entry <;> rfl

theorem coherent_store {v : V} {overwrite : Bool} (hcoherent : Coherent entry base)
    (habsent : overwrite = false → seen entry base = none) :
    Coherent (some (store v overwrite entry)) base := by
  rw [coherent_some]
  cases entry with
  | none =>
    constructor
    · exact fun hclean => absurd hclean (by simp [store])
    · intro hfresh
      exact habsent (by simpa [store] using hfresh)
  | some e =>
    obtain ⟨hclean, hfresh⟩ := coherent_some.mp hcoherent
    constructor
    · exact fun hclean => absurd hclean (by simp [store])
    · intro hmark
      rcases (by simpa [store] using hmark :
        e.fresh ∨ overwrite = false ∧ e.dirty = false) with h | h
      · exact hfresh h
      · rw [← hclean h.2]
        exact habsent h.1

/-- Delete the value: a fresh entry is dropped, since there is nothing to
delete below. -/
def delete : Option (Entry V) :=
  if e.fresh then none else some ⟨none, true, e.fresh⟩

theorem seen_delete {e : Entry V}
    (hcoherent : Coherent (some e) base) : seen (delete e) base = none := by
  unfold delete
  split_ifs with hfresh
  · exact (coherent_some.mp hcoherent).2 hfresh
  · rfl

theorem coherent_delete (base : Option V) : Coherent (delete e) base := by
  unfold delete
  split_ifs with hfresh
  · exact coherent_none base
  · rw [coherent_some]
    exact ⟨fun hclean => absurd hclean (by simp), fun hmark => absurd hmark hfresh⟩

/-- Merge an entry of a cache into the cache below it; clean entries are
ignored. -/
def merge (child : Entry V) (parent : Option (Entry V)) : Option (Entry V) :=
  if child.dirty then
    match parent with
    | none =>
      if child.fresh && child.value.isNone then none
      else some ⟨child.value, true, child.fresh⟩
    | some p =>
      if p.fresh && child.value.isNone then none
      else some ⟨child.value, true, p.fresh⟩
  else parent

section
variable {child : Entry V} {parent : Option (Entry V)}

theorem seen_merge (hparent : Coherent parent base)
    (hfresh : child.dirty → child.fresh → seen parent base = none) :
    seen (merge child parent) base = written (some child) (seen parent base) := by
  rw [written_some]
  unfold merge
  by_cases hdirty : child.dirty
  · rw [if_pos hdirty, if_pos hdirty]
    cases parent with
    | none =>
      simp only
      split_ifs with hdrop
      · rw [Bool.and_eq_true, Option.isNone_iff_eq_none] at hdrop
        rw [hdrop.2]
        exact hfresh hdirty hdrop.1
      · rfl
    | some p =>
      simp only
      split_ifs with hdrop
      · rw [Bool.and_eq_true, Option.isNone_iff_eq_none] at hdrop
        rw [hdrop.2]
        exact (coherent_some.mp hparent).2 hdrop.1
      · rfl
  · rw [if_neg hdirty, if_neg hdirty]

theorem coherent_merge (hparent : Coherent parent base)
    (hfresh : child.dirty → child.fresh → seen parent base = none) :
    Coherent (merge child parent) base := by
  unfold merge
  by_cases hdirty : child.dirty
  · rw [if_pos hdirty]
    cases parent with
    | none =>
      simp only
      split_ifs
      · exact coherent_none base
      · rw [coherent_some]
        exact ⟨fun hclean => absurd hclean (by simp), hfresh hdirty⟩
    | some p =>
      simp only
      split_ifs
      · exact coherent_none base
      · rw [coherent_some]
        exact ⟨fun hclean => absurd hclean (by simp), (coherent_some.mp hparent).2⟩
  · rw [if_neg hdirty]
    exact hparent

end
end WriteBack
