import Mathlib.Data.List.AList
import Mathlib.Tactic

/-!
# Maps by their entries

Operations on finite maps that keep, drop or change entries one key at a time,
with what a lookup finds afterwards.
-/

namespace MapEntries

open List Option AList
variable {α β : Type} [DecidableEq α]

abbrev Map (α β : Type) : Type := AList fun _ : α => β

variable (m : Map α β)

def insertNew (k : α) (v : β) : Map α β :=
  if (m.lookup k).isSome then m else m.insert k v

def insertAllNew (ks : List α) (v : β) : Map α β :=
  ks.foldl (fun m k => insertNew m k v) m

def filterEntries (keep : α → β → Bool) : Map α β where
  entries := m.entries.filter fun e => keep e.1 e.2
  nodupKeys := m.nodupKeys.sublist filter_sublist

def eraseAll (ks : List α) : Map α β :=
  ks.foldl (fun m k => m.erase k) m

def adjust (k : α) (f : β → β) : Map α β :=
  match m.lookup k with
  | some v => m.insert k (f v)
  | none => m

def mapValues (f : β → β) : Map α β where
  entries := m.entries.map fun e => ⟨e.1, f e.2⟩
  nodupKeys := by
    have hkeys : (m.entries.map fun e => (⟨e.1, f e.2⟩ : Sigma fun _ : α => β)).keys =
        m.entries.keys := by simp [List.keys, Function.comp_def]
    rw [List.NodupKeys, hkeys]
    exact m.nodupKeys

def countEntries (p : β → Bool) : ℕ := m.entries.countP fun e => p e.2

theorem lookup_insert_eq (k k' : α) (v : β) :
    (m.insert k v).lookup k' = if k' = k then some v else m.lookup k' := by
  by_cases heq : k' = k
  · subst heq
    rw [if_pos rfl, lookup_insert]
  · rw [if_neg heq, lookup_insert_ne heq]

theorem lookup_erase_eq (k k' : α) :
    (m.erase k).lookup k' = if k' = k then none else m.lookup k' := by
  by_cases heq : k' = k
  · subst heq
    rw [if_pos rfl, lookup_erase]
  · rw [if_neg heq, lookup_erase_ne heq]

theorem lookup_insertNew (k k' : α) (v : β) : (insertNew m k v).lookup k' =
    if k' = k then some ((m.lookup k).getD v) else m.lookup k' := by
  unfold insertNew
  cases hold : m.lookup k with
  | none =>
    simp only [isSome_none, Bool.false_eq_true, if_false, lookup_insert_eq, getD_none]
  | some old =>
    simp only [isSome_some, if_true, getD_some]
    by_cases heq : k' = k
    · subst heq
      rw [if_pos rfl, hold]
    · rw [if_neg heq]

theorem lookup_insertAllNew (ks : List α) (k' : α) (v : β) : (insertAllNew m ks v).lookup k' =
    if k' ∈ ks then some ((m.lookup k').getD v) else m.lookup k' := by
  induction ks generalizing m with
  | nil => simp [insertAllNew]
  | cons k ks ih =>
    have hstep : insertAllNew m (k :: ks) v = insertAllNew (insertNew m k v) ks v := rfl
    rw [hstep, ih, lookup_insertNew]
    by_cases heq : k' = k
    · subst heq
      simp
    · simp [heq]

theorem lookup_filterEntries (keep : α → β → Bool) (k : α) :
    (filterEntries m keep).lookup k = (m.lookup k).filter (keep k) := by
  ext v
  rw [filter_eq_some_iff, ← mem_def, ← mem_def, mem_lookup_iff, mem_lookup_iff]
  exact mem_filter

theorem lookup_eraseAll (ks : List α) (k' : α) :
    (eraseAll m ks).lookup k' = if k' ∈ ks then none else m.lookup k' := by
  induction ks generalizing m with
  | nil => simp [eraseAll]
  | cons k ks ih =>
    have hstep : eraseAll m (k :: ks) = eraseAll (m.erase k) ks := rfl
    rw [hstep, ih, lookup_erase_eq]
    by_cases heq : k' = k
    · subst heq
      simp
    · simp [heq]

theorem lookup_adjust (k k' : α) (f : β → β) :
    (adjust m k f).lookup k' = if k' = k then (m.lookup k).map f else m.lookup k' := by
  unfold adjust
  cases hold : m.lookup k with
  | none =>
    by_cases heq : k' = k
    · subst heq
      rw [if_pos rfl, hold, map_none]
    · rw [if_neg heq]
  | some v => rw [lookup_insert_eq, map_some]

theorem lookup_mapValues (f : β → β) (k : α) : (mapValues m f).lookup k = (m.lookup k).map f := by
  ext v
  rw [map_eq_some_iff, ← mem_def, mem_lookup_iff]
  constructor
  · intro hentry
    obtain ⟨e, he, heq⟩ := mem_map.mp hentry
    obtain ⟨rfl, hv⟩ := Sigma.mk.inj heq
    exact ⟨e.2, mem_lookup_iff.mpr he, eq_of_heq hv⟩
  · rintro ⟨u, hu, rfl⟩
    exact mem_map.mpr ⟨⟨k, u⟩, mem_lookup_iff.mp hu, rfl⟩

theorem mem_keys_iff (k : α) : k ∈ m.keys ↔ ∃ v, m.lookup k = some v := by
  rw [← isSome_iff_exists, lookup_isSome]
  rfl

def sumEntries (f : β → ℕ) : ℕ := (m.entries.map fun e => f e.2).sum

theorem sumEntries_erase (f : β → ℕ) (k : α) :
    sumEntries (m.erase k) f + (m.lookup k).elim 0 f = sumEntries m f := by
  cases hold : m.lookup k with
  | none =>
    have hk : k ∉ m.entries.keys := lookup_eq_none.mp hold
    have hentries : (m.erase k).entries = m.entries := kerase_of_notMem_keys hk
    rw [sumEntries, hentries, elim_none, add_zero, sumEntries]
  | some v =>
    have hmem : k ∈ m.entries.keys := (mem_keys_iff m k).mpr ⟨v, hold⟩
    obtain ⟨v', l₁, l₂, -, heq, herase⟩ := exists_of_kerase hmem
    obtain rfl : v = v' := by
      have hentry : (⟨k, v'⟩ : Sigma fun _ => β) ∈ m.entries := by simp [heq]
      exact some.inj (hold.symm.trans (mem_lookup_iff.mpr hentry))
    have hentries : (m.erase k).entries = l₁ ++ l₂ := herase
    rw [sumEntries, sumEntries, hentries, heq, elim_some]
    simp only [map_append, map_cons, sum_append, sum_cons]
    omega

omit [DecidableEq α] in
theorem countEntries_eq_sumEntries (p : β → Bool) :
    countEntries m p = sumEntries m fun v => (p v).toNat := by
  rw [countEntries, sumEntries]
  induction m.entries with
  | nil => rfl
  | cons e l ih => cases hp : p e.2 <;> simp [hp, ih, add_comm]

theorem countEntries_insert (p : β → Bool) (k : α) (v : β) :
    countEntries (m.insert k v) p + (m.lookup k).elim 0 (fun v => (p v).toNat) =
      countEntries m p + (p v).toNat := by
  have herase := sumEntries_erase m (fun v => (p v).toNat) k
  have hinsert : sumEntries (m.insert k v) (fun v => (p v).toNat) =
      (p v).toNat + sumEntries (m.erase k) fun v => (p v).toNat := rfl
  rw [countEntries_eq_sumEntries, countEntries_eq_sumEntries]
  omega

theorem sumEntries_adjust (f : β → ℕ) (k : α) (g : β → β) :
    sumEntries (adjust m k g) f + (m.lookup k).elim 0 f =
      sumEntries m f + (m.lookup k).elim 0 fun v => f (g v) := by
  unfold adjust
  cases hold : m.lookup k with
  | none => rfl
  | some v =>
    have herase := sumEntries_erase m f k
    have hinsert : sumEntries (m.insert k (g v)) f = f (g v) + sumEntries (m.erase k) f := rfl
    rw [hold, elim_some] at herase
    simp only [hinsert, elim_some]
    omega

end MapEntries

namespace MapEntries

open List Option Prod
variable {η κ β : Type} [DecidableEq η] [DecidableEq κ]

structure InverseIndex (η κ β : Type) [DecidableEq η] [DecidableEq κ] where
  entries : Map κ β := ∅
  inserted : Map η (List κ) := ∅

namespace InverseIndex

def add (ix : InverseIndex η κ β) (owner : η) (new : List (κ × β)) : InverseIndex η κ β where
  entries := new.foldl (fun m e => insertNew m e.1 e.2) ix.entries
  inserted := insertNew ix.inserted owner (new.map fst)

def remove (ix : InverseIndex η κ β) (owner : η) : InverseIndex η κ β :=
  match ix.inserted.lookup owner with
  | some keys => ⟨eraseAll ix.entries keys, ix.inserted.erase owner⟩
  | none => ix

/-- The index holds exactly what its owners contribute. -/
structure Holds (ix : InverseIndex η κ β) (contributed : η → Option (List (κ × β))) : Prop where
  entries : ∀ k v, ix.entries.lookup k = some v ↔
    ∃ owner new, contributed owner = some new ∧ (k, v) ∈ new
  inserted : ∀ owner, ix.inserted.lookup owner = (contributed owner).map fun new => new.map fst

/-- No key comes from two owners. -/
def Apart (contributed : η → Option (List (κ × β))) : Prop :=
  ∀ a b new new', contributed a = some new → contributed b = some new' →
    ∀ k ∈ new.map fst, k ∈ new'.map fst → a = b

variable {ix : InverseIndex η κ β} {contributed contributed' : η → Option (List (κ × β))}
  {owner : η} {new : List (κ × β)}

theorem holds_empty : Holds ({} : InverseIndex η κ β) fun _ => none where
  entries := by simp
  inserted := by simp

theorem lookup_foldl_insertNew (m : Map κ β) (hnodup : (new.map fst).Nodup)
    (hnew : ∀ k ∈ new.map fst, m.lookup k = none) (k : κ) (v : β) :
    (new.foldl (fun m e => insertNew m e.1 e.2) m).lookup k = some v ↔
      m.lookup k = some v ∨ (k, v) ∈ new := by
  induction new generalizing m with
  | nil => simp
  | cons e new ih =>
    rw [map_cons, nodup_cons] at hnodup
    have hfirst : m.lookup e.1 = none := hnew e.1 mem_cons_self
    have hlook : ∀ k', (insertNew m e.1 e.2).lookup k' =
        if k' = e.1 then some e.2 else m.lookup k' := by
      intro k'
      rw [lookup_insertNew, hfirst, getD_none]
    rw [foldl_cons, ih _ hnodup.2, hlook, mem_cons]
    · by_cases heq : k = e.1
      · subst heq
        rw [if_pos rfl, hfirst]
        constructor
        · rintro (hv | hmem)
          · exact .inr (.inl (Prod.ext rfl (Option.some.inj hv).symm))
          · exact .inr (.inr hmem)
        · rintro (hv | hv | hmem)
          · simp at hv
          · exact .inl (congrArg (fun p => some p.2) hv).symm
          · exact .inr hmem
      · rw [if_neg heq]
        have hne : (k, v) ≠ e := fun h => heq (congrArg fst h)
        simp [hne]
    · intro k' hk'
      have hne : k' ≠ e.1 := fun h => hnodup.1 (h ▸ hk')
      rw [hlook, if_neg hne]
      exact hnew k' (mem_cons_of_mem _ hk')

theorem Holds.add (hix : ix.Holds contributed) (hfresh : contributed owner = none)
    (hnodup : (new.map fst).Nodup)
    (hapart : Apart contributed')
    (hnext : ∀ a, contributed' a = if a = owner then some new else contributed a) :
    (ix.add owner new).Holds contributed' := by
  have hown : contributed' owner = some new := by rw [hnext, if_pos rfl]
  have hold : ∀ {a old}, contributed a = some old → a ≠ owner ∧ contributed' a = some old := by
    intro a old ha
    have hne : a ≠ owner := by
      rintro rfl
      simp [hfresh] at ha
    exact ⟨hne, by rw [hnext, if_neg hne, ha]⟩
  refine ⟨fun k v => ?_, fun a => ?_⟩
  · rw [InverseIndex.add, lookup_foldl_insertNew _ hnodup, hix.entries]
    · constructor
      · rintro (⟨a, old, ha, hmem⟩ | hmem)
        · exact ⟨a, old, (hold ha).2, hmem⟩
        · exact ⟨owner, new, hown, hmem⟩
      · rintro ⟨a, old, ha, hmem⟩
        rw [hnext] at ha
        split_ifs at ha
        · exact .inr (some.inj ha ▸ hmem)
        · exact .inl ⟨a, old, ha, hmem⟩
    · intro k' hk'
      rw [eq_none_iff_forall_not_mem]
      intro v' hv'
      obtain ⟨a, old, ha, hmem⟩ := (hix.entries k' v').mp hv'
      exact (hold ha).1 (hapart a owner old new (hold ha).2 hown k' (mem_map_of_mem hmem) hk')
  · rw [InverseIndex.add, lookup_insertNew, hix.inserted, hix.inserted, hfresh, hnext]
    split_ifs <;> rfl

theorem Holds.remove (hix : ix.Holds contributed) (hapart : Apart contributed)
    (hnext : ∀ a, contributed' a = if a = owner then none else contributed a) :
    (ix.remove owner).Holds contributed' := by
  cases hown : contributed owner with
  | none =>
    have hsame : contributed' = contributed := by
      funext a
      rw [hnext]
      split_ifs with heq
      · rw [heq, hown]
      · rfl
    rw [InverseIndex.remove, hix.inserted, hown, hsame]
    exact hix
  | some mine =>
    have hremove : ix.remove owner =
        ⟨eraseAll ix.entries (mine.map fst), ix.inserted.erase owner⟩ := by
      rw [InverseIndex.remove, hix.inserted, hown]
      rfl
    rw [hremove]
    refine ⟨fun k v => ?_, fun a => ?_⟩
    · rw [lookup_eraseAll]
      split_ifs with hmine
      · -- A key of the owner is nobody else's.
        refine iff_of_false (by simp) ?_
        rintro ⟨a, old, ha, hmem⟩
        rw [hnext] at ha
        split_ifs at ha with heq
        exact heq (hapart a owner old mine ha hown k (mem_map_of_mem hmem) hmine)
      · rw [hix.entries]
        constructor
        · rintro ⟨a, old, ha, hmem⟩
          refine ⟨a, old, ?_, hmem⟩
          rw [hnext, if_neg, ha]
          rintro rfl
          rw [hown] at ha
          exact hmine (some.inj ha ▸ mem_map_of_mem hmem)
        · rintro ⟨a, old, ha, hmem⟩
          rw [hnext] at ha
          split_ifs at ha
          exact ⟨a, old, ha, hmem⟩
    · rw [lookup_erase_eq, hix.inserted, hnext]
      split_ifs <;> rfl

end InverseIndex
end MapEntries
