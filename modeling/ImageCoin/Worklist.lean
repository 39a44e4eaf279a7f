import Mathlib.Tactic

/-!
# Walking a graph with a work list

A walk keeps the nodes that it has visited and those that it has still to visit, and ends with
everything that can be reached.
-/

namespace Worklist

open List
variable {α : Type} [DecidableEq α] {x : α} {done stage known : List α}

/-- A set as a list without repetitions. -/
def insertEntry (x : α) (s : List α) : List α := if x ∈ s then s else s ++ [x]

variable {s : List α}

@[simp] theorem mem_insertEntry {y : α} : y ∈ insertEntry x s ↔ y = x ∨ y ∈ s := by
  unfold insertEntry
  split_ifs with hmem
  · constructor
    · exact .inr
    · rintro (rfl | hy)
      · exact hmem
      · exact hy
  · simp [or_comm]

theorem insertEntry_of_notMem (hx : x ∉ s) : insertEntry x s = s ++ [x] :=
  if_neg hx

theorem nodup_insertEntry (hs : s.Nodup) : (insertEntry x s).Nodup := by
  unfold insertEntry
  split_ifs with hmem
  · exact hs
  · exact nodup_append.mpr ⟨hs, nodup_singleton x,
      fun a ha b hb heq => hmem (mem_singleton.mp hb ▸ heq ▸ ha)⟩

/-- Schedule the nodes that were not visited. -/
def push (done : List α) (xs stage : List α) : List α :=
  xs.foldl (fun stage x => if x ∈ done then stage else insertEntry x stage) stage

theorem push_cons (done xs stage : List α) (x : α) : push done (x :: xs) stage =
    push done xs (if x ∈ done then stage else insertEntry x stage) := rfl

theorem mem_push {xs : List α} {y : α} :
    y ∈ push done xs stage ↔ y ∈ stage ∨ y ∈ xs ∧ y ∉ done := by
  induction xs generalizing stage with
  | nil => simp [push]
  | cons x xs ih =>
    rw [push_cons, ih, mem_cons]
    by_cases hx : x ∈ done
    · rw [if_pos hx]
      constructor
      · rintro (hy | ⟨hy, hnot⟩)
        · exact .inl hy
        · exact .inr ⟨.inr hy, hnot⟩
      · rintro (hy | ⟨rfl | hy, hnot⟩)
        · exact .inl hy
        · exact absurd hx hnot
        · exact .inr ⟨hy, hnot⟩
    · rw [if_neg hx, mem_insertEntry]
      constructor
      · rintro ((rfl | hy) | ⟨hy, hnot⟩)
        · exact .inr ⟨.inl rfl, hx⟩
        · exact .inl hy
        · exact .inr ⟨.inr hy, hnot⟩
      · rintro (hy | ⟨rfl | hy, hnot⟩)
        · exact .inl (.inr hy)
        · exact .inl (.inl rfl)
        · exact .inr ⟨hy, hnot⟩

theorem nodup_push {xs : List α} (hstage : stage.Nodup) : (push done xs stage).Nodup := by
  refine foldlRecOn (motive := List.Nodup) xs _ hstage fun stage hstage x _ => ?_
  split_ifs
  · exact hstage
  · exact nodup_insertEntry hstage

theorem length_le_push (done xs stage : List α) : stage.length ≤ (push done xs stage).length := by
  refine foldlRecOn (motive := fun s : List α => stage.length ≤ s.length) xs _ le_rfl
    fun s hs x _ => ?_
  unfold insertEntry
  split_ifs
  · exact hs
  · exact hs
  · rw [length_append]
    omega

variable (next : α → List α)

/-- What a walk from the roots along `next` can come to. -/
def Reaches (roots : List α) (x : α) : Prop :=
  ∃ r ∈ roots, Relation.ReflTransGen (fun a b => b ∈ next a) r x

/-- Where a walk from the roots stands. -/
structure Walk (roots done stage : List α) : Prop where
  nodup : (done ++ stage).Nodup
  sound : ∀ x ∈ done ++ stage, Reaches next roots x
  roots : ∀ r ∈ roots, r ∈ done ++ stage
  closed : ∀ x ∈ done, ∀ y ∈ next x, y ∈ done ++ stage

variable {next} {roots : List α}

omit [DecidableEq α] in
theorem Walk.start (hroots : roots.Nodup) : Walk next roots [] roots where
  nodup := hroots
  sound := fun r hr => ⟨r, hr, .refl⟩
  roots := fun _ hr => hr
  closed := fun _ hx => absurd hx not_mem_nil

omit [DecidableEq α] in
theorem Walk.notMem (hwalk : Walk next roots done (x :: stage)) : x ∉ done :=
  fun hx => (nodup_append.mp hwalk.nodup).2.2 x hx x mem_cons_self rfl

theorem Walk.step (hwalk : Walk next roots done (x :: stage)) :
    Walk next roots (insertEntry x done) (push (insertEntry x done) (next x) stage) := by
  have hnew := hwalk.notMem
  obtain ⟨hdone, hstage, hapart⟩ := nodup_append.mp hwalk.nodup
  obtain ⟨hx, hstage⟩ := nodup_cons.mp hstage
  have hkept : ∀ y ∈ done ++ x :: stage,
      y ∈ insertEntry x done ++ push (insertEntry x done) (next x) stage := by
    intro y hy
    rw [mem_append, mem_insertEntry, mem_push]
    rcases mem_append.mp hy with hy | hy
    · exact .inl (.inr hy)
    · rcases mem_cons.mp hy with rfl | hy
      · exact .inl (.inl rfl)
      · exact .inr (.inl hy)
  refine ⟨nodup_append.mpr ⟨nodup_insertEntry hdone, nodup_push hstage, ?_⟩, ?_,
    fun r hr => hkept r (hwalk.roots r hr), ?_⟩
  · rintro a ha b hb rfl
    rcases mem_push.mp hb with hstaged | ⟨-, hnot⟩
    · rcases mem_insertEntry.mp ha with rfl | ha
      · exact hx hstaged
      · exact hapart a ha a (mem_cons_of_mem _ hstaged) rfl
    · exact hnot ha
  · intro y hy
    rw [mem_append, mem_insertEntry, mem_push] at hy
    rcases hy with (rfl | hy) | hy | ⟨hy, -⟩
    · exact hwalk.sound y (mem_append_right _ mem_cons_self)
    · exact hwalk.sound y (mem_append_left _ hy)
    · exact hwalk.sound y (mem_append_right _ (mem_cons_of_mem _ hy))
    · obtain ⟨r, hr, hpath⟩ := hwalk.sound x (mem_append_right _ mem_cons_self)
      exact ⟨r, hr, hpath.tail hy⟩
  · intro z hz y hy
    rcases mem_insertEntry.mp hz with rfl | hz
    · rw [mem_append, mem_push]
      by_cases hold : y ∈ insertEntry z done
      · exact .inl hold
      · exact .inr (.inr ⟨hy, hold⟩)
    · exact hkept y (hwalk.closed z hz y hy)

omit [DecidableEq α] in
theorem Walk.finish (hwalk : Walk next roots done []) : x ∈ done ↔ Reaches next roots x := by
  constructor
  · intro hx
    exact hwalk.sound x (mem_append_left _ hx)
  · rintro ⟨r, hr, hpath⟩
    induction hpath with
    | refl => simpa using hwalk.roots r hr
    | tail _ hstep ih => simpa using hwalk.closed _ ih _ hstep

/-- A finished walk goes on from another root. -/
theorem Walk.addRoot (hwalk : Walk next roots done []) (x : α) :
    Walk next (x :: roots) done (if x ∈ done then [] else [x]) := by
  have hsound : ∀ y ∈ done, Reaches next (x :: roots) y := by
    intro y hy
    obtain ⟨r, hr, hpath⟩ := hwalk.finish.mp hy
    exact ⟨r, mem_cons_of_mem _ hr, hpath⟩
  have hdone : done.Nodup := by simpa using hwalk.nodup
  have hroots : ∀ r ∈ roots, r ∈ done := fun r hr => by simpa using hwalk.roots r hr
  have hclosed : ∀ y ∈ done, ∀ z ∈ next y, z ∈ done := fun y hy z hz => by
    simpa using hwalk.closed y hy z hz
  split_ifs with hx
  · refine ⟨hwalk.nodup, by simpa using hsound, ?_, fun y hy z hz => by simp [hclosed y hy z hz]⟩
    simpa [hx] using hroots
  · refine ⟨nodup_append.mpr ⟨hdone, nodup_singleton x, ?_⟩, ?_, ?_, ?_⟩
    · rintro a ha b hb rfl
      exact hx (mem_singleton.mp hb ▸ ha)
    · intro y hy
      rcases mem_append.mp hy with hy | hy
      · exact hsound y hy
      · exact ⟨x, mem_cons_self, mem_singleton.mp hy ▸ .refl⟩
    · rintro r hr
      rcases mem_cons.mp hr with rfl | hr
      · simp
      · exact mem_append_left _ (hroots r hr)
    · exact fun y hy z hz => mem_append_left _ (hclosed y hy z hz)

section

omit [DecidableEq α]

theorem Reaches.congr {next' : α → List α} {roots' : List α} (hroots : ∀ r, r ∈ roots ↔ r ∈ roots')
    (hnext : ∀ a b, b ∈ next a ↔ b ∈ next' a) : Reaches next roots x ↔ Reaches next' roots' x := by
  simp only [Reaches, hroots, hnext]

theorem Reaches.mem (h : Reaches next roots x) (hroots : ∀ r ∈ roots, r ∈ known)
    (hnext : ∀ x ∈ known, ∀ y ∈ next x, y ∈ known) : x ∈ known := by
  obtain ⟨r, hr, hpath⟩ := h
  induction hpath with
  | refl => exact hroots r hr
  | tail _ hstep ih => exact hnext _ ih _ hstep

theorem Walk.length_le (hwalk : Walk next roots done stage) (hroots : ∀ r ∈ roots, r ∈ known)
    (hnext : ∀ x ∈ known, ∀ y ∈ next x, y ∈ known) : done.length + stage.length ≤ known.length := by
  rw [← length_append]
  refine (subperm_of_subset hwalk.nodup fun x hx => ?_).length_le
  exact (hwalk.sound x hx).mem hroots hnext

end

/-- What a walk has met bounds from below what can be reached. -/
theorem Walk.length_le_card {A : Finset α} (hwalk : Walk next roots done stage)
    (hA : ∀ a, a ∈ A ↔ Reaches next roots a) : stage.length + done.length ≤ A.card := by
  rw [add_comm, ← length_append, ← toFinset_card_of_nodup hwalk.nodup]
  exact Finset.card_le_card fun a ha => (hA a).mpr (hwalk.sound a (mem_toFinset.mp ha))

end Worklist
