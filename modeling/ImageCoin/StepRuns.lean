import Mathlib.Tactic

/-!
# Runs of a step function

A list of operations is run from a state; the run has no result if an operation has none.  A
condition holds throughout a run if each operation meets it in the state before it.
-/

namespace StepRuns

variable {σ α : Type} (step : σ → α → Option σ) {condition' : σ → α → Prop}

def run : σ → List α → Option σ
  | x, [] => some x
  | x, op :: ops => (step x op).bind (run · ops)

def Throughout (condition : σ → α → Prop) : σ → List α → Prop
  | _, [] => True
  | x, op :: ops => condition x op ∧ ∀ y ∈ step x op, Throughout condition y ops

instance decidableThroughout {condition : σ → α → Prop} [∀ x op, Decidable (condition x op)] :
    ∀ x ops, Decidable (Throughout step condition x ops)
  | _, [] => .isTrue trivial
  | x, op :: ops =>
    have := fun y =>
      (decidableThroughout y ops : Decidable (Throughout step condition y ops))
    inferInstanceAs (Decidable (condition x op ∧ ∀ y ∈ step x op, Throughout step condition y ops))

variable {step} {condition : σ → α → Prop} {P : σ → Prop} {x y : σ} {ops : List α}

theorem exists_run (hstep : ∀ {x op}, P x → condition x op → ∃ y, step x op = some y ∧ P y)
    (hx : P x) (hall : Throughout step condition x ops) : ∃ y, run step x ops = some y ∧ P y := by
  induction ops generalizing x with
  | nil => exact ⟨x, rfl, hx⟩
  | cons op ops ih =>
    obtain ⟨z, hz, hP⟩ := hstep hx hall.1
    obtain ⟨y, hy, hP'⟩ := ih hP (hall.2 z hz)
    exact ⟨y, by rw [run, hz, Option.bind_some, hy], hP'⟩

theorem Throughout.and
    (h : Throughout step condition x ops) (h' : Throughout step condition' x ops) :
    Throughout step (fun x op => condition x op ∧ condition' x op) x ops := by
  induction ops generalizing x with
  | nil => trivial
  | cons op ops ih =>
    exact ⟨⟨h.1, h'.1⟩, fun y hy => ih (h.2 y hy) (h'.2 y hy)⟩

section
variable (step : σ → α → σ)

def Along (condition : σ → α → Prop) : σ → List α → Prop
  | _, [] => True
  | x, op :: ops => condition x op ∧ Along condition (step x op) ops

instance decidableAlong {condition : σ → α → Prop} [∀ x op, Decidable (condition x op)] :
    ∀ x ops, Decidable (Along step condition x ops)
  | _, [] => .isTrue trivial
  | x, op :: ops =>
    have := (decidableAlong (step x op) ops : Decidable (Along step condition (step x op) ops))
    inferInstanceAs (Decidable (condition x op ∧ Along step condition (step x op) ops))

variable {step}

theorem Along.foldl (hkeep : ∀ x op, P x → condition x op → P (step x op))
    (hx : P x) (hall : Along step condition x ops) : P (ops.foldl step x) := by
  induction ops generalizing x with
  | nil => exact hx
  | cons op ops ih => exact ih (hkeep x op hx hall.1) hall.2

theorem along_of_forall (hop : ∀ op ∈ ops, ∀ x, condition x op) : Along step condition x ops := by
  induction ops generalizing x with
  | nil => trivial
  | cons op ops ih =>
    exact ⟨hop op List.mem_cons_self x, ih fun op' h => hop op' (List.mem_cons_of_mem _ h)⟩

theorem Along.and (hall : Along step condition x ops) (hall' : Along step condition' x ops) :
    Along step (fun x op => condition x op ∧ condition' x op) x ops := by
  induction ops generalizing x with
  | nil => trivial
  | cons op ops ih => exact ⟨⟨hall.1, hall'.1⟩, ih hall.2 hall'.2⟩

theorem Along.getElem? (hall : Along step condition x ops) {n : ℕ} {op : α}
    (hop : ops[n]? = some op) : condition ((ops.take n).foldl step x) op := by
  induction ops generalizing x n with
  | nil => simp at hop
  | cons op' ops ih =>
    cases n with
    | zero =>
      obtain rfl : op' = op := by simpa using hop
      exact hall.1
    | succ n => exact ih hall.2 (by simpa using hop)

end
end StepRuns

namespace InsertedSteps

variable {σ α : Type} (step : σ → α → σ)

/-- The steps that were there before; an inserted one is marked with `true`. -/
def originals : List (Bool × α) → List α
  | [] => []
  | (true, _) :: steps => originals steps
  | (false, a) :: steps => a :: originals steps

def runAll (s : σ) (steps : List (Bool × α)) : σ :=
  steps.foldl (fun s a => step s a.2) s

/-- Each inserted step meets a condition that may look at the original steps that
come later. -/
def Insertable (condition : List α → σ → α → Prop) : σ → List (Bool × α) → Prop
  | _, [] => True
  | s, (true, a) :: steps =>
    condition (originals steps) s a ∧ Insertable condition (step s a) steps
  | s, (false, a) :: steps => Insertable condition (step s a) steps

variable {step} {condition : List α → σ → α → Prop} {R : List α → σ → σ → Prop}
  {steps : List (Bool × α)}

theorem Insertable.and_of_mem {p : α → Prop} {s : σ}
    (hmem : ∀ a, (true, a) ∈ steps → p a) (hsteps : Insertable step condition s steps) :
    Insertable step (fun later s a => p a ∧ condition later s a) s steps := by
  induction steps generalizing s with
  | nil => trivial
  | cons first steps ih =>
    obtain ⟨inserted, a⟩ := first
    have hrest : ∀ a, (true, a) ∈ steps → p a :=
      fun a ha => hmem a (List.mem_cons_of_mem _ ha)
    cases inserted with
    | true => exact ⟨⟨hmem a List.mem_cons_self, hsteps.1⟩, ih hrest hsteps.2⟩
    | false => exact ih hrest hsteps

theorem Insertable.and {condition' : List α → σ → α → Prop} {s : σ}
    (hsteps : Insertable step condition s steps) (hsteps' : Insertable step condition' s steps) :
    Insertable step (fun later s a => condition later s a ∧ condition' later s a) s steps := by
  induction steps generalizing s with
  | nil => trivial
  | cons first steps ih =>
    obtain ⟨_ | _, a⟩ := first
    · exact ih hsteps hsteps'
    · exact ⟨⟨hsteps.1, hsteps'.1⟩, ih hsteps.2 hsteps'.2⟩

theorem Insertable.related
    (hinserted : ∀ later s t a, R later s t → condition later s a → R later (step s a) t)
    (horiginal : ∀ later s t a, R (a :: later) s t → R later (step s a) (step t a))
    {s t : σ} (hR : R (originals steps) s t) (hsteps : Insertable step condition s steps) :
    R [] (runAll step s steps) ((originals steps).foldl step t) := by
  induction steps generalizing s t with
  | nil => exact hR
  | cons first steps ih =>
    obtain ⟨inserted, a⟩ := first
    cases inserted with
    | true => exact ih (hinserted _ s t a hR hsteps.1) hsteps.2
    | false => exact ih (horiginal _ s t a hR) hsteps

end InsertedSteps
