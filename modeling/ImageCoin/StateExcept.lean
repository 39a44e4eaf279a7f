import Mathlib.Tactic

/-!
# Stateful computations that can fail

Rules for `EStateM`, in which a failed computation keeps the state it had reached.
-/

namespace StateExcept

variable {ε σ α β : Type}

/-- From a state with `pre`, success leaves a value and state with `ok` and
failure leaves a state with `err`. -/
def Triple (pre : σ → Prop) (x : EStateM ε σ α) (ok : α → σ → Prop) (err : σ → Prop) : Prop :=
  ∀ s, pre s →
    match x s with
    | .ok a s' => ok a s'
    | .error _ s' => err s'

variable {pre : σ → Prop} {err : σ → Prop} {ok : α → σ → Prop}

theorem Triple.pure {a : α} (hok : ∀ s, pre s → ok a s) :
    Triple pre (pure a : EStateM ε σ α) ok err :=
  fun s hs => hok s hs

theorem Triple.throw {e : ε} (herr : ∀ s, pre s → err s) :
    Triple pre (throw e : EStateM ε σ α) ok err :=
  fun s hs => herr s hs

theorem Triple.modify {ok : Unit → σ → Prop} {f : σ → σ} (hok : ∀ s, pre s → ok () (f s)) :
    Triple pre (modify f : EStateM ε σ Unit) ok err :=
  fun s hs => hok s hs

variable {x : EStateM ε σ α} {k : α → EStateM ε σ β}

theorem Triple.bind {mid : α → σ → Prop} {ok : β → σ → Prop} (hx : Triple pre x mid err)
    (hk : ∀ a, Triple (mid a) (k a) ok err) : Triple pre (x >>= k) ok err := by
  intro s hs
  have hfirst := hx s hs
  have hstep : (x >>= k) s = match x s with
      | .ok a s' => k a s'
      | .error e s' => .error e s' := rfl
  rw [hstep]
  cases hrun : x s with
  | ok a s' =>
    rw [hrun] at hfirst
    exact hk a s' hfirst
  | error e s' =>
    rw [hrun] at hfirst
    exact hfirst

theorem Triple.conseq {pre pre' : σ → Prop} {ok ok' : α → σ → Prop} {err err' : σ → Prop}
    (hx : Triple pre' x ok' err') (hpre : ∀ s, pre s → pre' s)
    (hok : ∀ a s, ok' a s → ok a s) (herr : ∀ s, err' s → err s) : Triple pre x ok err := by
  intro s hs
  have hrun := hx s (hpre s hs)
  cases hresult : x s with
  | ok a s' =>
    rw [hresult] at hrun
    exact hok a s' hrun
  | error e s' =>
    rw [hresult] at hrun
    exact herr s' hrun

theorem Triple.and {ok ok' : α → σ → Prop} {err err' : σ → Prop}
    (hx : Triple pre x ok err) (hx' : Triple pre x ok' err') :
    Triple pre x (fun a s => ok a s ∧ ok' a s) fun s => err s ∧ err' s := by
  intro s hs
  have hrun := hx s hs
  have hrun' := hx' s hs
  cases hresult : x s with
  | ok a s' =>
    rw [hresult] at hrun hrun'
    exact ⟨hrun, hrun'⟩
  | error e s' =>
    rw [hresult] at hrun hrun'
    exact ⟨hrun, hrun'⟩

theorem Triple.trivial : Triple pre x (fun _ _ => True) fun _ => True := by
  intro s _
  cases x s with
  | ok a s' => exact True.intro
  | error e s' => exact True.intro

theorem Triple.of_pure {p : Prop} (hx : p → Triple pre x ok err) :
    Triple (fun s => p ∧ pre s) x ok err :=
  fun s hs => hx hs.1 s hs.2

theorem Triple.of_state (hx : ∀ s, pre s → Triple (· = s) x ok err) : Triple pre x ok err :=
  fun s hs => hx s hs s rfl

theorem Triple.at_state (hx : Triple pre x ok err) {s : σ} (hs : pre s) :
    Triple (· = s) x ok err := by
  rintro _ rfl
  exact hx _ hs

theorem Triple.get_bind {k : σ → EStateM ε σ β} {ok : β → σ → Prop}
    (hk : ∀ s, pre s → Triple (· = s) (k s) ok err) : Triple pre (MonadState.get >>= k) ok err :=
  fun s hs => hk s hs s rfl

theorem Triple.exists_ok (hx : Triple pre x ok fun _ => False) {s : σ} (hs : pre s) :
    ∃ a s', x s = .ok a s' ∧ ok a s' := by
  have hrun := hx s hs
  cases hresult : x s with
  | ok a s' =>
    rw [hresult] at hrun
    exact ⟨a, s', rfl, hrun⟩
  | error e s' =>
    rw [hresult] at hrun
    exact hrun.elim

theorem ok_of_bind_ok {x : Except ε α} {k : α → Except ε β} {b : β}
    (hok : x >>= k = .ok b) : ∃ a, x = .ok a ∧ k a = .ok b := by
  cases x with
  | error e => cases hok
  | ok a => exact ⟨a, rfl, hok⟩

/-- Where `y` succeeds, `x` does the same. -/
def SuccLE (x y : EStateM ε σ α) : Prop :=
  ∀ s a s', y s = .ok a s' → x s = .ok a s'

theorem SuccLE.refl (x : EStateM ε σ α) : SuccLE x x :=
  fun _ _ _ hrun => hrun

theorem SuccLE.throw (x : EStateM ε σ α) (e : ε) : SuccLE x (throw e) := by
  intro s a s' hrun
  cases hrun

theorem SuccLE.bind {x y : EStateM ε σ α} {j k : α → EStateM ε σ β}
    (hfirst : SuccLE x y) (hsecond : ∀ a, SuccLE (j a) (k a)) : SuccLE (x >>= j) (y >>= k) := by
  intro s b s' hrun
  have hy : (y >>= k) s = match y s with
      | .ok a t => k a t
      | .error e t => .error e t := rfl
  have hx : (x >>= j) s = match x s with
      | .ok a t => j a t
      | .error e t => .error e t := rfl
  rw [hy] at hrun
  cases hmid : y s with
  | error e t =>
    rw [hmid] at hrun
    cases hrun
  | ok a t =>
    rw [hmid] at hrun
    rw [hx, hfirst s a t hmid]
    exact hsecond a t b s' hrun

theorem SuccLE.ite {p : Prop} [Decidable p] {x y x' y' : EStateM ε σ α}
    (hthen : p → SuccLE x y) (helse : ¬ p → SuccLE x' y') :
    SuccLE (if p then x else x') (if p then y else y') := by
  by_cases h : p
  · rw [if_pos h, if_pos h]
    exact hthen h
  · rw [if_neg h, if_neg h]
    exact helse h

def KeepsState (x : EStateM ε σ α) : Prop :=
  ∀ s a s', x s = .ok a s' → s' = s

theorem KeepsState.pure (a : α) : KeepsState (pure a : EStateM ε σ α) := by
  intro s b s' hrun
  cases hrun
  rfl

theorem KeepsState.throw (e : ε) : KeepsState (throw e : EStateM ε σ α) := by
  intro s a s' hrun
  cases hrun

theorem KeepsState.get : KeepsState (get : EStateM ε σ σ) := by
  intro s a s' hrun
  cases hrun
  rfl

theorem KeepsState.bind (hx : KeepsState x) (hk : ∀ a, KeepsState (k a)) :
    KeepsState (x >>= k) := by
  intro s b s' hrun
  have hstep : (x >>= k) s = match x s with
      | .ok a t => k a t
      | .error e t => .error e t := rfl
  rw [hstep] at hrun
  cases hmid : x s with
  | error e t =>
    rw [hmid] at hrun
    cases hrun
  | ok a t =>
    rw [hmid] at hrun
    rw [hk a t b s' hrun, hx s a t hmid]

theorem SuccLE.pure_of_keepsState {y : EStateM ε σ Unit}
    (hcheck : KeepsState y) : SuccLE (pure ()) y := by
  intro s a s' hrun
  rw [hcheck s a s' hrun]
  rfl

end StateExcept
