import ImageCoin.CoinsRefinement

/-!
# Stacks of caches

Any number of caches over a base view.  Coins are added and spent at the top; entries may be
evicted and layers flushed at any depth.
-/

namespace ImageCoin

open StateExcept WriteBack CCoinsViewCache Triple

def CacheStack (β : Type) : ℕ → Type
  | 0 => β
  | n + 1 => CCoinsViewCache (CacheStack β n)

section
variable {β : Type}

instance stackView [CCoinsView β] : (n : ℕ) → CCoinsView (CacheStack β n)
  | 0 => inferInstanceAs (CCoinsView β)
  | n + 1 =>
    letI : CCoinsView (CacheStack β n) := stackView n
    inferInstanceAs (CCoinsView (CCoinsViewCache (CacheStack β n)))

def newStack (base : β) : (n : ℕ) → CacheStack β n
  | 0 => base
  | n + 1 => mk (newStack base n) 0 ∅ 0

def bottom : (n : ℕ) → CacheStack β n → β
  | 0, base => base
  | n + 1, view => bottom n (base view)

def onLayer (act : ∀ k, CacheM (CacheStack β k) Unit) :
    (n layer : ℕ) → EStateM CoinsError (CacheStack β n) Unit
  | 0, _ => pure ()
  | n + 1, 0 => act n
  | n + 1, layer + 1 =>
    (onBase (onLayer act n layer) : CacheM (CacheStack β n) Unit)

variable [CCoinsView β]

def flushLayer (n : ℕ) : CacheM (CacheStack β n) Unit := do
  let fOk ← flush
  if fOk then pure () else throw (.assertFailed "view.Flush()")

def flushAll : (n : ℕ) → EStateM CoinsError (CacheStack β n) Unit
  | 0 => pure ()
  | n + 1 =>
    (do flushLayer n; onBase (flushAll n) : CacheM (CacheStack β n) Unit)

end

inductive CoinsOp where
  | addCoin (o : COutPoint) (coin : Coin) (possibleOverwrite : Bool)
  | spendCoin (o : COutPoint)
  | getCoin (o : COutPoint)
  | haveCoin (o : COutPoint)
  | uncache (layer : ℕ) (o : COutPoint)
  | flush (layer : ℕ)

/-- What the caller learns: the unspent coin that was found or moved out, or
whether there is one. -/
inductive Outcome where
  | done
  | found (coin : Option Coin)
  | present (have_ : Bool)
  deriving DecidableEq

section
variable {β : Type} [CCoinsView β]

def runOp (n : ℕ) : CoinsOp → CacheM (CacheStack β n) Outcome
  | .addCoin o coin possibleOverwrite => do
      addCoin o coin possibleOverwrite
      pure .done
  | .spendCoin o => do
      let moved ← spendCoin o
      pure (.found (moved.bind Coin.live))
  | .getCoin o => do
      let coin ← getCoin o
      pure (.found coin)
  | .haveCoin o => do
      let present ← haveCoin o
      pure (.present present)
  | .uncache layer o => do
      onLayer (fun _ => uncache o) (n + 1) layer
      pure .done
  | .flush layer => do
      onLayer flushLayer (n + 1) layer
      pure .done

def runOps (n : ℕ) : List CoinsOp → CacheM (CacheStack β n) (List Outcome)
  | [] => pure []
  | op :: ops => do
      let outcome ← runOp n op
      let outcomes ← runOps n ops
      pure (outcome :: outcomes)

end

def CoinsOp.flat (u : Utxo) : CoinsOp → Outcome × Utxo
  | .addCoin o coin _ => (.done, u.add o coin)
  | .spendCoin o => (.found (u o), Function.update u o none)
  | .getCoin o => (.found (u o), u)
  | .haveCoin o => (.present (u o).isSome, u)
  | .uncache _ _ => (.done, u)
  | .flush _ => (.done, u)

def flatRun : List CoinsOp → Utxo → List Outcome × Utxo
  | [], u => ([], u)
  | op :: ops, u =>
    ((op.flat u).1 :: (flatRun ops (op.flat u).2).1, (flatRun ops (op.flat u).2).2)

/-- A coin is added without permission to overwrite only where there is
none. -/
def CoinsOp.Legal (P : Coin → Prop) (u : Utxo) : CoinsOp → Prop
  | .addCoin o coin possibleOverwrite =>
    P coin ∧ (possibleOverwrite = false → u o = none)
  | _ => True

def LegalRun (P : Coin → Prop) : List CoinsOp → Utxo → Prop
  | [], _ => True
  | op :: ops, u => op.Legal P u ∧ LegalRun P ops (op.flat u).2

section
variable {β σ : Type} [CCoinsView β] {P : Coin → Prop}

def stackSpec (S : ViewSpec β P) : (n : ℕ) → ViewSpec (CacheStack β n) P
  | 0 => S
  | n + 1 => cacheSpec (stackSpec S n)

/-- The view keeps its invariant and shows the coins `u`. -/
def Holds [CCoinsView σ] (S : ViewSpec σ P) (u : Utxo) (view : σ) : Prop :=
  S.Inv view ∧ S.coins view = u

variable {S : ViewSpec β P} {u : Utxo}

theorem triple_of_cached {α : Type} {x : CacheM β α} {u' : Utxo} {q : α → Prop}
    (hx : ∀ b, Triple (Cached S u b) x (fun r view => q r ∧ Cached S u' b view) fun _ => False) :
    Triple (Holds (cacheSpec S) u) x
      (fun r view => q r ∧ Holds (cacheSpec S) u' view) fun _ => False := by
  rintro view ⟨hinv, hcoins⟩
  have hrun := hx (cacheBest S view) view ⟨hinv, hcoins, rfl⟩
  revert hrun
  cases x view with
  | ok r view' => exact fun hrun => ⟨hrun.1, hrun.2.1, hrun.2.2.1⟩
  | error e view' => exact id

variable (n : ℕ)

theorem triple_flushLayer : Triple (Holds (stackSpec S (n + 1)) u) (flushLayer n)
    (fun _ view => Holds (stackSpec S (n + 1)) u view ∧ Holds (stackSpec S n) u (base view))
    fun _ => False := by
  apply of_state
  rintro view ⟨hinv, hcoins⟩
  refine (triple_flush ⟨hinv, hcoins, rfl⟩).bind fun fOk => ?_
  refine .of_pure ?_
  rintro rfl
  apply Triple.pure
  rintro view' ⟨-, hempty, hinv', hcoins', -⟩
  obtain ⟨hcache, hsee, -⟩ := cached_of_empty (stackSpec S n) hempty hinv'
  exact ⟨⟨hcache, hsee.trans hcoins'⟩, hinv', hcoins'⟩

theorem triple_onBase_stack {n : ℕ} {α : Type} {call : EStateM CoinsError (CacheStack β n) α}
    {u₀ : Utxo} (hcall : Triple (Holds (stackSpec S n) u₀) call
    (fun _ => Holds (stackSpec S n) u₀) fun _ => False) :
    Triple (fun view => Holds (stackSpec S (n + 1)) u view ∧ Holds (stackSpec S n) u₀ (base view))
      (onBase call : CacheM (CacheStack β n) α)
      (fun _ view => Holds (stackSpec S (n + 1)) u view ∧ Holds (stackSpec S n) u₀ (base view))
      fun _ => False := by
  apply of_state
  rintro view ⟨hview, hbase⟩
  refine (triple_onBase hcall hbase).conseq (fun _ h => h) ?_ fun _ h => h
  rintro _ view' ⟨hsame, hbase'⟩
  obtain ⟨hinv, hcoins⟩ := CacheInv.of_base hview.1 hsame hbase'.1 (hbase'.2.trans hbase.2.symm)
  exact ⟨⟨hinv, hcoins.trans hview.2⟩, hbase'⟩

theorem triple_onLayer {act : ∀ k, CacheM (CacheStack β k) Unit}
    (hact : ∀ k v, Triple (Holds (stackSpec S (k + 1)) v) (act k)
    (fun _ => Holds (stackSpec S (k + 1)) v) fun _ => False) :
    ∀ (n layer : ℕ) (u : Utxo), Triple (Holds (stackSpec S n) u)
      (onLayer act n layer) (fun _ => Holds (stackSpec S n) u)
      fun _ => False := by
  intro n
  induction n with
  | zero => exact fun _ _ => .pure fun _ hview => hview
  | succ n ih =>
    intro layer u
    cases layer with
    | zero => exact hact n u
    | succ layer =>
      apply of_state
      intro view hview
      refine (triple_onBase_stack (ih layer ((stackSpec S n).coins (base view)))).conseq ?_
        (fun _ _ h => h.1) fun _ h => h
      rintro _ rfl
      exact ⟨hview, hview.1.base, rfl⟩

theorem triple_runOp {op : CoinsOp} (hlegal : op.Legal P u) :
    Triple (Holds (stackSpec S (n + 1)) u) (runOp n op) (fun r view => r = (op.flat u).1 ∧
        Holds (stackSpec S (n + 1)) (op.flat u).2 view)
      fun _ => False := by
  cases op with
  | addCoin o coin possibleOverwrite =>
    refine .bind (triple_of_cached (q := fun _ => True) fun b => ?_)
      fun _ => .pure fun _ h => ⟨rfl, h.2⟩
    exact (triple_addCoin (S.unspent hlegal.1) (fun _ => hlegal.1)
      fun _ => hlegal.2).conseq (fun _ h => h) (fun _ _ h => ⟨trivial, h⟩) fun _ h => h
  | spendCoin o =>
    refine (triple_of_cached fun b => triple_spendCoin o).bind fun moved => ?_
    apply Triple.pure
    rintro view ⟨hmoved, hview⟩
    exact ⟨by rw [hmoved]; rfl, hview⟩
  | getCoin o =>
    refine (triple_of_cached fun b => triple_getCoin o).bind fun coin => ?_
    apply Triple.pure
    rintro view ⟨rfl, hview⟩
    exact ⟨rfl, hview⟩
  | haveCoin o =>
    refine (triple_of_cached fun b => triple_haveCoin o).bind fun _ => ?_
    apply Triple.pure
    rintro view ⟨rfl, hview⟩
    exact ⟨rfl, hview⟩
  | uncache layer o =>
    refine (triple_onLayer (fun k v => ?_) (n + 1) layer u).bind fun _ =>
      pure fun _ h => ⟨rfl, h⟩
    refine (triple_of_cached (q := fun _ => True) fun b => ?_).conseq
      (fun _ h => h) (fun _ _ h => h.2) fun _ h => h
    exact triple_uncache.conseq (fun _ h => h) (fun _ _ h => ⟨trivial, h⟩) fun _ h => h
  | flush layer =>
    refine (triple_onLayer (fun k v => ?_) (n + 1) layer u).bind fun _ =>
      pure fun _ h => ⟨rfl, h⟩
    exact (triple_flushLayer k).conseq (fun _ h => h) (fun _ _ h => h.1) fun _ h => h

theorem triple_runOps {ops : List CoinsOp} : ∀ u, LegalRun P ops u →
    Triple (Holds (stackSpec S (n + 1)) u) (runOps n ops) (fun r view => r = (flatRun ops u).1 ∧
        Holds (stackSpec S (n + 1)) (flatRun ops u).2 view)
      fun _ => False := by
  induction ops with
  | nil => exact fun u _ => .pure fun _ hview => ⟨rfl, hview⟩
  | cons op ops ih =>
    intro u hlegal
    refine (triple_runOp n hlegal.1).bind fun outcome => ?_
    apply of_pure
    rintro rfl
    refine (ih _ hlegal.2).bind fun outcomes => ?_
    apply Triple.pure
    rintro view ⟨rfl, hview⟩
    exact ⟨rfl, hview⟩

theorem triple_flushAll {n : ℕ} : Triple (Holds (stackSpec S n) u) (flushAll n)
    (fun _ view => Holds S u (bottom n view)) fun _ => False := by
  induction n with
  | zero => exact .pure fun _ hview => hview
  | succ n ih =>
    refine (triple_flushLayer n).bind fun _ => ?_
    apply of_state
    rintro view ⟨-, hbase⟩
    exact (triple_onBase ih hbase).conseq (fun _ h => h) (fun _ _ h => h.2) fun _ h => h

theorem inv_newStack {base : β} (hbase : S.Inv base)
    {n : ℕ} : Holds (stackSpec S n) (S.coins base) (newStack base n) := by
  induction n with
  | zero => exact ⟨hbase, rfl⟩
  | succ n ih =>
    obtain ⟨hinv, hcoins, -⟩ := cached_new (stackSpec S n) ih.1
    exact ⟨hinv, hcoins.trans ih.2⟩

/-- One cache or more over a base view, coherent with each other. -/
structure CoherentStack (S : ViewSpec β P) where
  depth : ℕ
  layers : CacheStack β (depth + 1)
  coherent : (stackSpec S (depth + 1)).Inv layers

def CoherentStack.coins (stack : CoherentStack S) : Utxo :=
  (stackSpec S (stack.depth + 1)).coins stack.layers

def CoherentStack.new (S : ViewSpec β P) (depth : ℕ) (base : β)
    (hbase : S.Inv base) : CoherentStack S where
  depth := depth
  layers := newStack base (depth + 1)
  coherent := (inv_newStack hbase).1

/-- The operations on a stack succeed, return what they return on the flat map,
and flushing every layer then leaves the flat map in the base. -/
theorem cacheStack_refines_flat (S : ViewSpec β P) (stack : CoherentStack S)
    (ops : List CoinsOp) (hlegal : LegalRun P ops stack.coins) :
    ∃ view, runOps stack.depth ops stack.layers = .ok (flatRun ops stack.coins).1 view ∧
      (stackSpec S (stack.depth + 1)).coins view = (flatRun ops stack.coins).2 ∧
      ∃ flushed, flushAll (stack.depth + 1) view = .ok () flushed ∧
        S.coins (bottom (stack.depth + 1) flushed) = (flatRun ops stack.coins).2 := by
  obtain ⟨outcomes, view, hrun, rfl, hview⟩ :=
    (triple_runOps stack.depth stack.coins hlegal).exists_ok ⟨stack.coherent, rfl⟩
  obtain ⟨_, flushed, hflush, hbase⟩ :=
    triple_flushAll.exists_ok hview
  exact ⟨view, hrun, hview.2, flushed, hflush, hbase.2⟩

end

def sampleOutPoint : COutPoint := ⟨1, 0⟩

def sampleCoin : Coin := Coin.ofOut ⟨5, [OP_1], [], -10⟩ 7 false

theorem cacheStack_refines_flat_spend : ∃ view, runOps 1
        [.addCoin sampleOutPoint sampleCoin false, .flush 0,
          .getCoin sampleOutPoint, .spendCoin sampleOutPoint, .flush 0,
          .haveCoin sampleOutPoint]
        (newStack ({} : CCoinsViewDB memoryCodec) 2) =
      .ok [.done, .done, .found (some sampleCoin), .found (some sampleCoin),
        .done, .present false] view := by
  have hbase : memorySpec.Inv ({} : CCoinsViewDB memoryCodec) := by
    intro o r hr
    exact absurd hr (by simp)
  obtain ⟨view, hrun, -⟩ := cacheStack_refines_flat memorySpec (.new memorySpec 1 _ hbase)
    [.addCoin sampleOutPoint sampleCoin false, .flush 0,
      .getCoin sampleOutPoint, .spendCoin sampleOutPoint, .flush 0,
      .haveCoin sampleOutPoint]
    ⟨⟨rfl, fun _ => rfl⟩, trivial, trivial, trivial, trivial, trivial, trivial⟩
  exact ⟨view, hrun⟩

end ImageCoin
