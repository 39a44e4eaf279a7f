import Mathlib.Data.List.TakeWhile
import ImageCoin.PaymentQueue
import ImageCoin.Worklist

/-!
# Abandoned transactions

`CWallet::AbandonTransaction` of `wallet.cpp`.  The iteration always starts at the outputs of
the transaction that is abandoned, whichever is visited.
-/

namespace ImageCoin.Abandon

open List Worklist Function Prod.Lex

/-- A transaction with its `GetDepthInMainChain` and `InMempool`. -/
structure CWalletTx where
  nDepth : ℤ
  fInMempool : Bool
  fAbandoned : Bool
  deriving DecidableEq

abbrev TxMap := UInt256 → Option CWalletTx

structure CWallet where
  mapWallet : TxMap
  mapTxSpends : List (COutPoint × UInt256)
  sorted : mapTxSpends.Pairwise fun a b => b.1.lt a.1 = false

variable (w : CWallet) (hashTx : UInt256)

def spenders (now : UInt256) : List UInt256 :=
  ((w.mapTxSpends.filter (!·.1.lt ⟨hashTx, 0⟩)).takeWhile (·.1.hash = now)).map Prod.snd

/-- A failed assertion is `none`.  A loop that stopped early would return what it has. -/
def abandonLoop : ℕ → List UInt256 → List UInt256 → TxMap → Option TxMap
  | 0, _, _, mapWallet => some mapWallet
  | _, [], _, mapWallet => some mapWallet
  | fuel + 1, now :: todo, done, mapWallet => do
    let wtx ← mapWallet now
    if wtx.nDepth > 0 then none
    else if wtx.nDepth = 0 && !wtx.fAbandoned then
      if wtx.fInMempool then none
      else
        abandonLoop fuel (push (now :: done) (spenders w hashTx now) todo) (now :: done)
          (update mapWallet now (some { wtx with fAbandoned := true }))
    else abandonLoop fuel todo (now :: done) mapWallet

def abandonTransaction : Option (Bool × TxMap) := do
  let origtx ← w.mapWallet hashTx
  if origtx.nDepth > 0 || origtx.fInMempool then some (false, w.mapWallet)
  else (true, ·) <$> abandonLoop w hashTx (w.mapTxSpends.length + 1) [hashTx] [] w.mapWallet

def Descends : UInt256 → Prop :=
  Relation.ReflTransGen (fun a b => ∃ n, (⟨a, n⟩, b) ∈ w.mapTxSpends) hashTx

/-- The transaction is not confirmed, conflicted or abandoned. -/
def isNew : Bool :=
  (w.mapWallet hashTx).any fun wtx => wtx.nDepth = 0 && !wtx.fAbandoned

def scheduled : List UInt256 :=
  if isNew w hashTx then push [hashTx] (spenders w hashTx hashTx) [] else []

variable {w hashTx} {x now : UInt256} {todo done : List UInt256} {wtx : CWalletTx}
  {mapWallet result : TxMap} {fuel : ℕ}

/-- The outputs of one transaction are neighbours. -/
theorem mem_spenders : x ∈ spenders w hashTx hashTx ↔ ∃ n, (⟨hashTx, n⟩, x) ∈ w.mapTxSpends := by
  constructor
  · intro hx
    obtain ⟨⟨⟨hash, n⟩, x⟩, hmem, rfl⟩ := mem_map.mp hx
    have hhash := mem_takeWhile_imp hmem
    obtain rfl := of_decide_eq_true hhash
    exact ⟨n, mem_of_mem_filter ((takeWhile_sublist _).subset hmem)⟩
  · rintro ⟨n, hspend⟩
    obtain ⟨l, r, hsplit⟩ := append_of_mem hspend
    have hsorted := hsplit ▸ w.sorted
    rw [spenders, hsplit, filter_append, filter_cons_of_pos, takeWhile_append_of_pos]
    · simp
    · intro a ha
      obtain ⟨hmem, hfrom⟩ := mem_filter.mp ha
      have hto := (pairwise_append.mp hsorted).2.2 a hmem _ mem_cons_self
      simp only [Bool.not_eq_true', Bool.eq_false_iff, ne_eq, outpoint_lt_iff, not_lt] at hfrom hto
      have hbytes := (monotone_fst _ (outpointKey ⟨hashTx, n⟩) hto).antisymm
        (monotone_fst (outpointKey ⟨hashTx, 0⟩) _ hfrom)
      exact decide_eq_true (serializeUInt256_injective
        (map_injective_iff.mpr (fun _ _ => UInt8.toNat_inj.mp) hbytes))
    · simp [Bool.eq_false_iff, outpoint_lt_iff, outpointKey, toLex_lt_toLex]

/-- The iteration ends at once for a later transaction. -/
theorem spenders_of_ne (hx : x ∈ spenders w hashTx hashTx) (hne : now ≠ hashTx) :
    spenders w hashTx now = [] := by
  unfold spenders at hx ⊢
  cases hspends : w.mapTxSpends.filter (!·.1.lt ⟨hashTx, 0⟩) with
  | nil => rfl
  | cons e rest =>
    rw [hspends, takeWhile_cons] at hx
    split_ifs at hx with hhash
    · have hother : e.1.hash ≠ now := of_decide_eq_true hhash ▸ hne.symm
      simp [hother]
    · simp at hx

def CWalletTx.abandon (wtx : CWalletTx) : CWalletTx :=
  if wtx.nDepth = 0 then { wtx with fAbandoned := true } else wtx

def visit (todo : List UInt256) (mapWallet : TxMap) : TxMap := fun x =>
  if todo.contains x then (mapWallet x).map CWalletTx.abandon else mapWallet x

@[simp] theorem visit_nil : visit [] mapWallet = mapWallet := by
  funext x
  simp [visit]

theorem visit_cons (hwtx : mapWallet now = some wtx) (hnow : now ∉ todo) :
    visit todo (update mapWallet now (some wtx.abandon)) = visit (now :: todo) mapWallet := by
  funext x
  by_cases hx : x = now
  · subst hx
    simp [visit, hwtx, hnow]
  · simp [visit, hx]

theorem abandonLoop_step {rest : List UInt256} (hwtx : mapWallet now = some wtx) (hnow : now ∉ rest)
    (hrest : ∀ mapNow, abandonLoop w hashTx fuel
      (if wtx.nDepth = 0 && !wtx.fAbandoned then push (now :: done) (spenders w hashTx now) todo
        else todo) (now :: done) mapNow = some result → result = visit rest mapNow)
    (hresult : abandonLoop w hashTx (fuel + 1) (now :: todo) done mapWallet = some result) :
    result = visit (now :: rest) mapWallet := by
  rw [← visit_cons hwtx hnow]
  simp only [abandonLoop, hwtx, Option.bind_eq_bind, Option.bind_some] at hresult
  split_ifs at hrest hresult with hconfirmed hnew hpool
  · have hdepth : wtx.nDepth = 0 := by simp_all
    rw [CWalletTx.abandon, if_pos hdepth]
    exact hrest _ hresult
  · have hkept : update mapWallet now (some wtx.abandon) = mapWallet := by
      rw [update_eq_self_iff, hwtx, CWalletTx.abandon]
      cases wtx
      simp_all
    rw [hkept]
    exact hrest _ hresult

/-- Once nothing more is scheduled, the transactions that are left are visited once each. -/
theorem abandonLoop_eq (hfuel : todo.length ≤ fuel) (hnodup : todo.Nodup)
    (hlast : ∀ y ∈ todo, spenders w hashTx y = [])
    (hresult : abandonLoop w hashTx fuel todo done mapWallet = some result) :
    result = visit todo mapWallet := by
  induction fuel generalizing todo done mapWallet with
  | zero =>
    obtain rfl := eq_nil_of_length_eq_zero (Nat.le_zero.mp hfuel)
    simpa [abandonLoop] using hresult.symm
  | succ fuel ih =>
    cases todo with
    | nil => simpa [abandonLoop] using hresult.symm
    | cons now todo =>
      rw [nodup_cons] at hnodup
      rw [forall_mem_cons] at hlast
      cases hwtx : mapWallet now with
      | none => simp [abandonLoop, hwtx] at hresult
      | some wtx =>
        refine abandonLoop_step hwtx hnodup.1 (fun mapNow hnow => ?_) hresult
        rw [hlast.1] at hnow
        exact ih (Nat.le_of_succ_le_succ hfuel) hnodup.2 hlast.2 ((ite_self todo) ▸ hnow)

theorem mem_scheduled : x ∈ scheduled w hashTx ↔
    isNew w hashTx ∧ x ∈ spenders w hashTx hashTx ∧ x ≠ hashTx := by
  unfold scheduled
  split_ifs with hnew
  · simp [hnew, mem_push]
  · simp [hnew]

theorem nodup_scheduled : (scheduled w hashTx).Nodup := by
  unfold scheduled
  split_ifs
  · exact nodup_push nodup_nil
  · exact nodup_nil

theorem length_scheduled_le : (scheduled w hashTx).length ≤ w.mapTxSpends.length := by
  refine (nodup_scheduled.subperm fun y hy => (mem_scheduled.mp hy).2.1).length_le.trans ?_
  rw [spenders, length_map]
  exact ((takeWhile_sublist _).trans filter_sublist).length_le

theorem abandonTransaction_eq (hresult : abandonTransaction w hashTx = some (true, result)) :
    result = visit (hashTx :: scheduled w hashTx) w.mapWallet := by
  unfold abandonTransaction at hresult
  cases horig : w.mapWallet hashTx with
  | none => simp [horig] at hresult
  | some origtx =>
    have hloop : abandonLoop w hashTx (w.mapTxSpends.length + 1) [hashTx] [] w.mapWallet =
        some result := by
      simp only [horig, Option.bind_eq_bind, Option.bind_some] at hresult
      split_ifs at hresult
      · simp at hresult
      · simpa using hresult
    refine abandonLoop_step horig (by simp [mem_scheduled]) (fun mapNow hnow => ?_) hloop
    refine abandonLoop_eq length_scheduled_le nodup_scheduled (fun y hy => ?_)
      (by simpa [scheduled, isNew, horig] using hnow)
    obtain ⟨-, hmem, hne⟩ := mem_scheduled.mp hy
    exact spenders_of_ne hmem hne

/-- Only the transaction and those that spend its outputs are marked. -/
theorem abandonTransaction_iff (w : CWallet) (hashTx : UInt256) :
    (∀ result x wtx, abandonTransaction w hashTx = some (true, result) →
      w.mapWallet x = some wtx → ((result x).any CWalletTx.fAbandoned ↔
        wtx.fAbandoned ∨ Descends w hashTx x ∧ wtx.nDepth = 0)) ↔
    ∀ result x wtx, abandonTransaction w hashTx = some (true, result) →
      w.mapWallet x = some wtx → Descends w hashTx x → wtx.nDepth = 0 →
        wtx.fAbandoned ∨ x = hashTx ∨ isNew w hashTx ∧ ∃ n, (⟨hashTx, n⟩, x) ∈ w.mapTxSpends := by
  refine forall_congr' fun result => forall_congr' fun x => forall_congr' fun wtx =>
    forall_congr' fun hresult => forall_congr' fun hwtx => ?_
  have hvisited : x ∈ hashTx :: scheduled w hashTx ↔
      x = hashTx ∨ isNew w hashTx ∧ ∃ n, (⟨hashTx, n⟩, x) ∈ w.mapTxSpends := by
    rw [mem_cons, mem_scheduled, mem_spenders]
    tauto
  rw [abandonTransaction_eq hresult, visit, hwtx, ← hvisited]
  by_cases hx : x ∈ hashTx :: scheduled w hashTx
  · have hdescends : Descends w hashTx x := by
      rcases hvisited.mp hx with rfl | ⟨-, hspend⟩
      · exact .refl
      · exact .single hspend
    by_cases hdepth : wtx.nDepth = 0
    · simp [hx, hdescends, hdepth, CWalletTx.abandon]
    · simp [hx, hdepth, CWalletTx.abandon]
  · rw [if_neg (mt contains_iff_mem.mp hx), Option.any_some]
    tauto

/-- A transaction that spends through another one is not reached. -/
theorem abandonTransaction_not_closed : ∃ w : CWallet, Descends w 1 3 ∧
    (abandonTransaction w 1).map (fun r => (r.1, r.2 3)) = some (true, some ⟨0, false, false⟩) := by
  refine ⟨⟨fun _ => some ⟨0, false, false⟩, [(⟨1, 0⟩, 2), (⟨2, 0⟩, 3)], by decide⟩, ?_, by decide⟩
  exact .head (b := 2) ⟨0, by simp⟩ (.single ⟨0, by simp⟩)

end ImageCoin.Abandon
