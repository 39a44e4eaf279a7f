import ImageCoin.MempoolRemoval

/-!
# The mempool after a block

`removeForBlock` takes out the transactions of the block and, with their descendants, those
that conflict with one.  What remains still finds its inputs.
-/

namespace ImageCoin

open MapEntries Worklist Option List CTxIn

namespace CTxMemPool

variable {start pool pool' : CTxMemPool} {vtx : List CTransaction} {it : UInt256}

/-- An entry of the pool that spends an input of another transaction in the block. -/
def Conflict (pool : CTxMemPool) (vtx : List CTransaction) (hash : UInt256) : Prop :=
  ∃ tx ∈ vtx, hash ≠ tx.hash ∧ ∃ e, pool.coreAt hash = some e ∧
    ∃ txin ∈ tx.vin, txin.prevout ∈ e.tx.vin.map prevout

/-- Every transaction descends from itself. -/
def DescendsFrom (pool : CTxMemPool) (hash ancestor : UInt256) : Prop :=
  Relation.ReflTransGen (fun a b => pool.SpendsFrom b a) ancestor hash

/-- What is left of the pool while its block is processed. -/
structure Remains (start : CTxMemPool) (vtx : List CTransaction) (pool : CTxMemPool) : Prop where
  linked : pool.Linked
  sub : ∀ hash e, pool.coreAt hash = some e → start.coreAt hash = some e
  kept : ∀ hash, (start.coreAt hash).isSome → hash ∉ vtx.map CTransaction.hash →
    (∀ c, start.Conflict vtx c → ¬start.DescendsFrom hash c) → (pool.coreAt hash).isSome
  inputs : ∀ child parent, start.SpendsFrom child parent → (pool.coreAt child).isSome →
    (pool.coreAt parent).isSome ∨ parent ∈ vtx.map CTransaction.hash

section
variable (h : start.Remains vtx pool)
include h

theorem Remains.spendsFrom {child parent : UInt256}
    (hspends : pool.SpendsFrom child parent) : start.SpendsFrom child parent := by
  obtain ⟨e, he, hparent, hin⟩ := hspends
  obtain ⟨e', he'⟩ := isSome_iff_exists.mp hparent
  exact ⟨e, h.sub child e he, by rw [h.sub parent e' he']; rfl, hin⟩

/-- A stage may go if each of its entries is in the block, or descends from a conflict and goes
with its children. -/
theorem Remains.removeStaged (stage : List UInt256)
    (hstage : ∀ x ∈ stage, x ∈ vtx.map CTransaction.hash ∨
    (∃ c, start.Conflict vtx c ∧ start.DescendsFrom x c) ∧ ∀ y, pool.SpendsFrom y x → y ∈ stage) :
    start.Remains vtx (pool.removeStaged stage) where
  linked := h.linked.removeStaged stage
  sub := by
    intro hash e he
    rw [coreAt_removeStaged] at he
    split_ifs at he
    exact h.sub hash e he
  kept := by
    intro hash hin hblock hconflict
    rw [coreAt_removeStaged, if_neg]
    · exact h.kept hash hin hblock hconflict
    · intro hmem
      rcases hstage hash hmem with hmem | ⟨⟨c, hc, hdesc⟩, -⟩
      · exact hblock hmem
      · exact hconflict c hc hdesc
  inputs := by
    intro child parent hspends hchild
    rw [coreAt_removeStaged] at hchild ⊢
    have hout : child ∉ stage := fun hmem => by simp [hmem] at hchild
    rw [if_neg hout] at hchild
    rcases h.inputs child parent hspends hchild with hparent | hblock
    · by_cases hmem : parent ∈ stage
      · refine .inr ((hstage parent hmem).resolve_right fun hgone => hout (hgone.2 child ?_))
        obtain ⟨e, he, -, hin⟩ := hspends
        obtain ⟨e', he'⟩ := isSome_iff_exists.mp hchild
        obtain rfl : e' = e := some.inj ((h.sub child e' he').symm.trans he)
        exact ⟨e', he', hparent, hin⟩
      · exact .inl (by rwa [if_neg hmem])
    · exact .inr hblock

theorem Remains.clearPrioritisation {hash : UInt256} :
    start.Remains vtx (pool.clearPrioritisation hash) :=
  ⟨⟨h.linked.hash, h.linked.spends, h.linked.parents, h.linked.children⟩, h.sub, h.kept, h.inputs⟩

end

/-- Only entries that were there remain. -/
def Shrinks (pool pool' : CTxMemPool) : Prop :=
  ∀ hash e, pool'.coreAt hash = some e → pool.coreAt hash = some e

theorem shrinks_removeStaged {stage : List UInt256} : pool.Shrinks (pool.removeStaged stage) := by
  intro hash e he
  rw [coreAt_removeStaged] at he
  split_ifs at he
  exact he

theorem lookup_none_of_shrinks (hpool : pool.Linked) (hpool' : pool'.Linked)
    (hshrinks : pool.Shrinks pool') {o : COutPoint} (hnone : pool.mapNextTx.lookup o = none) :
    pool'.mapNextTx.lookup o = none := by
  rw [eq_none_iff_forall_not_mem] at *
  intro hash hmem
  obtain ⟨e, he, ho⟩ := (hpool'.spends o hash).mp hmem
  exact hnone hash ((hpool.spends o hash).mpr ⟨e, hshrinks hash e he, ho⟩)

theorem remove_false {tx : CTransaction} :
    ∃ stage, pool.remove tx false = some (pool.removeStaged stage) ∧
      (∀ x ∈ stage, x = tx.hash) ∧ (pool.removeStaged stage).coreAt tx.hash = none := by
  by_cases hin : pool.has tx.hash
  · refine ⟨[tx.hash], by simp [remove, hin], by simp, ?_⟩
    rw [coreAt_removeStaged, if_pos (mem_singleton_self _)]
  · refine ⟨[], by simp [remove, hin], by simp, ?_⟩
    rw [coreAt_removeStaged, if_neg not_mem_nil]
    simpa [has, coreAt] using hin

variable {tx : CTransaction}

theorem Remains.removeConflict (h : start.Remains vtx pool) (htx : tx ∈ vtx)
    {txin : CTxIn} (hin : txin ∈ tx.vin) (hgone : pool.coreAt tx.hash = none) :
    ∃ pool', pool.removeConflict tx txin = some pool' ∧ start.Remains vtx pool' ∧
      pool.Shrinks pool' ∧ pool'.mapNextTx.lookup txin.prevout = none := by
  unfold CTxMemPool.removeConflict
  cases hlook : pool.mapNextTx.lookup txin.prevout with
  | none => exact ⟨pool, by simp, h, fun _ _ he => he, hlook⟩
  | some c =>
    obtain ⟨core, hcore, ho⟩ := (h.linked.spends _ c).mp hlook
    obtain ⟨e, he, rfl⟩ := map_eq_some_iff.mp hcore
    have hhash : e.tx.hash = c := h.linked.hash c (forget e) hcore
    have hne : c ≠ tx.hash := by
      rintro rfl
      simp [hgone] at hcore
    have hc : start.Conflict vtx c := ⟨tx, htx, hne, _, h.sub c _ hcore, txin, hin, ho⟩
    obtain ⟨D, hD, hmem⟩ := h.linked.calculateDescendants (isSome_iff_exists.mpr ⟨_, hcore⟩)
    have hremove : pool.remove e.tx true = some (pool.removeStaged D) := by
      have hhas : pool.has c := by rw [has, he]; rfl
      simp [remove, hhas, hhash, hD]
    have hrest := h.removeStaged D fun x hx => .inr ⟨⟨c, hc, ?_⟩, fun y hy => ?_⟩
    · refine ⟨(pool.removeStaged D).clearPrioritisation e.tx.hash, ?_,
        hrest.clearPrioritisation, shrinks_removeStaged, ?_⟩
      · simp [he, hhash, hne, hremove]
      · rw [eq_none_iff_forall_not_mem]
        intro c' hc'
        obtain ⟨e', he', ho'⟩ := (hrest.linked.spends _ c').mp hc'
        have hsame := (h.linked.spends _ c').mpr ⟨e', shrinks_removeStaged _ _ he', ho'⟩
        obtain rfl : c = c' := some.inj (hlook.symm.trans hsame)
        rw [coreAt_removeStaged, if_pos ((hmem c).mpr .refl)] at he'
        simp at he'
    · exact Relation.ReflTransGen.mono (fun _ _ hab => h.spendsFrom hab) _ _ ((hmem x).mp hx)
    · exact (hmem y).mpr (((hmem x).mp hx).tail hy)

theorem Remains.removeConflicts (h : start.Remains vtx pool) (htx : tx ∈ vtx)
    (hgone : pool.coreAt tx.hash = none) {vin : List CTxIn} (hvin : ∀ txin ∈ vin, txin ∈ tx.vin) :
    ∃ pool', vin.foldlM (fun p txin => CTxMemPool.removeConflict p tx txin) pool = some pool' ∧
      start.Remains vtx pool' ∧ pool.Shrinks pool' ∧
      ∀ txin ∈ vin, pool'.mapNextTx.lookup txin.prevout = none := by
  induction vin generalizing pool with
  | nil => exact ⟨pool, rfl, h, fun _ _ he => he, by simp⟩
  | cons txin vin ih =>
    obtain ⟨p, hp, hrest, hshrinks, hnone⟩ :=
      h.removeConflict htx (hvin txin mem_cons_self) hgone
    have hgone' : p.coreAt tx.hash = none := by
      rw [eq_none_iff_forall_not_mem]
      intro e he
      simpa [hgone] using hshrinks _ e he
    obtain ⟨p', hp', hrest', hshrinks', hnone'⟩ :=
      ih hrest hgone' fun txin hin => hvin txin (mem_cons_of_mem _ hin)
    refine ⟨p', by simp [hp, hp'], hrest', fun hash e he => hshrinks _ _ (hshrinks' _ _ he), ?_⟩
    rw [forall_mem_cons]
    exact ⟨lookup_none_of_shrinks hrest.linked hrest'.linked hshrinks' hnone, hnone'⟩

/-- The pool holds neither the transaction nor a spender of its inputs. -/
def ClearOf (pool : CTxMemPool) (tx : CTransaction) : Prop :=
  pool.coreAt tx.hash = none ∧ ∀ txin ∈ tx.vin, pool.mapNextTx.lookup txin.prevout = none

theorem Remains.removeForTx (h : start.Remains vtx pool) (htx : tx ∈ vtx) :
    ∃ pool', pool.removeForTx tx = some pool' ∧ start.Remains vtx pool' ∧ pool.Shrinks pool' ∧
      pool'.ClearOf tx := by
  obtain ⟨stage, hstage, hmem, hgone⟩ := remove_false
  have hrest := h.removeStaged stage fun x hx =>
    .inl (hmem x hx ▸ mem_map_of_mem htx)
  obtain ⟨p, hp, hrest', hshrinks, hnone⟩ := hrest.removeConflicts htx hgone fun _ h => h
  refine ⟨p.clearPrioritisation tx.hash, ?_, hrest'.clearPrioritisation,
    fun hash e he => shrinks_removeStaged _ _ (hshrinks _ _ he), ?_, hnone⟩
  · simp [CTxMemPool.removeForTx, CTxMemPool.removeConflicts, hstage, hp]
  · rw [eq_none_iff_forall_not_mem]
    intro e he
    simpa [hgone] using hshrinks _ e he

theorem Remains.removeForBlock (h : start.Remains vtx pool) {txs : List CTransaction}
    (htxs : ∀ tx ∈ txs, tx ∈ vtx) :
    ∃ pool', pool.removeForBlock txs = some pool' ∧ start.Remains vtx pool' ∧
      pool.Shrinks pool' ∧ ∀ tx ∈ txs, pool'.ClearOf tx := by
  induction txs generalizing pool with
  | nil => exact ⟨pool, rfl, h, fun _ _ he => he, by simp⟩
  | cons tx txs ih =>
    obtain ⟨p, hp, hrest, hshrinks, hclear⟩ := h.removeForTx (htxs tx mem_cons_self)
    obtain ⟨p', hp', hrest', hshrinks', hclear'⟩ :=
      ih hrest fun tx htx => htxs tx (mem_cons_of_mem _ htx)
    refine ⟨p', ?_, hrest', fun hash e he => hshrinks _ _ (hshrinks' _ _ he), ?_⟩
    · simp only [CTxMemPool.removeForBlock] at hp' ⊢
      simp [hp, hp']
    · rw [forall_mem_cons]
      refine ⟨⟨?_, fun txin hin => ?_⟩, hclear'⟩
      · rw [eq_none_iff_forall_not_mem]
        intro e he
        simpa [hclear.1] using hshrinks' _ e he
      · exact lookup_none_of_shrinks hrest.linked hrest'.linked hshrinks' (hclear.2 txin hin)

/-- A transaction creates a coin at an outpoint; unspendable outputs never enter the UTXO set. -/
def Creates (tx : CTransaction) (o : COutPoint) : Prop :=
  o.hash = tx.hash ∧ ∃ txout, tx.vout[o.n.toNat]? = some txout ∧
    isUnspendable txout.scriptPubKey = false

/-- The UTXO set with a block connected. -/
def connected (utxo : Set COutPoint) (vtx : List CTransaction) : Set COutPoint :=
  {o | (o ∈ utxo ∨ ∃ tx ∈ vtx, Creates tx o) ∧ ∀ tx ∈ vtx, o ∉ tx.vin.map prevout}

/-- The output can be spent by a transaction that enters the mempool. -/
def Available (pool : CTxMemPool) (utxo : Set COutPoint) (o : COutPoint) : Prop :=
  o ∈ utxo ∨ ∃ e, pool.coreAt o.hash = some e ∧ Creates e.tx o

/-- What a block leaves of the pool: it is linked, without the transactions of the block and all
that spends what they spend; the inputs that were available still are; and whatever neither is in
the block nor descends from a conflict stays. -/
theorem removeForBlock_leaves_consistent (hpool : pool.Linked) (vtx : List CTransaction)
    (hsame : ∀ tx ∈ vtx, ∀ e, pool.coreAt tx.hash = some e → e.tx = tx) (utxo : Set COutPoint) :
    ∃ pool', pool.removeForBlock vtx = some pool' ∧ pool'.Linked ∧
      (∀ hash e, pool'.coreAt hash = some e → pool.coreAt hash = some e ∧
        ∀ tx ∈ vtx, tx.hash ≠ hash ∧
          ∀ o ∈ tx.vin.map prevout, o ∉ e.tx.vin.map prevout) ∧
      (∀ hash e, pool'.coreAt hash = some e → ∀ o ∈ e.tx.vin.map prevout,
        pool.Available utxo o → pool'.Available (connected utxo vtx) o) ∧
      (∀ hash, (pool.coreAt hash).isSome → hash ∉ vtx.map CTransaction.hash →
        (∀ c, pool.Conflict vtx c → ¬pool.DescendsFrom hash c) →
          (pool'.coreAt hash).isSome) := by
  have hstart : pool.Remains vtx pool := by
    refine ⟨hpool, fun _ _ he => he, fun _ hin _ _ => hin, ?_⟩
    rintro child parent ⟨-, -, hparent, -⟩ -
    exact .inl hparent
  obtain ⟨pool', hrun, hrest, -, hclear⟩ := hstart.removeForBlock fun _ h => h
  have hunspent : ∀ hash e, pool'.coreAt hash = some e → ∀ tx ∈ vtx,
      ∀ o ∈ tx.vin.map prevout, o ∉ e.tx.vin.map prevout := by
    intro hash e he tx htx o ho ho'
    obtain ⟨txin, hin, rfl⟩ := mem_map.mp ho
    have hspender := (hrest.linked.spends _ hash).mpr ⟨e, he, ho'⟩
    simp [(hclear tx htx).2 txin hin] at hspender
  refine ⟨pool', hrun, hrest.linked, fun hash e he => ⟨hrest.sub hash e he, fun tx htx =>
    ⟨?_, hunspent hash e he tx htx⟩⟩, ?_, hrest.kept⟩
  · rintro rfl
    simp [(hclear tx htx).1] at he
  · intro hash e he o ho havail
    have hfree : ∀ tx ∈ vtx, o ∉ tx.vin.map prevout :=
      fun tx htx hmem => hunspent hash e he tx htx o hmem ho
    rcases havail with hutxo | ⟨parent, hparent, hcreates⟩
    · exact .inl ⟨.inl hutxo, hfree⟩
    · obtain ⟨txin, hin, rfl⟩ := mem_map.mp ho
      have hspends : pool.SpendsFrom hash txin.prevout.hash :=
        ⟨e, hrest.sub hash e he, by rw [hparent]; rfl, txin, hin, rfl⟩
      rcases hrest.inputs _ _ hspends (by rw [he]; rfl) with hkept | hblock
      · obtain ⟨parent', hparent'⟩ := Option.isSome_iff_exists.mp hkept
        obtain rfl := Option.some.inj ((hrest.sub _ _ hparent').symm.trans hparent)
        exact .inr ⟨parent', hparent', hcreates⟩
      · -- The parent went because the block has it, and then the block creates the coin.
        obtain ⟨tx, htx, hhash⟩ := mem_map.mp hblock
        have heq := hsame tx htx parent (hhash ▸ hparent)
        exact .inl ⟨.inr ⟨tx, htx, heq ▸ hcreates⟩, hfree⟩

/-- A transaction with one input. -/
def entryWith (hash spent : UInt256) : CTxMemPoolEntry :=
  { CTxMemPoolEntry.plainEntry with
    tx := { CTxMemPoolEntry.plainEntry.tx with vin := [⟨⟨spent, 0⟩, [], 0⟩], hash := hash } }

/-- Three transactions with confirmed inputs, and a child of the third. -/
def mixedPool : CTxMemPool where
  mapTx := (((AList.insert 1 (entryWith 1 7) ∅).insert 2 (entryWith 2 8)).insert 3
    (entryWith 3 9)).insert 4 (entryWith 4 3)
  mapNextTx := (((AList.insert ⟨7, 0⟩ 1 ∅).insert ⟨8, 0⟩ 2).insert ⟨9, 0⟩ 3).insert ⟨3, 0⟩ 4
  mapLinks := (((AList.insert 1 {} ∅).insert 2 {}).insert 3 { children := [4] }).insert 4
    { parents := [3] }

theorem mixedPool_linked : mixedPool.Linked :=
  LinkedEntries.linked ⟨by decide +kernel, by decide +kernel, by decide +kernel, by decide +kernel⟩

/-- A block with the first transaction and a conflict with the third: the second one stays. -/
theorem removeForBlock_mixedPool :
    ∃ pool', mixedPool.removeForBlock [(entryWith 1 7).tx, (entryWith 5 9).tx] = some pool' ∧
      pool'.Linked ∧ [1, 2, 3, 4].map pool'.has = [false, true, false, false] := by
  obtain ⟨pool', hrun, hlinked, -, -, -⟩ := removeForBlock_leaves_consistent mixedPool_linked
    [(entryWith 1 7).tx, (entryWith 5 9).tx] (fun tx htx e he => by
      rcases mem_pair.mp htx with rfl | rfl
      · exact (congrArg CTxMemPoolEntry.tx (Option.some.inj he)).symm
      · exact nomatch he) ∅
  have hleft : (mixedPool.removeForBlock [(entryWith 1 7).tx, (entryWith 5 9).tx]).map
      (fun pool' => [1, 2, 3, 4].map pool'.has) = some [false, true, false, false] := by
    decide +kernel
  rw [hrun] at hleft
  exact ⟨pool', hrun, hlinked, Option.some.inj hleft⟩

end CTxMemPool
end ImageCoin
