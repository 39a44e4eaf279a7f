import ImageCoin.MempoolRemoval

/-!
# The address and spent indexes of the mempool

`addUnchecked`, `addAddressIndex` and `addSpentIndex` of `txmempool.cpp`, and `clear`.
-/

namespace ImageCoin

open MapEntries Worklist List
open Option hiding map_map

namespace CTxMemPool

def updateFeeDelta (newFeeDelta : ℤ) (e : CTxMemPoolEntry) : CTxMemPoolEntry :=
  { e with
    nModFeesWithDescendants := e.nModFeesWithDescendants + (newFeeDelta - e.feeDelta)
    feeDelta := newFeeDelta }

/-- The first half of `addUnchecked`, before any link is made. -/
def insertTx (pool : CTxMemPool) (entry : CTxMemPoolEntry) : CTxMemPool :=
  let hash := entry.tx.hash
  let newEntry :=
    match pool.mapDeltas.lookup hash with
    | some delta => if delta ≠ 0 then updateFeeDelta delta entry else entry
    | none => entry
  { pool with
    mapTx := insertNew pool.mapTx hash newEntry
    mapLinks := insertNew pool.mapLinks hash {}
    cachedInnerUsage := pool.cachedInnerUsage + entry.nUsageSize
    mapNextTx := entry.tx.vin.foldl (fun m txin => m.insert txin.prevout hash) pool.mapNextTx }

def addUnchecked (pool : CTxMemPool) (entry : CTxMemPoolEntry) (setAncestors : List UInt256) :
    CTxMemPool :=
  let setParentTransactions := push [] (entry.tx.vin.map fun txin => txin.prevout.hash) []
  let linked := setParentTransactions.foldl (fun p phash =>
    if p.has phash then p.updateParent entry.tx.hash phash true else p) (pool.insertTx entry)
  linked.updateAncestorsOf true entry.tx.hash setAncestors

/-- The kind and the hash of the address that a script pays. -/
def addressOf (script : CScript) : Option (ℕ × Bytes) :=
  if isPayToScriptHash script then some (2, (script.drop 2).take 20)
  else if isPayToPublicKeyHash script then some (1, (script.drop 3).take 20)
  else none

variable (coins : COutPoint → CTxOut) (entry : CTxMemPoolEntry)

def addressInput (x : CTxIn × ℕ) : Option (CMempoolAddressDeltaKey × CMempoolAddressDelta) :=
  let prevout := coins x.1.prevout
  (addressOf prevout.scriptPubKey).map fun address =>
    (⟨address.1, address.2, entry.tx.hash, x.2, 1⟩,
      ⟨entry.nTime, prevout.nValue * -1, x.1.prevout.hash, x.1.prevout.n⟩)

def addressOutput (x : CTxOut × ℕ) : Option (CMempoolAddressDeltaKey × CMempoolAddressDelta) :=
  (addressOf x.1.scriptPubKey).map fun address =>
    (⟨address.1, address.2, entry.tx.hash, x.2, 0⟩, { time := entry.nTime, amount := x.1.nValue })

/-- What `addAddressIndex` inserts, in its order. -/
def addressEntries : List (CMempoolAddressDeltaKey × CMempoolAddressDelta) :=
  entry.tx.vin.zipIdx.filterMap (addressInput coins entry) ++
    entry.tx.vout.zipIdx.filterMap (addressOutput entry)

def addAddressIndex (pool : CTxMemPool) (entry : CTxMemPoolEntry) : CTxMemPool :=
  { pool with mapAddress := pool.mapAddress.add entry.tx.hash (addressEntries coins entry) }

/-- What `addSpentIndex` inserts; an unknown address is the null `uint160`. -/
def spentEntries : List (CSpentIndexKey × CSpentIndexValue) :=
  entry.tx.vin.zipIdx.map fun x =>
    let prevout := coins x.1.prevout
    let address := (addressOf prevout.scriptPubKey).getD (0, List.replicate 20 0)
    (⟨x.1.prevout.hash, x.1.prevout.n⟩,
      ⟨entry.tx.hash, x.2, -1, prevout.nValue, address.1, address.2⟩)

def addSpentIndex (pool : CTxMemPool) (entry : CTxMemPoolEntry) : CTxMemPool :=
  { pool with mapSpent := pool.mapSpent.add entry.tx.hash (spentEntries coins entry) }

/-- How `AcceptToMemoryPoolWorker` stores a transaction, with both indexes on. -/
def store (pool : CTxMemPool) (entry : CTxMemPoolEntry) (setAncestors : List UInt256) :
    CTxMemPool :=
  ((pool.addUnchecked entry setAncestors).addAddressIndex coins entry).addSpentIndex coins entry

def clear (pool : CTxMemPool) : CTxMemPool :=
  { pool with mapLinks := ∅, mapTx := ∅, mapNextTx := ∅, cachedInnerUsage := 0 }

variable {coins} {pool pool' : CTxMemPool}

theorem map_filterMap_sublist {α β : Type} (f : α × ℕ → Option β) (index : β → ℕ)
    (hf : ∀ x b, f x = some b → index b = x.2) (l : List (α × ℕ)) :
    ((l.filterMap f).map index).Sublist (l.map Prod.snd) := by
  induction l with
  | nil => exact .refl _
  | cons x l ih =>
    rw [filterMap_cons]
    cases hx : f x with
    | none => exact ih.cons _
    | some b =>
      rw [map_cons, hf x b hx]
      exact ih.cons_cons _

theorem nodup_filterMap_zipIdx {α : Type}
    {f : α × ℕ → Option (CMempoolAddressDeltaKey × CMempoolAddressDelta)}
    (hf : ∀ x b, f x = some b → b.1.index = x.2) (l : List α) :
    ((l.zipIdx.filterMap f).map Prod.fst).Nodup := by
  have hsub := map_filterMap_sublist f (fun b => b.1.index) hf l.zipIdx
  rw [zipIdx_map_snd] at hsub
  refine List.Nodup.of_map CMempoolAddressDeltaKey.index ?_
  rw [map_map]
  exact hsub.nodup nodup_range'

variable {entry : CTxMemPoolEntry} {b : CMempoolAddressDeltaKey × CMempoolAddressDelta}

theorem addressInput_key {x : CTxIn × ℕ} (hb : addressInput coins entry x = some b) :
    b.1.index = x.2 ∧ b.1.spending = 1 ∧ b.1.txhash = entry.tx.hash := by
  obtain ⟨address, -, rfl⟩ := map_eq_some_iff.mp hb
  exact ⟨rfl, rfl, rfl⟩

theorem addressOutput_key {x : CTxOut × ℕ} (hb : addressOutput entry x = some b) :
    b.1.index = x.2 ∧ b.1.spending = 0 ∧ b.1.txhash = entry.tx.hash := by
  obtain ⟨address, -, rfl⟩ := map_eq_some_iff.mp hb
  exact ⟨rfl, rfl, rfl⟩

theorem addressEntries_keys_nodup : ((addressEntries coins entry).map Prod.fst).Nodup := by
  rw [addressEntries, map_append, nodup_append]
  refine ⟨nodup_filterMap_zipIdx (fun x b hb => (addressInput_key hb).1) _,
    nodup_filterMap_zipIdx (fun x b hb => (addressOutput_key hb).1) _, ?_⟩
  intro k hk k' hk' heq
  obtain ⟨b, hb, rfl⟩ := mem_map.mp hk
  obtain ⟨b', hb', rfl⟩ := mem_map.mp hk'
  obtain ⟨x, -, hx⟩ := mem_filterMap.mp hb
  obtain ⟨x', -, hx'⟩ := mem_filterMap.mp hb'
  have hone := (addressInput_key hx).2.1
  rw [heq, (addressOutput_key hx').2.1] at hone
  exact Nat.zero_ne_one hone

theorem txhash_of_mem_addressEntries {k : CMempoolAddressDeltaKey}
    (hk : k ∈ (addressEntries coins entry).map Prod.fst) : k.txhash = entry.tx.hash := by
  obtain ⟨b, hb, rfl⟩ := mem_map.mp hk
  rcases mem_append.mp hb with hb | hb
  · obtain ⟨x, -, hx⟩ := mem_filterMap.mp hb
    exact (addressInput_key hx).2.2
  · obtain ⟨x, -, hx⟩ := mem_filterMap.mp hb
    exact (addressOutput_key hx).2.2

def spentKey (o : COutPoint) : CSpentIndexKey := ⟨o.hash, o.n⟩

theorem spentKey_injective : Function.Injective spentKey := by
  rintro ⟨h, n⟩ ⟨h', n'⟩ heq
  obtain ⟨rfl, rfl⟩ := CSpentIndexKey.mk.inj heq
  rfl

theorem spentEntries_keys : (spentEntries coins entry).map Prod.fst =
    (entry.tx.vin.map CTxIn.prevout).map spentKey := by
  rw [spentEntries, map_map, map_map]
  nth_rewrite 2 [← zipIdx_map_fst 0 entry.tx.vin]
  rw [map_map]
  rfl

/-- The pool holds transactions under their hashes, and no outpoint is spent twice. -/
structure DistinctInputs (pool : CTxMemPool) : Prop where
  hash : ∀ hash e, pool.coreAt hash = some e → e.tx.hash = hash
  apart : ∀ a b e e', pool.coreAt a = some e → pool.coreAt b = some e' →
    ∀ o ∈ e.tx.vin.map CTxIn.prevout, o ∈ e'.tx.vin.map CTxIn.prevout → a = b

/-- Both indexes are exactly what the transactions in the pool contribute. -/
structure IndexesExact (coins : COutPoint → CTxOut) (pool : CTxMemPool) : Prop where
  address : pool.mapAddress.Holds fun hash => (pool.coreAt hash).map (addressEntries coins)
  spent : pool.mapSpent.Holds fun hash => (pool.coreAt hash).map (spentEntries coins)

/-- What `AcceptToMemoryPoolWorker` has checked when it stores a transaction. -/
structure CanStore (pool : CTxMemPool) (entry : CTxMemPoolEntry) : Prop where
  fresh : pool.coreAt entry.tx.hash = none
  nodup : (entry.tx.vin.map CTxIn.prevout).Nodup
  unspent : ∀ hash e, pool.coreAt hash = some e →
    ∀ o ∈ entry.tx.vin.map CTxIn.prevout, o ∉ e.tx.vin.map CTxIn.prevout

section
variable (hpool : pool.DistinctInputs)
include hpool

theorem DistinctInputs.address_apart :
    InverseIndex.Apart fun hash => (pool.coreAt hash).map (addressEntries coins) := by
  intro a b new new' ha hb k hk hk'
  obtain ⟨e, he, rfl⟩ := map_eq_some_iff.mp ha
  obtain ⟨e', he', rfl⟩ := map_eq_some_iff.mp hb
  rw [← hpool.hash a e he, ← hpool.hash b e' he', ← txhash_of_mem_addressEntries hk,
    txhash_of_mem_addressEntries hk']

theorem DistinctInputs.spent_apart :
    InverseIndex.Apart fun hash => (pool.coreAt hash).map (spentEntries coins) := by
  intro a b new new' ha hb k hk hk'
  obtain ⟨e, he, rfl⟩ := map_eq_some_iff.mp ha
  obtain ⟨e', he', rfl⟩ := map_eq_some_iff.mp hb
  rw [spentEntries_keys] at hk hk'
  obtain ⟨o, ho, rfl⟩ := mem_map.mp hk
  obtain ⟨o', ho', heq⟩ := mem_map.mp hk'
  exact hpool.apart a b e e' he he' o ho (spentKey_injective heq ▸ ho')

/-! ### Removals -/

theorem DistinctInputs.of_sub
    (hsub : ∀ hash e, pool'.coreAt hash = some e → pool.coreAt hash = some e) :
    pool'.DistinctInputs :=
  ⟨fun hash e he => hpool.hash hash e (hsub hash e he), fun a b e e' he he' =>
    hpool.apart a b e e' (hsub a e he) (hsub b e' he')⟩

omit hpool in
theorem IndexesExact.frame (hframe : pool.Frame pool') (h : IndexesExact coins pool) :
    IndexesExact coins pool' := by
  refine ⟨?_, ?_⟩
  · simpa only [hframe.mapAddress, hframe.core] using h.address
  · simpa only [hframe.mapSpent, hframe.core] using h.spent

theorem IndexesExact.removeUnchecked (h : IndexesExact coins pool)
    {it : UInt256} : IndexesExact coins (pool.removeUnchecked it) := by
  have hnext : ∀ {β : Type} (f : CTxMemPoolEntry → β) a,
      ((pool.removeUnchecked it).coreAt a).map f =
        if a = it then none else (pool.coreAt a).map f := by
    intro β f a
    rw [coreAt_removeUnchecked]
    split_ifs <;> rfl
  cases hlook : pool.mapTx.lookup it with
  | none =>
    have hsame : pool.removeUnchecked it = pool := by rw [CTxMemPool.removeUnchecked, hlook]
    rwa [hsame]
  | some e =>
    have haddress : (pool.removeUnchecked it).mapAddress = pool.mapAddress.remove it := by
      rw [CTxMemPool.removeUnchecked, hlook]
    have hspent : (pool.removeUnchecked it).mapSpent = pool.mapSpent.remove it := by
      rw [CTxMemPool.removeUnchecked, hlook]
    refine ⟨?_, ?_⟩
    · rw [haddress]
      exact h.address.remove hpool.address_apart (hnext _)
    · rw [hspent]
      exact h.spent.remove hpool.spent_apart (hnext _)

theorem DistinctInputs.removeUnchecked {it : UInt256} : (pool.removeUnchecked it).DistinctInputs :=
  hpool.of_sub fun hash e he => by
    rw [coreAt_removeUnchecked] at he
    split_ifs at he
    exact he

omit hpool in
theorem indexesExact_removeStaged (h : pool.DistinctInputs ∧ IndexesExact coins pool)
    {stage : List UInt256} :
    (pool.removeStaged stage).DistinctInputs ∧ IndexesExact coins (pool.removeStaged stage) := by
  have hframe := updateForRemoveFromMempool_frame pool stage
  have hstart : (pool.updateForRemoveFromMempool stage).DistinctInputs :=
    h.1.of_sub fun hash e he => (hframe.core hash).symm.trans he
  exact foldlRecOn (motive := fun p : CTxMemPool => p.DistinctInputs ∧ IndexesExact coins p)
    stage CTxMemPool.removeUnchecked ⟨hstart, h.2.frame hframe⟩
    fun p hp it _ => ⟨hp.1.removeUnchecked, hp.2.removeUnchecked hp.1⟩

omit hpool in
/-- A property that removals and cleared priorities keep survives a block. -/
theorem removeForBlock_induction {P : CTxMemPool → Prop}
    (hstaged : ∀ p stage, P p → P (p.removeStaged stage))
    (hclear : ∀ p hash, P p → P (p.clearPrioritisation hash)) {vtx : List CTransaction}
    (hrun : pool.removeForBlock vtx = some pool') (hpool : P pool) : P pool' := by
  have hremove : ∀ {p p' : CTxMemPool} {tx : CTransaction} {r : Bool},
      p.remove tx r = some p' → P p → P p' := by
    intro p p' tx r hp hP
    cases r with
    | false =>
      exact some.inj hp ▸ hstaged p _ hP
    | true =>
      simp only [remove, if_true, bind, bind_eq_some_iff, pure, some.injEq] at hp
      obtain ⟨stage, -, rfl⟩ := hp
      exact hstaged p stage hP
  have hconflicts : ∀ (vin : List CTxIn) {p p' : CTxMemPool} {tx : CTransaction},
      vin.foldlM (fun p txin => CTxMemPool.removeConflict p tx txin) p = some p' → P p → P p' := by
    intro vin
    induction vin with
    | nil =>
      intro p p' tx hp hP
      exact some.inj hp ▸ hP
    | cons txin vin ih =>
      intro p p' tx hp hP
      simp only [foldlM_cons, bind, bind_eq_some_iff] at hp
      obtain ⟨q, hq, hp⟩ := hp
      refine ih hp ?_
      unfold removeConflict at hq
      split at hq
      · exact some.inj hq ▸ hP
      · split_ifs at hq
        · exact some.inj hq ▸ hP
        · obtain ⟨r, hr, rfl⟩ := map_eq_some_iff.mp hq
          exact hclear _ _ (hremove hr hP)
  induction vtx generalizing pool with
  | nil => exact some.inj hrun ▸ hpool
  | cons tx vtx ih =>
    simp only [removeForBlock, foldlM_cons, bind, bind_eq_some_iff] at hrun
    obtain ⟨q, hq, hrun⟩ := hrun
    refine ih hrun ?_
    simp only [removeForTx, bind, bind_eq_some_iff, pure, some.injEq] at hq
    obtain ⟨p₁, h₁, p₂, h₂, rfl⟩ := hq
    exact hclear _ _ (hconflicts tx.vin h₂ (hremove h₁ hpool))

omit hpool in
theorem addUnchecked_frame (pool : CTxMemPool) (entry : CTxMemPoolEntry)
    (setAncestors : List UInt256) :
    (pool.insertTx entry).Frame (pool.addUnchecked entry setAncestors) := by
  refine .trans (.foldl _ (fun p phash => ?_) _ _) updateAncestorsOf_frame
  split_ifs
  · exact updateLink_frame
  · exact .rfl'

omit hpool in
/-- A new entry enters under its hash, with the fee delta that was recorded for it. -/
theorem coreAt_addUnchecked (entry : CTxMemPoolEntry) (setAncestors : List UInt256)
    (hfresh : pool.coreAt entry.tx.hash = none) :
    ∃ delta, ∀ hash, (pool.addUnchecked entry setAncestors).coreAt hash =
      if hash = entry.tx.hash then some (forget { entry with feeDelta := delta })
      else pool.coreAt hash := by
  have hnone : pool.mapTx.lookup entry.tx.hash = none := map_eq_none_iff.mp hfresh
  have hinsert : ∀ newEntry hash, ((insertNew pool.mapTx entry.tx.hash newEntry).lookup hash).map
      forget = if hash = entry.tx.hash then some (forget newEntry) else pool.coreAt hash := by
    intro newEntry hash
    rw [lookup_insertNew, hnone]
    split_ifs <;> rfl
  simp only [(addUnchecked_frame pool entry setAncestors).core]
  cases hdelta : pool.mapDeltas.lookup entry.tx.hash with
  | none =>
    refine ⟨entry.feeDelta, fun hash => ?_⟩
    simp only [insertTx, hdelta]
    exact hinsert entry hash
  | some delta =>
    simp only [insertTx, hdelta]
    by_cases hzero : delta ≠ 0
    · exact ⟨delta, fun hash => by rw [if_pos hzero]; exact hinsert _ hash⟩
    · exact ⟨entry.feeDelta, fun hash => by rw [if_neg hzero]; exact hinsert _ hash⟩

theorem DistinctInputs.store (hcan : pool.CanStore entry) (setAncestors : List UInt256) :
    (pool.store coins entry setAncestors).DistinctInputs := by
  obtain ⟨delta, hcore⟩ := coreAt_addUnchecked entry setAncestors hcan.fresh
  have hcore' : ∀ hash, (pool.store coins entry setAncestors).coreAt hash = _ := hcore
  refine ⟨fun hash e he => ?_, fun a b e e' he he' o ho ho' => ?_⟩
  · rw [hcore'] at he
    split_ifs at he with heq
    · rw [heq, ← some.inj he]
      rfl
    · exact hpool.hash hash e he
  · rw [hcore'] at he he'
    split_ifs at he he' with ha hb hb
    · rw [ha, hb]
    · rw [← some.inj he] at ho
      exact absurd ho' (hcan.unspent b e' he' o ho)
    · rw [← some.inj he'] at ho'
      exact absurd ho (hcan.unspent a e he o ho')
    · exact hpool.apart a b e e' he he' o ho ho'

theorem IndexesExact.store (h : IndexesExact coins pool) (hcan : pool.CanStore entry)
    (setAncestors : List UInt256) : IndexesExact coins (pool.store coins entry setAncestors) := by
  set added := pool.addUnchecked entry setAncestors
  obtain ⟨delta, hcore⟩ := coreAt_addUnchecked entry setAncestors hcan.fresh
  have hframe := addUnchecked_frame pool entry setAncestors
  have hstored : (pool.store coins entry setAncestors).DistinctInputs :=
    hpool.store hcan setAncestors
  have hfresh : ∀ {β : Type} (f : CTxMemPoolEntry → β),
      (pool.coreAt entry.tx.hash).map f = none := fun f => by rw [hcan.fresh]; rfl
  have hnext : ∀ {β : Type} (f : CTxMemPoolEntry → β) a,
      ((pool.store coins entry setAncestors).coreAt a).map f = if a = entry.tx.hash then
        some (f (forget { entry with feeDelta := delta })) else (pool.coreAt a).map f := by
    intro β f a
    change Option.map _ (added.coreAt a) = _
    rw [hcore]
    split_ifs <;> rfl
  refine ⟨?_, ?_⟩
  · change (added.mapAddress.add _ _).Holds _
    rw [hframe.mapAddress]
    exact h.address.add (hfresh _) addressEntries_keys_nodup hstored.address_apart (hnext _)
  · change (added.mapSpent.add _ _).Holds _
    rw [hframe.mapSpent]
    refine h.spent.add (hfresh _) ?_ hstored.spent_apart (hnext _)
    rw [spentEntries_keys]
    exact hcan.nodup.map spentKey_injective

end

def isEmpty (pool : CTxMemPool) : Prop := ∀ hash, pool.coreAt hash = none

/-- The pools of all runs in which only an empty pool is cleared. -/
inductive Reachable (coins : COutPoint → CTxOut) : CTxMemPool → Prop
  | init (memUsage : MemUsage) : Reachable coins { memUsage := memUsage }
  | store {pool : CTxMemPool} {entry : CTxMemPoolEntry} (setAncestors : List UInt256) :
      Reachable coins pool → pool.CanStore entry →
        Reachable coins (pool.store coins entry setAncestors)
  | removeStaged {pool : CTxMemPool} (stage : List UInt256) :
      Reachable coins pool → Reachable coins (pool.removeStaged stage)
  | removeForBlock {pool pool' : CTxMemPool} {vtx : List CTransaction} :
      Reachable coins pool → pool.removeForBlock vtx = some pool' → Reachable coins pool'
  | clear {pool : CTxMemPool} : Reachable coins pool → pool.isEmpty → Reachable coins pool.clear

theorem IndexesExact.clear_iff (h : IndexesExact coins pool) :
    IndexesExact coins pool.clear ↔ pool.isEmpty := by
  have hclear : ∀ hash, pool.clear.coreAt hash = none := fun _ => rfl
  constructor
  · intro hexact hash
    have hold := h.spent.inserted hash
    have hnew := hexact.spent.inserted hash
    change pool.mapSpent.inserted.lookup hash = none at hnew
    rw [hnew] at hold
    simpa using hold.symm
  · intro hempty
    have hsame : ∀ hash, pool.clear.coreAt hash = pool.coreAt hash :=
      fun hash => (hempty hash).symm
    refine ⟨?_, ?_⟩ <;> simp only [hsame]
    · exact h.address
    · exact h.spent

theorem Reachable.invariant (hpool : Reachable coins pool) :
    pool.DistinctInputs ∧ IndexesExact coins pool := by
  induction hpool with
  | init memUsage =>
    have hnone : ∀ hash, ({ memUsage := memUsage } : CTxMemPool).coreAt hash = none :=
      fun _ => rfl
    exact ⟨⟨by simp [hnone], by simp [hnone]⟩, InverseIndex.holds_empty, InverseIndex.holds_empty⟩
  | store setAncestors _ hcan ih =>
    exact ⟨ih.1.store hcan setAncestors, ih.2.store ih.1 hcan setAncestors⟩
  | removeStaged stage _ ih => exact indexesExact_removeStaged ih
  | removeForBlock _ hrun ih =>
    refine removeForBlock_induction (P := fun p => p.DistinctInputs ∧ IndexesExact coins p)
      (fun p stage hp => indexesExact_removeStaged hp) ?_ hrun ih
    exact fun p hash hp => ⟨⟨hp.1.hash, hp.1.apart⟩, ⟨hp.2.address, hp.2.spent⟩⟩
  | clear _ hempty ih =>
    exact ⟨ih.1.of_sub fun hash e he => by simp [CTxMemPool.clear, coreAt] at he,
      ih.2.clear_iff.mpr hempty⟩

/-- The indexes are exact in every run that clears only empty pools, and clearing a pool that
holds a transaction breaks them. -/
theorem indexes_exact_unless_cleared (hpool : Reachable coins pool) :
    IndexesExact coins pool ∧ (IndexesExact coins pool.clear ↔ pool.isEmpty) :=
  ⟨hpool.invariant.2, hpool.invariant.2.clear_iff⟩

/-- Every coin is paid to a key hash. -/
def anyCoin (_ : COutPoint) : CTxOut where
  nValue := 5
  scriptPubKey := [0x76, 0xa9, 20] ++ replicate 20 1 ++ [0x88, 0xac]
  imgbase64 := []

/-- The pool after its first transaction. -/
def storedPool : CTxMemPool := store anyCoin {} CTxMemPoolEntry.plainEntry []

theorem canStore_of_entries {pool : CTxMemPool} {entry : CTxMemPoolEntry}
    (hfresh : pool.coreAt entry.tx.hash = none) (hnodup : (entry.tx.vin.map CTxIn.prevout).Nodup)
    (hunspent : ∀ x ∈ pool.mapTx.entries, ∀ o ∈ entry.tx.vin.map CTxIn.prevout,
      o ∉ x.2.tx.vin.map CTxIn.prevout) : pool.CanStore entry := by
  refine ⟨hfresh, hnodup, fun hash e he o ho ho' => ?_⟩
  obtain ⟨e', he', rfl⟩ := Option.map_eq_some_iff.mp he
  exact hunspent ⟨hash, e'⟩ (AList.mem_lookup_iff.mp he') o ho ho'

theorem storedPool_reachable : Reachable anyCoin storedPool :=
  .store [] (.init {}) (canStore_of_entries rfl (by decide) (by simp))

/-- The second transaction comes and the first one goes. -/
def secondPool : CTxMemPool := (storedPool.store anyCoin (spenderOf 8 250) []).removeStaged [1]

theorem indexes_exact_secondPool : IndexesExact anyCoin secondPool ∧
    (secondPool.mapAddress.entries.keys.map (·.txhash), secondPool.mapSpent.entries.keys) =
      ([2], [⟨8, 0⟩]) := by
  refine ⟨(indexes_exact_unless_cleared (.removeStaged [1] (.store [] storedPool_reachable
    (canStore_of_entries ?_ ?_ ?_)))).1, ?_⟩
  all_goals decide +kernel

/-- `clear` does not empty the spent index. -/
theorem clear_keeps_spent_index : (storedPool.clear.mapSpent.entries.lookup ⟨7, 0⟩).isSome ∧
      storedPool.clear.isEmpty ∧ ¬IndexesExact anyCoin storedPool.clear := by
  refine ⟨by decide +kernel, fun _ => rfl, fun hexact => ?_⟩
  have hempty := storedPool_reachable.invariant.2.clear_iff.mp hexact 1
  have hsome : (storedPool.coreAt 1).isSome := by decide +kernel
  rw [hempty] at hsome
  exact Bool.false_ne_true hsome

end CTxMemPool
end ImageCoin
