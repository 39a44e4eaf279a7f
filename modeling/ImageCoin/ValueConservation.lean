import ImageCoin.AcceptedBlock

/-!
# Value conservation

The total value of the unspent coins before and after an accepted block.
-/

namespace ImageCoin

open Function List CTxUndo
variable {u u' : Utxo}

theorem finsum_update_add {ι M : Type} [DecidableEq ι] [AddCommGroup M] {f : ι → M}
    (hf : f.support.Finite) {i : ι} {x : M} : ∑ᶠ j, update f i x j + f i = ∑ᶠ j, f j + x := by
  have hrest : (update f i 0).support.Finite := by
    apply hf.subset
    intro j hj
    by_cases heq : j = i
    · subst heq
      simp at hj
    · simpa [heq] using hj
  have hsplit : ∀ y : M, ∑ᶠ j, update f i y j = ∑ᶠ j, update f i 0 j + y := by
    intro y
    have hsingle : (Pi.single i y : ι → M).support.Finite :=
      (Set.finite_singleton i).subset Pi.support_single_subset
    have hsum : ∑ᶠ j, (Pi.single i y : ι → M) j = y := by
      rw [finsum_eq_single _ i fun j hj => Pi.single_eq_of_ne hj _, Pi.single_eq_same]
    calc ∑ᶠ j, update f i y j = ∑ᶠ j, (update f i 0 j + (Pi.single i y : ι → M) j) := by
          apply finsum_congr
          intro j
          by_cases heq : j = i
          · subst heq
            simp
          · simp [heq]
      _ = ∑ᶠ j, update f i 0 j + ∑ᶠ j, (Pi.single i y : ι → M) j :=
          finsum_add_distrib hrest hsingle
      _ = ∑ᶠ j, update f i 0 j + y := by rw [hsum]
  have hself := hsplit (f i)
  rw [update_eq_self] at hself
  rw [hsplit x, hself]
  abel

def Utxo.IsFinite (u : Utxo) : Prop := { o | u o ≠ none }.Finite

noncomputable def totalValue (u : Utxo) : ℤ := ∑ᶠ o, coinValue (u o)

section
variable {u : Utxo}

theorem Utxo.IsFinite.support (hfinite : u.IsFinite) :
    (support fun o => coinValue (u o)).Finite := by
  apply hfinite.subset
  intro o ho hnone
  apply ho
  simp [hnone, coinValue]

theorem Utxo.IsFinite.update (hfinite : u.IsFinite) (o : COutPoint)
    (x : Option Coin) : Utxo.IsFinite (update u o x) := by
  apply (Set.Finite.insert o hfinite).subset
  intro o' ho'
  by_cases heq : o' = o
  · exact Or.inl heq
  · right
    simpa [heq] using ho'

theorem totalValue_update (hfinite : u.IsFinite) (o : COutPoint) (x : Option Coin) :
    totalValue (update u o x) + coinValue (u o) = totalValue u + coinValue x := by
  have hvalue : (fun o' => coinValue (update u o x o')) =
      update (fun o' => coinValue (u o')) o (coinValue x) := by
    funext o'
    by_cases heq : o' = o
    · subst heq
      simp
    · simp [heq]
  unfold totalValue
  rw [hvalue]
  exact finsum_update_add hfinite.support

theorem totalValue_nonneg (hcoins : AllCoins InRange u) : 0 ≤ totalValue u := by
  apply finsum_nonneg
  intro o
  cases hcoin : u o with
  | none => exact le_rfl
  | some coin => exact (moneyRange_iff.mp (hcoins o coin hcoin)).1

end

def skippedOut (vout : List CTxOut) : ℤ :=
  totalOut (vout.filter fun txout => isUnspendable txout.scriptPubKey)

def fee (tx : CTransaction) (txundo : CTxUndo) : ℤ :=
  txundo.values.sum - totalOut tx.vout

theorem totalOut_cons {out : CTxOut} {rest : List CTxOut} :
    totalOut (out :: rest) = out.nValue.toInt + totalOut rest := by
  simp [totalOut]

theorem Spends.totalValue_eq {vin : List CTxIn}
    {coins : List Coin} (hspends : Spends u vin coins u') (hfinite : u.IsFinite) :
    u'.IsFinite ∧ totalValue u' + (values ⟨coins⟩).sum = totalValue u := by
  induction hspends with
  | nil u => exact ⟨hfinite, by simp [values]⟩
  | @cons u u' txin coin rest coins hcoin hrest ih =>
    obtain ⟨hfinite', hsum⟩ := ih (hfinite.update txin.prevout none)
    have hstep := totalValue_update hfinite txin.prevout none
    rw [hcoin] at hstep
    simp only [coinValue] at hstep
    refine ⟨hfinite', ?_⟩
    simp only [values, map_cons, sum_cons] at hsum ⊢
    omega

variable {nHeight : ℕ} {P : Coin → Prop}

theorem Creates.totalValue_eq {hash : UInt256} {fCoinbase : Bool} {i : ℕ} {outs : List CTxOut}
    (hcreates : Creates P hash nHeight fCoinbase u i outs u') (hfinite : u.IsFinite) :
    u'.IsFinite ∧ totalValue u' + skippedOut outs = totalValue u + totalOut outs := by
  induction hcreates with
  | nil u i => exact ⟨hfinite, rfl⟩
  | @cons u u' i out rest hnull hcoin hnew hrest ih =>
    cases hscript : isUnspendable out.scriptPubKey with
    | true =>
      have hadd : u.add ⟨hash, UInt32.ofNat i⟩ (.ofOut out nHeight fCoinbase) = u := if_pos hscript
      rw [hadd] at ih
      obtain ⟨hfinite', hsum⟩ := ih hfinite
      refine ⟨hfinite', ?_⟩
      simp only [skippedOut, filter_cons, hscript, if_true, totalOut_cons] at hsum ⊢
      omega
    | false =>
      have hadd : u.add ⟨hash, UInt32.ofNat i⟩ (.ofOut out nHeight fCoinbase) =
            update u ⟨hash, UInt32.ofNat i⟩ (some (.ofOut out nHeight fCoinbase)) :=
        if_neg (by simp [Coin.ofOut, hscript])
      rw [hadd] at ih
      obtain ⟨hfinite', hsum⟩ := ih (hfinite.update _ _)
      have hstep := totalValue_update hfinite ⟨hash, UInt32.ofNat i⟩
        (some (.ofOut out nHeight fCoinbase))
      rw [hnew hscript] at hstep
      simp only [coinValue, Coin.ofOut] at hstep hsum
      refine ⟨hfinite', ?_⟩
      simp only [skippedOut, filter_cons, hscript,
        Bool.false_eq_true, if_false, totalOut_cons] at hsum ⊢
      omega

variable {tx : CTransaction} {txundo : CTxUndo}

theorem AppliesTx.totalValue_eq
    (happlies : AppliesTx P nHeight u tx txundo u') (hfinite : u.IsFinite) :
    u'.IsFinite ∧ totalValue u' + skippedOut tx.vout = totalValue u - fee tx txundo := by
  obtain ⟨mid, hspent, hcreates⟩ := happlies
  have hspend : mid.IsFinite ∧ totalValue mid + txundo.values.sum = totalValue u := by
    split_ifs at hspent
    · obtain ⟨hnone, rfl⟩ := hspent
      exact ⟨hfinite, by simp [values, hnone]⟩
    · exact hspent.totalValue_eq hfinite
  obtain ⟨hfinite', hsum⟩ := hcreates.totalValue_eq hspend.1
  refine ⟨hfinite', ?_⟩
  unfold fee
  omega

def feesOf (txs : List CTransaction) (txundos : List CTxUndo) : List ℤ :=
  zipWith fee txs txundos

variable {txundos : List CTxUndo}

theorem Applies.totalValue_eq {txs : List CTransaction}
    (happlies : Applies P nHeight u txs txundos u') (hfinite : u.IsFinite) :
    totalValue u' + (txs.map fun tx => skippedOut tx.vout).sum =
      totalValue u - (feesOf txs txundos).sum := by
  induction happlies with
  | nil u => simp [feesOf]
  | @cons u v u' tx txundo rest txundos htx hrest ih =>
    obtain ⟨hfinite', hfirst⟩ := htx.totalValue_eq hfinite
    have hlater := ih hfinite'
    simp only [feesOf, zipWith_cons_cons, map_cons, sum_cons] at hlater ⊢
    omega

/-- Added one after another, the values never leave the range of `CAmount`. -/
def SumFits (values : List ℤ) : Prop :=
  ∀ n, 0 ≤ (values.take n).sum ∧ (values.take n).sum < 2 ^ 63

theorem SumFits.of_nonneg {values : List ℤ} (hnonneg : ∀ x ∈ values, 0 ≤ x)
    (htotal : values.sum < 2 ^ 63) : SumFits values := by
  intro n
  have hsplit := sum_take_add_sum_drop values n
  have hlow : 0 ≤ (values.take n).sum :=
    sum_nonneg fun x hx => hnonneg x (mem_of_mem_take hx)
  have hrest : 0 ≤ (values.drop n).sum :=
    sum_nonneg fun x hx => hnonneg x (mem_of_mem_drop hx)
  exact ⟨hlow, by omega⟩

theorem skippedOut_nonneg (hwf : tx.WellFormed) : 0 ≤ skippedOut tx.vout := by
  apply sum_nonneg
  intro x hx
  obtain ⟨txout, hmem, rfl⟩ := mem_map.mp hx
  exact (moneyRange_iff.mp (hwf.values txout (mem_of_mem_filter hmem))).1

theorem CTransaction.WellFormed.sumFits (hwf : tx.WellFormed) :
    SumFits (tx.vout.map fun txout => txout.nValue.toInt) := by
  apply SumFits.of_nonneg
  · intro x hx
    obtain ⟨txout, hmem, rfl⟩ := mem_map.mp hx
    exact (moneyRange_iff.mp (hwf.values txout hmem)).1
  · have htotal := hwf.total
    exact lt_of_le_of_lt htotal (by decide)

variable {rest : List CTransaction}

theorem fees_of_pays (hpays : List.Forall₂ Pays rest txundos)
    (hothers : ∀ tx ∈ rest, tx.isCoinBase = false) :
    (∀ f ∈ feesOf rest txundos, 0 ≤ f) ∧
      ∀ txundo ∈ txundos, txundo.values.sum ≤ maxMoney.toInt := by
  induction hpays with
  | nil => simp [feesOf]
  | @cons tx txundo rest txundos hpay hrest ih =>
    obtain ⟨hcovers, hle⟩ := hpay (hothers tx mem_cons_self)
    obtain ⟨hfees, hinputs⟩ :=
      ih fun tx' hmem => hothers tx' (mem_cons_of_mem _ hmem)
    constructor
    · intro f hf
      rcases mem_cons.mp hf with rfl | hf
      · unfold fee
        omega
      · exact hfees f hf
    · intro txundo' hmem
      rcases mem_cons.mp hmem with rfl | hmem
      · exact hle
      · exact hinputs txundo' hmem

/-- The coins `u` become `u'` in a block: each input takes a coin that is there
and removes it, and what leaves or enters the coins is accounted for. -/
structure Conserves (nHeight : ℕ) (u : Utxo) (coinbase : CTransaction)
    (rest : List CTransaction) (txundos : List CTxUndo) (u' : Utxo) :
    Prop where
  applies : Applies InRange nHeight u (coinbase :: rest) (⟨[]⟩ :: txundos) u'
  total : totalValue u' + ((coinbase :: rest).map fun tx => skippedOut tx.vout).sum =
    totalValue u + totalOut coinbase.vout - (feesOf rest txundos).sum
  fees_nonneg : ∀ f ∈ feesOf rest txundos, 0 ≤ f
  fees_fit : SumFits (feesOf rest txundos)
  inputs_fit : ∀ txundo ∈ txundos, SumFits txundo.values
  outputs_fit : ∀ tx ∈ coinbase :: rest, SumFits (tx.vout.map fun txout => txout.nValue.toInt)

theorem AppliesTx.vprevout_of_coinbase (happlies : AppliesTx P nHeight u tx txundo u')
    (hcoinbase : tx.isCoinBase) : txundo = ⟨[]⟩ := by
  obtain ⟨mid, hspent, -⟩ := happlies
  rw [if_pos hcoinbase] at hspent
  exact congrArg mk hspent.1

theorem conserves_of_applies {coinbase : CTransaction} (hfinite : u.IsFinite)
    (htotal : totalValue u + maxMoney.toInt < 2 ^ 63) (hrange : AllCoins InRange u)
    (hcoinbase : coinbase.isCoinBase) (hothers : ∀ tx ∈ rest, tx.isCoinBase = false)
    (hwf : ∀ tx ∈ coinbase :: rest, tx.WellFormed)
    (happlies : Applies InRange nHeight u (coinbase :: rest) (txundo :: txundos) u')
    (hpays : List.Forall₂ Pays rest txundos) : Conserves nHeight u coinbase rest txundos u' := by
  obtain rfl : txundo = ⟨[]⟩ := by
    cases happlies with
    | cons htx _ => exact htx.vprevout_of_coinbase hcoinbase
  obtain ⟨hundo, hrange'⟩ := happlies.coins_ok hrange
  obtain ⟨hfees, hinputs⟩ := fees_of_pays hpays hothers
  have hsum : totalValue u' + ((coinbase :: rest).map fun tx => skippedOut tx.vout).sum =
      totalValue u + totalOut coinbase.vout - (feesOf rest txundos).sum := by
    have hall := happlies.totalValue_eq hfinite
    rw [hall]
    simp only [feesOf, zipWith_cons_cons, sum_cons, fee, values, map_nil, sum_nil]
    ring
  have hskipped : 0 ≤ ((coinbase :: rest).map fun tx => skippedOut tx.vout).sum := by
    apply sum_nonneg
    intro x hx
    obtain ⟨tx, hmem, rfl⟩ := mem_map.mp hx
    exact skippedOut_nonneg (hwf tx hmem)
  have hafter := totalValue_nonneg hrange'
  have hpaid := (hwf coinbase mem_cons_self).total
  refine ⟨happlies, hsum, hfees, .of_nonneg hfees (by omega), ?_,
    fun tx hmem => (hwf tx hmem).sumFits⟩
  intro txundo' hmem
  apply SumFits.of_nonneg
  · intro x hx
    obtain ⟨coin, hcoin, rfl⟩ := mem_map.mp hx
    exact (moneyRange_iff.mp (hundo txundo' (mem_cons_of_mem _ hmem) coin hcoin)).1
  · have hle := hinputs txundo' hmem
    exact lt_of_le_of_lt hle (by decide)

/-- A block that is accepted on coins in range conserves their value, unless an
output replaces a coin. -/
theorem connectBlock_conserves_value {β : Type} [CCoinsView β]
    (S : ViewSpec β InRange) (cache : CoherentCache S) (env : ConnectEnv)
    (block : CBlock) (pindex : CBlockIndex) (blockundo : CBlockUndo) (view' : CCoinsViewCache β)
    (hfinite : cache.coins.IsFinite) (htotal : totalValue cache.coins + maxMoney.toInt < 2 ^ 63)
    (hgenesis : block.hash ≠ env.hashGenesisBlock)
    (hfree : enforceBIP30 env pindex ∨ ∀ o ∈ outpointsOf block.vtx, cache.coins o = none)
    (hcount : ∀ tx ∈ block.vtx, tx.vout.length ≤ 2 ^ 32)
    (hrun : connectBlock env block pindex cache.view = .ok blockundo view') :
    ∃ coinbase rest, block.vtx = coinbase :: rest ∧
      Conserves pindex.nHeight cache.coins coinbase rest blockundo.vtxundo
        (cacheCoinsOf S view') := by
  have hcached : Cached S cache.coins (cacheBest S cache.view) cache.view :=
    ⟨cache.coherent, rfl, rfl⟩
  have hresult := triple_connectBlock hgenesis hfree hcount cache.view hcached
  rw [hrun] at hresult
  obtain ⟨hcheck, txundo, u', happlies, hpays, hview'⟩ := hresult
  obtain ⟨⟨coinbase, rest, hvtx, hcoinbase, hothers⟩, hwf⟩ :=
    checkBlock_ok hcheck
  rw [hvtx] at happlies hpays hwf
  rw [hview'.2.1]
  cases hpays with
  | cons hfirst hrest =>
    exact ⟨coinbase, rest, hvtx, conserves_of_applies hfinite htotal
      cache.coherent.ok hcoinbase hothers hwf happlies hrest⟩

/-! ## Blocks on a single coin -/

def rangeSpec : ViewSpec (CCoinsViewDB memoryCodec) InRange :=
  dbSpec CTxOut.not_null_of_inRange fun _ _ => rfl

/-- The database with the coin of 50 at `⟨7, 0⟩`, at the parent of the sample
block. -/
def parentDb : CCoinsViewDB memoryCodec :=
  { singleCoinDb 4 with hashBestChain := some 99 }

variable {o : COutPoint}

theorem lookup_parentDb (ho : o ≠ ⟨7, 0⟩) : parentDb.records.lookup o = none :=
  (AList.lookup_insert_ne ho).trans (AList.lookup_empty o)

theorem inv_parentDb : rangeSpec.Inv parentDb := by
  intro o r hr
  by_cases ho : o = ⟨7, 0⟩
  · subst ho
    have hself : parentDb.records.lookup ⟨7, 0⟩ = some (singleCoin 4) :=
      AList.lookup_insert _
    cases hr
    exact ⟨singleCoin 4, rfl, by decide⟩
  · rw [lookup_parentDb ho] at hr
    cases hr

theorem cacheCoinsOf_none {view : CCoinsViewCache (CCoinsViewDB memoryCodec)}
    (hentry : o ∉ view.cacheCoins.keys) (hrecord : o ∉ view.base.records.keys) :
    cacheCoinsOf rangeSpec view o = none := by
  have hcoin : rangeSpec.coins view.base o = none := by
    change (view.base.records.lookup o).bind some = none
    rw [AList.lookup_eq_none.mpr (by rwa [AList.mem_keys])]
    rfl
  have hcached : view.cacheCoins.lookup o = none :=
    AList.lookup_eq_none.mpr (by rwa [AList.mem_keys])
  simp [cacheCoinsOf, overlay, CCoinsMap.entryAt, hcached, hcoin]

def parentCache : CoherentCache rangeSpec :=
  CoherentCache.new rangeSpec parentDb inv_parentDb

theorem totalValue_single {u : Utxo} (hu : ∀ o, o ≠ ⟨7, 0⟩ → u o = none) :
    u.IsFinite ∧ totalValue u = coinValue (u ⟨7, 0⟩) := by
  constructor
  · apply (Set.finite_singleton (⟨7, 0⟩ : COutPoint)).subset
    intro o ho
    by_contra hne
    exact ho (hu o hne)
  · apply finsum_eq_single
    intro o ho
    rw [hu o ho]
    rfl

theorem coins_parentCache (ho : o ≠ ⟨7, 0⟩) : parentCache.coins o = none := by
  change (parentDb.records.lookup o).bind some = none
  rw [lookup_parentDb ho]
  rfl

theorem totalValue_parentCache :
    parentCache.coins.IsFinite ∧ totalValue parentCache.coins = 50 := by
  obtain ⟨hfinite, htotal⟩ := totalValue_single fun _ => coins_parentCache
  refine ⟨hfinite, htotal.trans ?_⟩
  decide +kernel

def permissiveEnv (hashBIP34Ancestor : Option UInt256) : ConnectEnv where
  params := mainParams
  hashGenesisBlock := 0
  node := unsyncedNode
  adjustedTime := 0
  blockMerkleRoot := fun _ => (0, false)
  filtersLockedOutPoints := false
  getLockedOutPointTxHash := fun _ => none
  blockHeight := fun _ => 4
  hashBIP34Ancestor := hashBIP34Ancestor
  nPrevBits := 0x1e0fffff
  fDIP0001Active := true
  sequenceLocks := fun _ _ => true
  verifyScripts := fun _ _ => .ok ()
  isBlockPayeeValid := fun _ _ _ => true

def minedBlock (vtx : List CTransaction) : CBlock where
  nVersion := 1
  hashMerkleRoot := 0
  nTime := 0
  nBits := 0x1e0fffff
  vtx := vtx
  hash := 100

def spendingBlock : CBlock := minedBlock [coinbasePaying 25, sampleTx 2 ⟨7, 0⟩ 40]

def overwritingBlock : CBlock := minedBlock [{ coinbasePaying 25 with hash := 7 }]

variable (env : ConnectEnv) (block : CBlock)

def connected : EStateM.Result ConnectError (CCoinsViewCache (CCoinsViewDB memoryCodec))
      CBlockUndo :=
  connectBlock env block sampleIndex parentCache.view

def viewAfter : CCoinsViewCache (CCoinsViewDB memoryCodec) :=
  match connected env block with
  | .ok _ view => view
  | .error _ view => view

def accepts (blockundo : CBlockUndo) : Bool :=
  match connected env block with
  | .ok r _ => r = blockundo
  | .error _ _ => false

theorem connectBlock_of_accepts {env : ConnectEnv} {block : CBlock}
    {blockundo : CBlockUndo} (haccepts : accepts env block blockundo) :
    connectBlock env block sampleIndex parentCache.view = .ok blockundo (viewAfter env block) := by
  change connected env block = _
  unfold accepts at haccepts
  unfold viewAfter
  cases hrun : connected env block with
  | ok r view =>
    rw [hrun] at haccepts
    rw [of_decide_eq_true haccepts]
  | error e view =>
    rw [hrun] at haccepts
    cases haccepts

theorem connectBlock_conserves_value_spend : ∃ coinbase rest, spendingBlock.vtx = coinbase :: rest ∧
      Conserves 5 parentCache.coins coinbase rest [⟨[singleCoin 4]⟩] (cacheCoinsOf rangeSpec
          (viewAfter (permissiveEnv none) spendingBlock)) :=
  connectBlock_conserves_value rangeSpec parentCache (permissiveEnv none)
    spendingBlock sampleIndex ⟨[⟨[singleCoin 4]⟩]⟩ _ totalValue_parentCache.1
    (by rw [totalValue_parentCache.2]; decide) (by decide)
    (Or.inl (by decide +kernel)) (by decide +kernel) (connectBlock_of_accepts (by decide +kernel))

/-- On a chain with the known block at `BIP34Height` nobody looks whether an
outpoint is in use: the coin of 50 is gone and nothing accounts for it. -/
theorem overwritingBlock_loses_value :
    ∃ (env : ConnectEnv) (block : CBlock) (coinbase : CTransaction)
      (view' : CCoinsViewCache (CCoinsViewDB memoryCodec)),
      parentCache.coins.IsFinite ∧ block.vtx = [coinbase] ∧
      checkBlock env block = .ok () ∧
      connectBlock env block sampleIndex parentCache.view = .ok ⟨[]⟩ view' ∧
      totalValue (cacheCoinsOf rangeSpec view') + skippedOut coinbase.vout <
        totalValue parentCache.coins + totalOut coinbase.vout := by
  have haccepts : accepts (permissiveEnv (some mainParams.bip34Hash))
      overwritingBlock ⟨[]⟩ := by decide +kernel
  refine ⟨permissiveEnv (some mainParams.bip34Hash), overwritingBlock,
    { coinbasePaying 25 with hash := 7 }, _, totalValue_parentCache.1, rfl,
    by decide +kernel, connectBlock_of_accepts haccepts, ?_⟩
  set view' := viewAfter (permissiveEnv (some mainParams.bip34Hash)) overwritingBlock with hview'
  have hkeys : view'.cacheCoins.keys = [⟨7, 0⟩] := by
    decide +kernel
  have hbase : view'.base.records.keys = [⟨7, 0⟩] := by
    decide +kernel
  have hnone : ∀ o, o ≠ ⟨7, 0⟩ → cacheCoinsOf rangeSpec view' o = none :=
    fun o ho => cacheCoinsOf_none (by simpa [hkeys] using ho) (by simpa [hbase] using ho)
  have hafter : coinValue (cacheCoinsOf rangeSpec view' ⟨7, 0⟩) = 25 := by
    decide +kernel
  rw [(totalValue_single hnone).2, totalValue_parentCache.2]
  decide +kernel

end ImageCoin
