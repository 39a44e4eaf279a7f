import ImageCoin.CoinsRefinement
import ImageCoin.Chainstate

/-!
# Disconnecting a block restores the coins

A block acts on a flat map of coins: each transaction spends coins that are there and creates
outpoints that are not.
-/

namespace ImageCoin

open StateExcept WriteBack Function List Triple UInt32 Coin
variable {P : Coin → Prop} {u u' : Utxo} {hash : UInt256} {u : Utxo} {tx : CTransaction}
  {o : COutPoint} {coin : Coin} {u' : Utxo} {txs : List CTransaction}

/-! ## The action of a block on a flat map -/

/-- The inputs spend, one after the other, the given coins. -/
inductive Spends : Utxo → List CTxIn → List Coin → Utxo → Prop where
  | nil (u : Utxo) : Spends u [] [] u
  | cons {u u' : Utxo} {txin : CTxIn} {coin : Coin} {rest : List CTxIn}
      {coins : List Coin} (hcoin : u txin.prevout = some coin)
      (hrest : Spends (update u txin.prevout none) rest coins u') :
      Spends u (txin :: rest) (coin :: coins) u'

/-- The outputs, from index `i` on, are created where there is no coin. -/
inductive Creates (P : Coin → Prop) (hash : UInt256) (nHeight : ℕ)
    (fCoinbase : Bool) : Utxo → ℕ → List CTxOut → Utxo → Prop where
  | nil (u : Utxo) (i : ℕ) : Creates P hash nHeight fCoinbase u i [] u
  | cons {u u' : Utxo} {i : ℕ} {out : CTxOut} {rest : List CTxOut} (hnull : out.isNull = false)
      (hcoin : isUnspendable out.scriptPubKey = false → P (ofOut out nHeight fCoinbase))
      (hnew : isUnspendable out.scriptPubKey = false → u ⟨hash, ofNat i⟩ = none)
      (hrest : Creates P hash nHeight fCoinbase
        (u.add ⟨hash, ofNat i⟩ (ofOut out nHeight fCoinbase))
        (i + 1) rest u') :
      Creates P hash nHeight fCoinbase u i (out :: rest) u'

/-- A transaction spends its inputs, unless it is a coinbase, and creates its
outputs. -/
def AppliesTx (P : Coin → Prop) (nHeight : ℕ) (u : Utxo) (tx : CTransaction)
    (txundo : CTxUndo) (u' : Utxo) : Prop :=
  ∃ mid, (if tx.isCoinBase then txundo.vprevout = [] ∧ mid = u
      else Spends u tx.vin txundo.vprevout mid) ∧
    Creates P tx.hash nHeight tx.isCoinBase mid 0 tx.vout u'

inductive Applies (P : Coin → Prop) (nHeight : ℕ) :
    Utxo → List CTransaction → List CTxUndo → Utxo → Prop where
  | nil (u : Utxo) : Applies P nHeight u [] [] u
  | cons {u v u' : Utxo} {tx : CTransaction} {txundo : CTxUndo}
      {rest : List CTransaction} {txundos : List CTxUndo}
      (htx : AppliesTx P nHeight u tx txundo v)
      (hrest : Applies P nHeight v rest txundos u') :
      Applies P nHeight u (tx :: rest) (txundo :: txundos) u'

def CoinbaseFirst (block : CBlock) : Prop :=
  ∃ coinbase rest, block.vtx = coinbase :: rest ∧
    coinbase.isCoinBase ∧ ∀ tx ∈ rest, tx.isCoinBase = false

/-- A coin that undo data can restore: its height says that it is complete, and
`AddCoin` does not drop it. -/
def Restorable (coin : Coin) : Prop :=
  coin.nHeight ≠ 0 ∧ isUnspendable coin.out.scriptPubKey = false

instance : DecidablePred Restorable :=
  fun _ => inferInstanceAs (Decidable (_ ∧ _))

variable {outs : List CTxOut} {fCoinbase : Bool}

theorem Creates.remove {nHeight : ℕ} {i : ℕ}
    (hcreates : Creates P hash nHeight fCoinbase u i outs u') {c : Coin} (hc : u o = some c) :
    u' o = some c ∧ Creates P hash nHeight fCoinbase (update u o none) i outs
        (update u' o none) := by
  induction hcreates with
  | nil u i => exact ⟨hc, .nil _ _⟩
  | @cons u u' i out rest hnull hcoin hnew hrest ih =>
    cases hscript : isUnspendable out.scriptPubKey with
    | true =>
      have hadd : ∀ v : Utxo, v.add ⟨hash, ofNat i⟩ (.ofOut out nHeight fCoinbase) = v :=
        fun v => if_pos hscript
      rw [hadd] at ih
      obtain ⟨hkept, hcreates⟩ := ih hc
      refine ⟨hkept, .cons hnull hcoin ?_ ?_⟩
      · exact fun hspendable => absurd hspendable (by simp [hscript])
      · rwa [hadd]
    | false =>
      have hne : (⟨hash, ofNat i⟩ : COutPoint) ≠ o := by
        intro heq
        have hnone := hnew hscript
        rw [heq, hc] at hnone
        exact absurd hnone (by simp)
      have hadd : ∀ v : Utxo, v.add ⟨hash, ofNat i⟩ (.ofOut out nHeight fCoinbase) =
            update v ⟨hash, ofNat i⟩ (some (.ofOut out nHeight fCoinbase)) :=
        fun v => if_neg (by simp [ofOut, hscript])
      rw [hadd, update_of_ne hne.symm, update_comm hne] at ih
      obtain ⟨hkept, hcreates⟩ := ih hc
      refine ⟨hkept, .cons hnull hcoin ?_ ?_⟩
      · intro _
        rw [update_of_ne hne]
        exact hnew hscript
      · rwa [hadd]

/-! Every coin spent was in the map, so what holds of the coins in the map
holds of the coins in the undo data. -/

def AllCoins (P : Coin → Prop) (u : Utxo) : Prop := ∀ o c, u o = some c → P c

theorem AllCoins.update (hok : AllCoins P u)
    (o : COutPoint) {x : Option Coin} (hx : ∀ c ∈ x, P c) : AllCoins P (update u o x) := by
  intro o' c hc
  by_cases heq : o' = o
  · subst heq
    rw [update_self] at hc
    exact hx c hc
  · rw [update_of_ne heq] at hc
    exact hok o' c hc

theorem AllCoins.add (hok : AllCoins P u) (o : COutPoint)
    (hcoin : isUnspendable coin.out.scriptPubKey = false → P coin) : AllCoins P (u.add o coin) := by
  unfold Utxo.add
  split_ifs with hscript
  · exact hok
  · exact hok.update o (by simpa using hcoin (by simpa using hscript))

variable {coins : List Coin} {vin : List CTxIn}

theorem Spends.coins_ok (hspends : Spends u vin coins u')
    (hok : AllCoins P u) : (∀ c ∈ coins, P c) ∧ AllCoins P u' := by
  induction hspends with
  | nil u => exact ⟨by simp, hok⟩
  | @cons u u' txin coin rest coins hcoin hrest ih =>
    obtain ⟨hcoins, hlast⟩ := ih (hok.update txin.prevout (by simp))
    constructor
    · intro c hc
      rcases mem_cons.mp hc with rfl | hc
      · exact hok _ _ hcoin
      · exact hcoins c hc
    · exact hlast

theorem Creates.coins_ok {nHeight : ℕ} {i : ℕ}
    (hcreates : Creates P hash nHeight fCoinbase u i outs u') (hok : AllCoins P u) :
    AllCoins P u' := by
  induction hcreates with
  | nil u i => exact hok
  | cons hnull hcoin hnew hrest ih => exact ih (hok.add _ hcoin)

theorem Applies.coins_ok {nHeight : ℕ} {txundos : List CTxUndo}
    (happlies : Applies P nHeight u txs txundos u') (hok : AllCoins P u) :
    (∀ txundo ∈ txundos, ∀ c ∈ txundo.vprevout, P c) ∧ AllCoins P u' := by
  induction happlies with
  | nil u => exact ⟨by simp, hok⟩
  | @cons u v u' tx txundo rest txundos htx hrest ih =>
    obtain ⟨mid, hspent, hcreates⟩ := htx
    have hboth : (∀ c ∈ txundo.vprevout, P c) ∧ AllCoins P mid := by
      split_ifs at hspent
      · rw [hspent.1, hspent.2]
        exact ⟨by simp, hok⟩
      · exact hspent.coins_ok hok
    obtain ⟨hundos, hlast⟩ := ih (hcreates.coins_ok hboth.2)
    refine ⟨?_, hlast⟩
    intro txundo' hmem
    rcases mem_cons.mp hmem with rfl | hmem
    · exact hboth.1
    · exact hundos txundo' hmem

theorem Spends.length_eq (hspends : Spends u vin coins u') : coins.length = vin.length := by
  induction hspends with
  | nil u => rfl
  | cons hcoin hrest ih => simp [ih]

section
variable {β : Type} [CCoinsView β] {S : ViewSpec β P} {b : UInt256}

theorem triple_spendCoin_present (hcoin : u o = some coin) :
    Triple (Cached S u b) (CCoinsViewCache.spendCoin o) (fun r view => r = some coin ∧
        Cached S (update u o none) b view)
      fun _ => False := by
  refine (triple_spendCoin o).conseq (fun _ h => h) ?_ fun _ h => h
  rintro r view ⟨hr, hview⟩
  rw [hcoin] at hr
  obtain ⟨c, rfl, hlive⟩ := Option.bind_eq_some_iff.mp hr
  exact ⟨by rw [eq_of_live hlive], hview⟩

theorem triple_spendInputs (hspends : Spends u vin coins u') :
    Triple (Cached S u b) (spendInputs vin)
      (fun r view => r = coins ∧ Cached S u' b view) fun _ => False := by
  induction hspends with
  | nil u => exact .pure fun _ hview => ⟨rfl, hview⟩
  | cons hcoin hrest ih =>
    refine (triple_spendCoin_present hcoin).bind fun r => ?_
    apply of_pure
    rintro rfl
    refine ih.bind fun rest => ?_
    apply Triple.pure
    rintro view ⟨rfl, hview⟩
    exact ⟨rfl, hview⟩

variable {nHeight : ℕ}

theorem triple_addCoinsLoop {i : ℕ} (hcreates : Creates P hash nHeight fCoinbase u i outs u') :
    Triple (Cached S u b) (addCoinsLoop hash nHeight fCoinbase i outs)
      (fun _ => Cached S u' b) fun _ => False := by
  induction hcreates with
  | nil u i => exact .pure fun _ hview => hview
  | @cons u u' i out rest hnull hcoin hnew hrest ih =>
    have hunspent : (ofOut out nHeight fCoinbase).isSpent = false := hnull
    exact (triple_addCoin hunspent hcoin fun hscript _ => hnew hscript).bind fun _ => ih

theorem triple_updateCoins {txundo : CTxUndo} (htx : AppliesTx P nHeight u tx txundo u') :
    Triple (Cached S u b) (updateCoins tx nHeight)
      (fun r view => r = txundo ∧ Cached S u' b view) fun _ => False := by
  obtain ⟨mid, hspent, hcreates⟩ := htx
  have hinputs : Triple (Cached S u b) (markInputsSpent tx)
    (fun r view => r = txundo.vprevout ∧ Cached S mid b view) fun _ => False := by
    unfold markInputsSpent
    split_ifs at hspent ⊢ with hcoinbase
    · obtain ⟨hnone, rfl⟩ := hspent
      exact .pure fun _ hview => ⟨hnone.symm, hview⟩
    · exact triple_spendInputs hspent
  refine hinputs.bind fun vprevout => ?_
  apply of_pure
  rintro rfl
  exact (triple_addCoinsLoop hcreates).bind fun _ =>
    pure fun _ hview => ⟨rfl, hview⟩

variable {txundos : List CTxUndo}

theorem triple_updateCoinsLoop (happlies : Applies P nHeight u txs txundos u') :
    Triple (Cached S u b) (updateCoinsLoop nHeight txs)
      (fun r view => r = txundos ∧ Cached S u' b view) fun _ => False := by
  induction happlies with
  | nil u => exact .pure fun _ hview => ⟨rfl, hview⟩
  | cons htx hrest ih =>
    refine (triple_updateCoins htx).bind fun r => ?_
    apply of_pure
    rintro rfl
    refine ih.bind fun rest => ?_
    apply Triple.pure
    rintro view ⟨rfl, hview⟩
    exact ⟨rfl, hview⟩

theorem triple_connectCoins {block : CBlock} {pindex : CBlockIndex}
    (happlies : Applies P pindex.nHeight u block.vtx txundos u') :
    Triple (Cached S u b) (connectCoins block pindex)
      (fun r view => r = ⟨txundos.tail⟩ ∧ view.hashBlock = pindex.hash ∧
        Cached S u' pindex.hash view)
      fun _ => False := by
  refine (triple_updateCoinsLoop happlies).bind fun r => ?_
  apply of_pure
  rintro rfl
  exact (triple_setBestBlock pindex.hash_ne_zero).bind fun _ =>
    pure fun _ hview => ⟨rfl, hview⟩

end

/-! ## `DisconnectBlock` takes it back -/

section
variable {β : Type} [CCoinsView β] {S : ViewSpec β P} {b : UInt256}
  {nHeight : ℕ} {isCoinbase : Bool}

theorem matchesOutput_ofOut {out : CTxOut} (hheight : nHeight < 2 ^ 31) :
    matchesOutput out nHeight isCoinbase (some (ofOut out nHeight isCoinbase)) := by
  have hmod : nHeight % 2147483648 = nHeight := Nat.mod_eq_of_lt hheight
  simp [matchesOutput, ofOut, hmod]

theorem triple_disconnectOutputs (hheight : nHeight < 2 ^ 31) (outs : List CTxOut) :
    ∀ {u u' : Utxo} {i : ℕ}, Creates P hash nHeight isCoinbase u i outs u' →
      Triple (Cached S u' b) (disconnectOutputs hash nHeight isCoinbase i outs)
        (fun r view => r ∧ Cached S u b view) fun _ => False := by
  -- The outputs are taken out in the order in which they were created, so
  -- each spend leaves what the remaining outputs create by themselves.
  induction outs with
  | nil =>
    intro u u' i hcreates
    cases hcreates
    exact .pure fun _ hview => ⟨rfl, hview⟩
  | cons out rest ih =>
    intro u u' i hcreates
    cases hcreates with
    | cons hnull hcoin hnew hrest =>
      unfold disconnectOutputs
      split_ifs with hscript
      · have hadd : u.add ⟨hash, ofNat i⟩ (.ofOut out nHeight isCoinbase) = u := if_pos hscript
        rw [hadd] at hrest
        exact ih hrest
      · have hspendable : isUnspendable out.scriptPubKey = false := by
          simpa using hscript
        have hadd : u.add ⟨hash, ofNat i⟩ (.ofOut out nHeight isCoinbase) =
              update u ⟨hash, ofNat i⟩ (some (.ofOut out nHeight isCoinbase)) :=
          if_neg hscript
        rw [hadd] at hrest
        obtain ⟨hthere, hwithout⟩ := hrest.remove (update_self _ _ _)
        rw [update_idem, update_eq_self_iff.mpr (hnew hspendable).symm] at hwithout
        refine (triple_spendCoin_present hthere).bind fun r => ?_
        apply of_pure
        rintro rfl
        refine (ih hwithout).bind fun fClean => ?_
        apply Triple.pure
        rintro view ⟨rfl, hview⟩
        exact ⟨by rw [matchesOutput_ofOut hheight]; rfl, hview⟩

theorem triple_applyTxInUndo {undo : Coin} {out : COutPoint}
    (hundo : P undo) (hrestorable : Restorable undo) (habsent : u out = none) :
    Triple (Cached S u b) (applyTxInUndo undo out) (fun r view => r = .ok ∧
        Cached S (update u out (some undo)) b view)
      fun _ => False := by
  obtain ⟨hheight, hscript⟩ := hrestorable
  have hmetadata : undoMetadata undo out = (pure (some undo) : CacheM β _) :=
    if_neg hheight
  have hadd : u.add out undo = update u out (some undo) :=
    if_neg (by simp [hscript])
  refine (triple_haveCoin out).bind fun overwrites => ?_
  rw [hmetadata]
  apply of_pure
  rintro rfl
  refine (triple_addCoin (S.unspent hundo) (fun _ => hundo) fun _ _ => habsent).bind fun _ => ?_
  apply Triple.pure
  intro view hview
  rw [hadd] at hview
  exact ⟨by simp [habsent], hview⟩

theorem restoreInputs_append (front back : List (CTxIn × Coin)) :
    ∀ fClean, (restoreInputs (front ++ back) fClean : CacheM β _) =
      restoreInputs front fClean >>= fun r =>
        r.elim (pure none) (restoreInputs back) := by
  induction front with
  | nil =>
    intro fClean
    simp [restoreInputs]
  | cons entry front ih =>
    intro fClean
    obtain ⟨txin, undo⟩ := entry
    rw [cons_append, restoreInputs, restoreInputs, bind_assoc]
    congr 1
    funext res
    cases res with
    | ok => exact ih fClean
    | unclean => exact ih false
    | failed => rfl

theorem triple_restoreInputs (hspends : Spends u vin coins u')
    (hcoins : ∀ c ∈ coins, P c ∧ Restorable c) (fClean : Bool) :
    Triple (Cached S u' b) (restoreInputs (vin.zip coins).reverse fClean)
      (fun r view => r = some fClean ∧ Cached S u b view) fun _ => False := by
  induction hspends with
  | nil u => exact .pure fun _ hview => ⟨rfl, hview⟩
  | @cons u u' txin coin rest coins hcoin hrest ih =>
    obtain ⟨hok, hrestorable⟩ := hcoins coin mem_cons_self
    have hback : update (update u txin.prevout none) txin.prevout (some coin) = u := by
      rw [update_idem]
      exact update_eq_self_iff.mpr hcoin.symm
    rw [zip_cons_cons, reverse_cons, restoreInputs_append]
    refine (ih fun c hc => hcoins c (mem_cons_of_mem _ hc)).bind fun r => ?_
    apply of_pure
    rintro rfl
    refine (triple_applyTxInUndo hok hrestorable (update_self _ _ _)).bind fun res => ?_
    apply of_pure
    rintro rfl
    rw [hback]
    exact .pure fun _ hview => ⟨rfl, hview⟩

variable {tx : CTransaction} {txundo : CTxUndo}

theorem triple_disconnectTransaction (hheight : nHeight < 2 ^ 31)
    (htx : AppliesTx P nHeight u tx txundo u') (hcoinbase : tx.isCoinBase = false)
    (hcoins : ∀ c ∈ txundo.vprevout, P c ∧ Restorable c) (fClean : Bool) :
    Triple (Cached S u' b) (disconnectTransaction nHeight tx (some txundo) fClean)
      (fun r view => r = some fClean ∧ Cached S u b view) fun _ => False := by
  obtain ⟨mid, hspent, hcreates⟩ := htx
  rw [if_neg (by simp [hcoinbase])] at hspent
  refine (triple_disconnectOutputs hheight tx.vout hcreates).bind fun outputsClean => ?_
  apply of_pure
  rintro rfl
  have hcount : ¬(txundo.vprevout.length ≠ tx.vin.length) := by
    simpa using hspent.length_eq
  simp only [if_neg hcount, Bool.and_true]
  exact triple_restoreInputs hspent hcoins fClean

theorem triple_disconnectCoinbase (hheight : nHeight < 2 ^ 31)
    (htx : AppliesTx P nHeight u tx txundo u') (hcoinbase : tx.isCoinBase) (fClean : Bool) :
    Triple (Cached S u' b) (disconnectTransaction nHeight tx none fClean)
      (fun r view => r = some fClean ∧ Cached S u b view) fun _ => False := by
  obtain ⟨mid, hspent, hcreates⟩ := htx
  rw [if_pos hcoinbase] at hspent
  obtain ⟨-, rfl⟩ := hspent
  refine (triple_disconnectOutputs hheight tx.vout hcreates).bind fun outputsClean => ?_
  apply of_pure
  rintro rfl
  rw [Bool.and_true]
  exact .pure fun _ hview => ⟨rfl, hview⟩

theorem disconnectLoop_append (nHeight : ℕ) (front back : List (CTransaction × Option CTxUndo)) :
    ∀ fClean, (disconnectLoop nHeight (front ++ back) fClean : CacheM β _) =
      disconnectLoop nHeight front fClean >>= fun r =>
        r.elim (pure none) (disconnectLoop nHeight back) := by
  induction front with
  | nil =>
    intro fClean
    simp [disconnectLoop]
  | cons entry front ih =>
    intro fClean
    obtain ⟨tx, txundo⟩ := entry
    rw [cons_append, disconnectLoop, disconnectLoop, bind_assoc]
    congr 1
    funext res
    cases res with
    | none => rfl
    | some fClean => exact ih fClean

theorem triple_disconnectLoop_snoc {v : Utxo} {front : List (CTransaction × Option CTxUndo)}
    {txundo : Option CTxUndo} {fClean : Bool}
    (hfront : Triple (Cached S u' b) (disconnectLoop nHeight front fClean)
    (fun r view => r = some fClean ∧ Cached S v b view) fun _ => False)
    (htx : Triple (Cached S v b) (disconnectTransaction nHeight tx txundo fClean)
    (fun r view => r = some fClean ∧ Cached S u b view) fun _ => False) :
    Triple (Cached S u' b) (disconnectLoop nHeight (front ++ [(tx, txundo)]) fClean)
      (fun r view => r = some fClean ∧ Cached S u b view) fun _ => False := by
  rw [disconnectLoop_append]
  refine hfront.bind fun r => ?_
  apply of_pure
  rintro rfl
  refine htx.bind fun r => ?_
  apply of_pure
  rintro rfl
  exact .pure fun _ hview => ⟨rfl, hview⟩

variable {txundos : List CTxUndo} {txs : List CTransaction}

theorem triple_disconnectLoop (hheight : nHeight < 2 ^ 31)
    (happlies : Applies P nHeight u txs txundos u') (hcoinbase : ∀ tx ∈ txs, tx.isCoinBase = false)
    (hcoins : ∀ txundo ∈ txundos, ∀ c ∈ txundo.vprevout, P c ∧ Restorable c) :
    Triple (Cached S u' b) (disconnectLoop nHeight (txs.zip (txundos.map some)).reverse true)
      (fun r view => r = some true ∧ Cached S u b view) fun _ => False := by
  induction happlies with
  | nil u => exact .pure fun _ hview => ⟨rfl, hview⟩
  | @cons u v u' tx txundo rest txundos htx hrest ih =>
    rw [map_cons, zip_cons_cons, reverse_cons]
    apply triple_disconnectLoop_snoc
    · exact ih (fun tx h => hcoinbase tx (mem_cons_of_mem _ h))
        fun txundo h => hcoins txundo (mem_cons_of_mem _ h)
    · exact triple_disconnectTransaction hheight htx
        (hcoinbase tx mem_cons_self) (hcoins txundo mem_cons_self) true

theorem Applies.length_eq (happlies : Applies P nHeight u txs txundos u') :
    txundos.length = txs.length := by
  induction happlies with
  | nil u => rfl
  | cons htx hrest ih => simp [ih]

variable {rest : List CTransaction} {coinbase : CTransaction} {pindex : CBlockIndex}
  {block : CBlock}

theorem triple_undoBlock {v : Utxo} (hvtx : block.vtx = coinbase :: rest)
    (hfirst : AppliesTx P pindex.nHeight u coinbase txundo v)
    (hrest : Applies P pindex.nHeight v rest txundos u') (hcoinbase : coinbase.isCoinBase)
    (hothers : ∀ tx ∈ rest, tx.isCoinBase = false)
    (hcoins : ∀ txundo ∈ txundos, ∀ c ∈ txundo.vprevout, P c ∧ Restorable c) :
    Triple (Cached S u' b) (undoBlock block pindex ⟨txundos⟩)
      (fun r view => r = .ok ∧ view.hashBlock = pindex.hashPrev ∧ Cached S u pindex.hashPrev view)
      fun _ => False := by
  have hcount : ¬(txundos.length + 1 ≠ block.vtx.length) := by
    rw [hvtx]
    simpa using hrest.length_eq
  have hloop : Triple (Cached S u' b) (disconnectLoop pindex.nHeight
        (block.vtx.zip (none :: txundos.map some)).reverse true)
      (fun r view => r = some true ∧ Cached S u b view) fun _ => False := by
    rw [hvtx, zip_cons_cons, reverse_cons]
    apply triple_disconnectLoop_snoc
    · exact triple_disconnectLoop pindex.nHeight_lt hrest hothers hcoins
    · exact triple_disconnectCoinbase pindex.nHeight_lt hfirst hcoinbase true
  unfold undoBlock
  rw [if_neg hcount]
  refine hloop.bind fun r => ?_
  apply of_pure
  rintro rfl
  exact (triple_setBestBlock pindex.hashPrev_ne_zero).bind fun _ =>
    pure fun _ hview => ⟨rfl, hview⟩

theorem triple_disconnectBlock (hvtx : block.vtx = coinbase :: rest)
    (happlies : Applies P pindex.nHeight u block.vtx txundos u')
    (hcoinbase : coinbase.isCoinBase) (hothers : ∀ tx ∈ rest, tx.isCoinBase = false)
    (hcoins : ∀ txundo ∈ txundos, ∀ c ∈ txundo.vprevout, P c ∧ Restorable c) :
    Triple (Cached S u' pindex.hash) (disconnectBlock block pindex (some ⟨txundos.tail⟩))
      (fun r view => r = .ok ∧ view.hashBlock = pindex.hashPrev ∧ Cached S u pindex.hashPrev view)
      fun _ => False := by
  rw [hvtx] at happlies
  cases happlies with
  | cons hfirst hrest =>
    refine triple_getBestBlock.bind fun best => ?_
    apply of_pure
    rintro rfl
    rw [if_neg (by simp)]
    exact triple_undoBlock hvtx hfirst hrest hcoinbase hothers
      fun txundo h => hcoins txundo (mem_cons_of_mem _ h)

end

section
variable {β : Type} [CCoinsView β] {S : ViewSpec β P} {b : UInt256} {u : Utxo}

/-- The coin to restore, with height and coinbase flag taken from the first unspent output of
its transaction if it has no height. -/
def recoverMetadata (u : Utxo) (undo : Coin) (out : COutPoint) : Option Coin :=
  if undo.nHeight = 0 then
    ((range maxOutputsPerBlock).findSome? fun n => u ⟨out.hash, ofNat n⟩).map
      fun alternate => { undo with
        nHeight := alternate.nHeight, fCoinBase := alternate.fCoinBase }
  else some undo

theorem triple_accessByTxidLoop (txid : UInt256) (remaining : ℕ) :
    ∀ n, Triple (Cached S u b) (accessByTxidLoop txid remaining n)
      (fun r view => r.live = (range' n remaining).findSome?
        (fun n => u ⟨txid, ofNat n⟩) ∧ Cached S u b view) fun _ => False := by
  induction remaining with
  | zero => exact fun _ => .pure fun _ hview => ⟨rfl, hview⟩
  | succ remaining ih =>
    intro n
    refine (triple_accessCoin _).bind fun alternate => ?_
    apply of_pure
    intro hlive
    rw [range'_succ, findSome?_cons, ← hlive]
    cases hspent : alternate.isSpent with
    | true =>
      rw [live_eq_none.mpr hspent]
      exact ih (n + 1)
    | false =>
      rw [live_of_unspent hspent]
      exact .pure fun _ hview => ⟨live_of_unspent hspent, hview⟩

theorem triple_undoMetadata (undo : Coin) (out : COutPoint) :
    Triple (Cached S u b) (undoMetadata undo out)
      (fun r view => r = recoverMetadata u undo out ∧ Cached S u b view) fun _ => False := by
  unfold undoMetadata recoverMetadata
  split_ifs with hheight
  · refine (triple_accessByTxidLoop _ _ 0).bind fun alternate => ?_
    apply of_pure
    intro hlive
    rw [range_eq_range', ← hlive]
    cases hspent : alternate.isSpent with
    | true => exact .pure fun _ hview => ⟨by rw [live_eq_none.mpr hspent]; rfl, hview⟩
    | false => exact .pure fun _ hview => ⟨by rw [live_of_unspent hspent]; rfl, hview⟩
  · exact .pure fun _ hview => ⟨rfl, hview⟩

theorem triple_applyTxInUndo_failed {undo : Coin} {out : COutPoint}
    (hheight : undo.nHeight = 0) (hnone : ∀ n, u ⟨out.hash, n⟩ = none) :
    Triple (Cached S u b) (applyTxInUndo undo out) (fun r _ => r = .failed) fun _ => False := by
  have hmetadata : recoverMetadata u undo out = none := by
    simp [recoverMetadata, hheight, hnone]
  refine (triple_haveCoin out).bind fun overwrites => ?_
  apply of_pure
  rintro -
  refine (triple_undoMetadata undo out).bind fun r => ?_
  apply of_pure
  rintro rfl
  rw [hmetadata]
  exact .pure fun _ _ => rfl

theorem triple_disconnectTransaction_failed {nHeight : ℕ}
    {txin : CTxIn} {fClean : Bool} (hindex : nHeight < 2 ^ 31)
    (hvin : tx.vin = [txin]) (hcreates : Creates P tx.hash nHeight tx.isCoinBase u 0 tx.vout u')
    (hheight : coin.nHeight = 0) (hnone : ∀ n, u ⟨txin.prevout.hash, n⟩ = none) :
    Triple (Cached S u' b) (disconnectTransaction nHeight tx (some ⟨[coin]⟩) fClean)
      (fun r _ => r = none) fun _ => False := by
  refine (triple_disconnectOutputs hindex tx.vout hcreates).bind fun outputsClean => ?_
  apply of_pure
  rintro rfl
  simp only [hvin]
  refine (triple_applyTxInUndo_failed hheight hnone).bind fun res => ?_
  apply of_state
  rintro view rfl
  exact .pure fun _ _ => rfl

theorem triple_undoBlock_failed {block : CBlock} {pindex : CBlockIndex} {coinbase : CTransaction}
    {txin : CTxIn} (hvtx : block.vtx = [coinbase, tx]) (hvin : tx.vin = [txin])
    (hcreates : Creates P tx.hash pindex.nHeight tx.isCoinBase u 0 tx.vout u')
    (hheight : coin.nHeight = 0) (hnone : ∀ n, u ⟨txin.prevout.hash, n⟩ = none) :
    Triple (Cached S u' b) (undoBlock block pindex ⟨[⟨[coin]⟩]⟩)
      (fun r _ => r = .failed) fun _ => False := by
  have hloop : Triple (Cached S u' b) (disconnectLoop pindex.nHeight
        [(tx, some ⟨[coin]⟩), (coinbase, none)] true)
      (fun r _ => r = none) fun _ => False := by
    refine (triple_disconnectTransaction_failed pindex.nHeight_lt hvin hcreates
      hheight hnone).bind fun r => ?_
    apply of_state
    rintro view rfl
    exact .pure fun _ _ => rfl
  unfold undoBlock
  rw [hvtx]
  refine hloop.bind fun r => ?_
  apply of_state
  rintro view rfl
  exact .pure fun _ _ => rfl

end

/-- Connecting a block and disconnecting it with the undo data that it recorded leaves every
coin as it was, for coins that `AddCoin` would have added above height zero. -/
theorem disconnectBlock_connectCoins {β : Type} [CCoinsView β] (S : ViewSpec β (·.isSpent = false))
    (cache : CoherentCache S) (block : CBlock) (pindex : CBlockIndex) (coinbase : CTransaction)
    (rest : List CTransaction) (txundos : List CTxUndo) (u' : Utxo)
    (hvtx : block.vtx = coinbase :: rest) (hcoinbase : coinbase.isCoinBase)
    (hothers : ∀ tx ∈ rest, tx.isCoinBase = false)
    (happlies : Applies (·.isSpent = false) pindex.nHeight cache.coins block.vtx txundos u')
    (hrestorable : ∀ txundo ∈ txundos, ∀ c ∈ txundo.vprevout, Restorable c) :
    ∃ connected disconnected,
      connectCoins block pindex cache.view = .ok ⟨txundos.tail⟩ connected ∧
      disconnectBlock block pindex (some ⟨txundos.tail⟩) connected = .ok .ok disconnected ∧
      cacheCoinsOf S disconnected = cache.coins ∧
      cacheBest S disconnected = pindex.hashPrev := by
  have hundo := (happlies.coins_ok cache.coherent.ok).1
  obtain ⟨undo, connected, hconnected, rfl, -, hview⟩ :=
    (triple_connectCoins happlies).exists_ok ⟨cache.coherent, rfl, rfl⟩
  have hback := triple_disconnectBlock (S := S) hvtx happlies hcoinbase hothers
    fun txundo h c hc => ⟨hundo txundo h c hc, hrestorable txundo h c hc⟩
  obtain ⟨result, disconnected, hdisconnected, rfl, -, -, hcoins, hbest⟩ :=
    hback.exists_ok hview
  exact ⟨connected, disconnected, hconnected, hdisconnected, hcoins, hbest⟩

section
variable (nHeight : ℕ)

def singleCoin : Coin :=
  ofOut ⟨50, [OP_1], [], -10⟩ nHeight false

def singleCoinDb : CCoinsViewDB memoryCodec :=
  CCoinsViewDB.batchEntry {} ⟨⟨7, 0⟩, ⟨singleCoin nHeight, true, false⟩⟩

theorem inv_singleCoinDb : memorySpec.Inv (singleCoinDb nHeight) := by
  have hempty : DbInv (·.isSpent = false) ({} : CCoinsViewDB memoryCodec) := by
    intro o r hr
    exact absurd hr (by simp)
  refine (dbCoins_batchEntry hempty (fun _ _ => rfl) fun _ c hc => ?_).1
  rw [← eq_of_live hc]
  rfl

def singleCoinCache : CoherentCache memorySpec :=
  CoherentCache.new memorySpec (singleCoinDb nHeight) (inv_singleCoinDb nHeight)

theorem coins_singleCoinCache {nHeight : ℕ} (ho : o ≠ ⟨7, 0⟩) :
    (singleCoinCache nHeight).coins o = none := by
  have hrecord : (singleCoinDb nHeight).records.lookup o = none :=
    (AList.lookup_insert_ne ho).trans (AList.lookup_empty o)
  change ((singleCoinDb nHeight).records.lookup o).bind some = none
  rw [hrecord]
  rfl

def sampleTx (hash : UInt256) (prevout : COutPoint) (nValue : CAmount) : CTransaction :=
  { nVersion := 1
    vin := [⟨prevout, [], 0xffffffff⟩]
    vout := [⟨nValue, [OP_1], [], -10⟩]
    nLockTime := 0
    hash := hash }

/-- A coinbase, a transaction that spends the single coin, and one that spends
the output of the one before it. -/
def sampleVtx : List CTransaction :=
  [sampleTx 1 ⟨0, 0xffffffff⟩ 25, sampleTx 2 ⟨7, 0⟩ 40, sampleTx 3 ⟨2, 0⟩ 30]

def sampleBlock (count : ℕ) : CBlock where
  nVersion := 1
  hashMerkleRoot := 0
  nTime := 0
  nBits := 0
  vtx := sampleVtx.take count
  hash := 100

def sampleIndex : CBlockIndex where
  hash := 100
  hashPrev := 99
  nHeight := 5
  hash_ne_zero := by decide
  hashPrev_ne_zero := by decide
  nHeight_lt := by decide

theorem disconnectBlock_connectCoins_sample : ∃ connected disconnected,
      connectCoins (sampleBlock 3) sampleIndex (singleCoinCache 4).view = .ok ⟨[⟨[singleCoin 4]⟩,
          ⟨[ofOut ⟨40, [OP_1], [], -10⟩ 5 false]⟩]⟩ connected ∧
      disconnectBlock (sampleBlock 3) sampleIndex (some ⟨[⟨[singleCoin 4]⟩,
          ⟨[ofOut ⟨40, [OP_1], [], -10⟩ 5 false]⟩]⟩) connected =
        .ok .ok disconnected ∧
      cacheCoinsOf memorySpec disconnected = (singleCoinCache 4).coins ∧
      cacheBest memorySpec disconnected = sampleIndex.hashPrev := by
  obtain ⟨u', happlies⟩ : ∃ u', Applies (·.isSpent = false) 5
      (singleCoinCache 4).coins (sampleBlock 3).vtx
      [⟨[]⟩, ⟨[singleCoin 4]⟩, ⟨[ofOut ⟨40, [OP_1], [], -10⟩ 5 false]⟩] u' := by
    refine ⟨_, .cons ⟨_, (if_pos rfl).mpr ⟨rfl, rfl⟩,
        Creates.cons rfl (fun _ => rfl) (fun _ => rfl) (.nil _ _)⟩
      (.cons ⟨_, (if_neg (by decide)).mpr (.cons rfl (.nil _)),
          Creates.cons rfl (fun _ => rfl) (fun _ => rfl) (.nil _ _)⟩
        (.cons ⟨_, (if_neg (by decide)).mpr (.cons rfl (.nil _)),
            Creates.cons rfl (fun _ => rfl) (fun _ => rfl) (.nil _ _)⟩
          (.nil _)))⟩
  exact disconnectBlock_connectCoins memorySpec (singleCoinCache 4)
    (sampleBlock 3) sampleIndex _ _ _ u' rfl rfl (by decide) happlies (by decide)

/-- A coin of height zero is spent by the block and cannot be restored: the
block cannot be disconnected. -/
theorem heightZeroCoin_disconnect_failed : ∃ u' connected disconnected,
      Applies (·.isSpent = false) 5 (singleCoinCache 0).coins
        (sampleBlock 2).vtx [⟨[]⟩, ⟨[singleCoin 0]⟩] u' ∧
      connectCoins (sampleBlock 2) sampleIndex (singleCoinCache 0).view =
        .ok ⟨[⟨[singleCoin 0]⟩]⟩ connected ∧
      disconnectBlock (sampleBlock 2) sampleIndex (some ⟨[⟨[singleCoin 0]⟩]⟩) connected =
        .ok .failed disconnected := by
  -- The coins after the coinbase, after the spend, and after the block.
  let u₁ : Utxo := (singleCoinCache 0).coins.add ⟨1, 0⟩
    (.ofOut ⟨25, [OP_1], [], -10⟩ 5 true)
  let u₂ : Utxo := Function.update u₁ ⟨7, 0⟩ none
  let u₃ : Utxo := u₂.add ⟨2, 0⟩ (.ofOut ⟨40, [OP_1], [], -10⟩ 5 false)
  have hcreates : Creates (·.isSpent = false) 2 5 false u₂ 0 (sampleTx 2 ⟨7, 0⟩ 40).vout u₃ :=
    Creates.cons rfl (fun _ => rfl) (fun _ => rfl) (.nil _ _)
  have happlies : Applies (·.isSpent = false) sampleIndex.nHeight
    (singleCoinCache 0).coins (sampleBlock 2).vtx [⟨[]⟩, ⟨[singleCoin 0]⟩] u₃ :=
    Applies.cons ⟨_, (if_pos rfl).mpr ⟨rfl, rfl⟩,
        Creates.cons rfl (fun _ => rfl) (fun _ => rfl) (.nil _ _)⟩
      (.cons ⟨_, (if_neg (by decide)).mpr (.cons rfl (.nil _)), hcreates⟩ (.nil _))
  have hnone : ∀ n, u₂ ⟨7, n⟩ = none := by
    intro n
    by_cases hn : n = 0
    · subst hn
      rfl
    · have hother : (⟨7, n⟩ : COutPoint) ≠ ⟨7, 0⟩ := by simp [hn]
      have hcoinbase : (⟨7, n⟩ : COutPoint) ≠ ⟨1, 0⟩ := by simp
      rw [show u₂ ⟨7, n⟩ = u₁ ⟨7, n⟩ from Function.update_of_ne hother _ _]
      exact coins_singleCoinCache hother
  have hfailed : Triple (Cached memorySpec u₃ sampleIndex.hash)
      (disconnectBlock (sampleBlock 2) sampleIndex (some ⟨[⟨[singleCoin 0]⟩]⟩))
      (fun r _ => r = .failed) fun _ => False := by
    refine triple_getBestBlock.bind fun best => ?_
    apply of_pure
    rintro rfl
    rw [if_neg (by simp)]
    have hvin : (sampleTx 2 ⟨7, 0⟩ 40).vin = [⟨⟨7, 0⟩, [], 0xffffffff⟩] := rfl
    exact triple_undoBlock_failed rfl hvin hcreates rfl hnone
  have hforward : Triple (Cached memorySpec (singleCoinCache 0).coins 0)
      (connectCoins (sampleBlock 2) sampleIndex)
      (fun r view => r = ⟨[⟨[singleCoin 0]⟩]⟩ ∧ view.hashBlock = sampleIndex.hash ∧
        Cached memorySpec u₃ sampleIndex.hash view)
      fun _ => False := triple_connectCoins happlies
  obtain ⟨_, connected, hconnected, rfl, -, hview⟩ := hforward.exists_ok
    ⟨(singleCoinCache 0).coherent, rfl, rfl⟩
  obtain ⟨_, disconnected, hdisconnected, rfl⟩ := hfailed.exists_ok hview
  exact ⟨u₃, connected, disconnected, happlies, hconnected, hdisconnected⟩

end
end ImageCoin
