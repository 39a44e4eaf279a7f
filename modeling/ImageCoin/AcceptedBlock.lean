import ImageCoin.ConnectBlock
import ImageCoin.CacheEntries

/-!
# What `ConnectBlock` has done when it accepts

An accepted block has been applied to the coins, transaction by transaction: the inputs take
coins that are there, the outputs are created where there are none, and no transaction pays out
more than it takes in.
-/

namespace ImageCoin

open StateExcept CCoinsViewCache List Triple UInt32

/-! ## The checks leave the coins alone -/

theorem triple_viewCall {α β : Type} {x : CacheM β α} {pre : CCoinsViewCache β → Prop}
    {ok : α → CCoinsViewCache β → Prop} {err : CCoinsViewCache β → Prop}
    (hx : Triple pre x ok err) : Triple pre (viewCall x) ok fun _ => True := by
  intro view hview
  have hrun := hx view hview
  unfold viewCall
  cases hresult : x view with
  | ok a view' =>
    rw [hresult] at hrun
    exact hrun
  | error e view' => exact True.intro

section
variable {α β : Type} [CCoinsView β] {P : Coin → Prop} {S : ViewSpec β P}
  {O : Set COutPoint} {u : Utxo} {b : UInt256}

theorem Looks.viewCall {x : CacheM β α} {q : α → Prop}
    (hx : Looks S O u b x q) : Looks S O u b (viewCall x) q :=
  triple_viewCall hx

theorem looks_liftCheck {check : Except DoS α} :
    Looks S O u b (liftCheck check : ConnectM β α) fun a => check = .ok a := by
  cases check with
  | ok a => exact .pure rfl
  | error state => exact .throw

variable {tx : CTransaction}

theorem looks_haveInputs (hcoinbase : tx.isCoinBase = false) :
    Looks S O u b (haveInputs tx) fun r =>
      r → ∀ txin ∈ tx.vin, u txin.prevout ≠ none := by
  unfold haveInputs
  rw [hcoinbase]
  induction tx.vin with
  | nil => exact .pure (by simp)
  | cons txin rest ih =>
    apply (looks_haveCoin txin.prevout).bind
    rintro r rfl
    cases hcoin : u txin.prevout with
    | none => exact .pure (by simp)
    | some coin =>
      apply ih.mono
      intro r hrest hr txin' hmem
      rcases mem_cons.mp hmem with rfl | hmem
      · rw [hcoin]
        simp
      · exact hrest hr txin' hmem

variable {vin : List CTxIn}

theorem looks_accessCoins : Looks S O u b (accessCoins vin) fun _ => True := by
  induction vin with
  | nil => exact .pure True.intro
  | cons txin rest ih =>
    apply (looks_accessCoin txin.prevout).bind
    exact fun _ _ => ih.bind fun _ _ => .pure True.intro

theorem looks_getValueIn : Looks S O u b (getValueIn tx) fun _ => True := by
  have hloop : ∀ vin nResult, Looks S O u b (getValueInLoop vin nResult) fun _ => True := by
    intro vin
    induction vin with
    | nil => exact fun _ => .pure True.intro
    | cons txin rest ih =>
      intro nResult
      exact (looks_accessCoin txin.prevout).bind fun _ _ => ih _
  unfold getValueIn
  split_ifs
  · exact .pure True.intro
  · exact hloop _ _

theorem looks_getP2SHSigOpCountLoop :
    ∀ nSigOps, Looks S O u b (getP2SHSigOpCountLoop vin nSigOps) fun _ => True := by
  induction vin with
  | nil => exact fun _ => .pure True.intro
  | cons txin rest ih =>
    intro nSigOps
    apply (looks_accessCoin txin.prevout).bind
    intro coin _
    split
    · exact .throw
    · exact ih _

theorem looks_addInput {nSpendHeight : ℕ} {coin : Coin} {nValueIn : CAmount}
    {o : COutPoint} (hcoin : coin.live = u o) (hstart : moneyRange nValueIn) :
    Looks S O u b (addInput nSpendHeight coin nValueIn : ConnectM β CAmount)
      fun r => moneyRange r ∧ r.toInt = nValueIn.toInt + coinValue (u o) := by
  unfold addInput
  split_ifs with hspent hpremature hrange
  · exact .throw
  · exact .throw
  · exact .throw
  · simp only [Bool.or_eq_true, Bool.not_eq_eq_eq_not, Bool.not_true,
      not_or, Bool.not_eq_false] at hrange
    have hlive := Coin.live_of_unspent (by simpa using hspent)
    apply Looks.pure
    refine ⟨hrange.2, ?_⟩
    rw [← hcoin, hlive]
    exact toInt_add_of_moneyRange hstart hrange.1

variable (nSpendHeight : ℕ)

theorem looks_checkTxInputsLoop : ∀ nValueIn, moneyRange nValueIn →
    Looks S O u b (checkTxInputsLoop nSpendHeight vin nValueIn) fun r => moneyRange r ∧
        r.toInt = nValueIn.toInt + inputValue u vin := by
  induction vin with
  | nil =>
    intro nValueIn hstart
    exact .pure ⟨hstart, by simp [inputValue]⟩
  | cons txin rest ih =>
    intro nValueIn hstart
    apply (looks_accessCoin txin.prevout).viewCall.bind
    intro coin hcoin
    apply (looks_addInput hcoin hstart).bind
    rintro next ⟨hnext, hvalue⟩
    apply (ih next hnext).mono
    rintro r ⟨hr, hsum⟩
    refine ⟨hr, ?_⟩
    rw [hsum, hvalue, inputValue, inputValue, map_cons, sum_cons]
    ring

theorem looks_valueOut : Looks S O u b (valueOut tx : ConnectM β CAmount)
    fun r => r.toInt = totalOut tx.vout := by
  unfold valueOut
  cases hout : tx.getValueOut with
  | none => exact .throw
  | some nValueOut => exact .pure (getValueOut_eq_some hout).2

theorem looks_checkFee {nValueIn nValueOut : CAmount} :
    Looks S O u b (checkFee nValueIn nValueOut : ConnectM β Unit)
      fun _ => nValueOut.toInt ≤ nValueIn.toInt := by
  unfold checkFee
  split_ifs with hbelow hnegative hrange
  · exact .throw
  · exact .throw
  · exact .throw
  · rw [Int64.lt_iff_toInt_lt, not_lt] at hbelow
    exact .pure hbelow

/-- The inputs pay for the outputs and are within the money range. -/
def Covers (u : Utxo) (tx : CTransaction) : Prop :=
  totalOut tx.vout ≤ inputValue u tx.vin ∧ inputValue u tx.vin ≤ maxMoney.toInt

theorem looks_checkTxInputs (hcoinbase : tx.isCoinBase = false) :
    Looks S O u b (checkTxInputs tx nSpendHeight) fun _ => Covers u tx := by
  apply (looks_haveInputs hcoinbase).viewCall.bind
  intro r _
  cases r with
  | false => exact .throw
  | true =>
    apply (looks_checkTxInputsLoop nSpendHeight 0 (by decide)).bind
    rintro nValueIn ⟨hrange, hvalueIn⟩
    apply looks_valueOut.bind
    intro nValueOut hvalueOut
    apply looks_checkFee.mono
    intro _ hle
    have hin : nValueIn.toInt = inputValue u tx.vin := by simpa using hvalueIn
    have hmax := (moneyRange_iff.mp hrange).2
    rw [← maxMoney_toInt] at hmax
    exact ⟨by omega, by omega⟩

variable (env : ConnectEnv)

theorem looks_checkInputs (hcoinbase : tx.isCoinBase = false) :
    Looks S O u b (checkInputs env tx) fun _ => Covers u tx := by
  have hheight : Looks S O u b (getSpendHeight env) fun _ => True :=
    looks_getBestBlock.viewCall.bind fun _ _ => .pure True.intro
  apply hheight.bind
  intro nSpendHeight _
  apply (looks_checkTxInputs nSpendHeight hcoinbase).bind
  intro _ hcovers
  have himages : Looks S O u b (checkImages tx : ConnectM β Unit) fun _ => True := by
    unfold checkImages
    split_ifs
    · exact .throw
    · exact .pure True.intro
  apply himages.bind
  intro _ _
  apply looks_accessCoins.viewCall.bind
  intro coins _
  exact looks_liftCheck.mono fun _ _ => hcovers

theorem looks_checkSigOps {nSigOps : UInt32} :
    Looks S O u b (checkSigOps env nSigOps : ConnectM β Unit) fun _ => True := by
  unfold checkSigOps
  split_ifs
  · exact .throw
  · exact .pure True.intro

variable (block : CBlock)

theorem looks_addP2SHSigOps {nSigOps : UInt32} :
    Looks S O u b (addP2SHSigOps env block tx nSigOps) fun _ => True := by
  unfold addP2SHSigOps
  split_ifs
  · apply (looks_getP2SHSigOpCountLoop 0).viewCall.bind
    intro count _
    exact (looks_checkSigOps env).bind fun _ _ => .pure True.intro
  · exact .pure True.intro

def Spendable (u : Utxo) (tx : CTransaction) : Prop :=
  (∀ txin ∈ tx.vin, u txin.prevout ≠ none) ∧ Covers u tx

theorem looks_checkConnect {totals : BlockTotals} : Looks S O u b (checkConnect env block tx totals)
    fun _ => tx.isCoinBase = false → Spendable u tx := by
  unfold checkConnect
  cases hcoinbase : tx.isCoinBase with
  | true => exact .pure (by simp)
  | false =>
    apply (looks_haveInputs hcoinbase).viewCall.bind
    intro r hinputs
    cases r with
    | false => exact .throw
    | true =>
      apply looks_accessCoins.viewCall.bind
      intro coins _
      split
      · apply (looks_addP2SHSigOps env block).bind
        intro nSigOps _
        apply looks_getValueIn.viewCall.bind
        intro nValueIn _
        apply looks_valueOut.bind
        intro nValueOut _
        apply (looks_checkInputs env hcoinbase).bind
        intro _ hcovers
        exact .pure fun _ => ⟨hinputs rfl, hcovers⟩
      · exact .throw

end

/-! ## Accepted blocks -/

theorem checkTransactions_ok {txs : List CTransaction} (hcheck : checkTransactions txs = .ok ()) :
    ∀ tx ∈ txs, tx.WellFormed := by
  induction txs with
  | nil => simp
  | cons tx rest ih =>
    obtain ⟨_, htx, hrest⟩ := ok_of_bind_ok hcheck
    intro tx' hmem
    rcases mem_cons.mp hmem with rfl | hmem
    · exact checkTransaction_ok htx
    · exact ih hrest tx' hmem

theorem checkBlock_ok {env : ConnectEnv} {block : CBlock} (hcheck : checkBlock env block = .ok ()) :
    CoinbaseFirst block ∧ ∀ tx ∈ block.vtx, tx.WellFormed := by
  obtain ⟨_, -, hcheck⟩ := ok_of_bind_ok hcheck
  obtain ⟨_, -, hcheck⟩ := ok_of_bind_ok hcheck
  obtain ⟨_, -, hcheck⟩ := ok_of_bind_ok hcheck
  obtain ⟨_, hcoinbase, hcheck⟩ := ok_of_bind_ok hcheck
  obtain ⟨_, -, hcheck⟩ := ok_of_bind_ok hcheck
  obtain ⟨_, htxs, -⟩ := ok_of_bind_ok hcheck
  refine ⟨?_, checkTransactions_ok htxs⟩
  cases hvtx : block.vtx with
  | nil =>
    rw [hvtx] at hcoinbase
    cases hcoinbase
  | cons coinbase rest =>
    rw [hvtx] at hcoinbase
    simp only [checkCoinbase] at hcoinbase
    split_ifs at hcoinbase with hfirst hothers
    exact ⟨coinbase, rest, hvtx, by simpa using hfirst, by simpa using hothers⟩

def InRange (coin : Coin) : Prop := moneyRange coin.out.nValue

instance : DecidablePred InRange := fun _ => inferInstanceAs (Decidable (_ = _))

theorem CTxOut.not_null_of_inRange {out : CTxOut}
    (hrange : moneyRange out.nValue) : out.isNull = false := by
  have hlow := (moneyRange_iff.mp hrange).1
  simp only [CTxOut.isNull, decide_eq_false_iff_not]
  intro hnull
  rw [hnull] at hlow
  exact absurd hlow (by decide)

def outpointsOf (txs : List CTransaction) : Set COutPoint :=
  { o | ∃ tx ∈ txs, ∃ j < tx.vout.length, o = ⟨tx.hash, ofNat j⟩ }

/-- The coins that the undo data records pay for the outputs. -/
def Pays (tx : CTransaction) (txundo : CTxUndo) : Prop :=
  tx.isCoinBase = false → totalOut tx.vout ≤ txundo.values.sum ∧
    txundo.values.sum ≤ maxMoney.toInt

section
variable {β : Type} [CCoinsView β] {S : ViewSpec β InRange} {u : Utxo}
  {b : UInt256} {env : ConnectEnv} {block : CBlock} {pindex : CBlockIndex} {O : Set COutPoint}

theorem triple_connectTransaction {tx : CTransaction} {totals : BlockTotals} (hwf : tx.WellFormed)
    (hO : ∀ j < tx.vout.length, ⟨tx.hash, ofNat j⟩ ∈ O)
    (hfree : tx.isCoinBase → FreeFrom u tx.hash 0 tx.vout.length) :
    Triple (Held S O u b) (connectTransaction env block pindex tx totals)
      (fun r view => ∃ u', AppliesTx InRange pindex.nHeight u tx r.2 u' ∧
        Pays tx r.2 ∧ Held S O u' b view)
      fun _ => True := by
  have houts : ∀ out ∈ tx.vout, out.isNull = false ∧
      InRange (.ofOut out pindex.nHeight tx.isCoinBase) :=
    fun out hmem => ⟨CTxOut.not_null_of_inRange (hwf.values out hmem), hwf.values out hmem⟩
  apply Triple.bind (looks_checkSigOps env)
  intro _
  apply of_pure
  intro _
  apply Triple.bind (looks_checkConnect env block)
  intro totals'
  apply of_pure
  intro hspendable
  apply (triple_viewCall (triple_held_updateCoins hwf.nodup
    (fun h => (hspendable h).1) hO houts hfree)).bind
  intro txundo
  apply Triple.pure
  rintro view ⟨u', happlies, htakes, hview⟩
  refine ⟨u', happlies, fun hcoinbase => ?_, hview⟩
  rw [htakes hcoinbase]
  exact (hspendable hcoinbase).2

variable (txs : List CTransaction)

theorem triple_connectLoop : ∀ (u : Utxo) (totals : BlockTotals), (∀ tx ∈ txs, tx.WellFormed) →
    (∀ tx ∈ txs.tail, tx.isCoinBase = false) →
    (∀ tx ∈ txs.head?, tx.isCoinBase → FreeFrom u tx.hash 0 tx.vout.length) →
    outpointsOf txs ⊆ O →
    Triple (Held S O u b) (connectLoop env block pindex txs totals)
      (fun r view => ∃ u', Applies InRange pindex.nHeight u txs r.2 u' ∧
        List.Forall₂ Pays txs r.2 ∧ Held S O u' b view)
      fun _ => True := by
  induction txs with
  | nil =>
    intro u totals _ _ _ _
    exact .pure fun _ hview =>
      ⟨u, .nil u, List.Forall₂.nil, hview⟩
  | cons tx rest ih =>
    intro u totals hwf hothers hfirst hO
    have hown : ∀ j < tx.vout.length, ⟨tx.hash, ofNat j⟩ ∈ O :=
      fun j hj => hO ⟨tx, mem_cons_self, j, hj, rfl⟩
    apply (triple_connectTransaction (hwf tx mem_cons_self) hown (hfirst tx rfl)).bind
    rintro ⟨totals', txundo⟩
    apply of_state
    rintro view ⟨u', happlies, hpays, hview⟩
    have hrest := ih u' totals' (fun tx' hmem => hwf tx' (mem_cons_of_mem _ hmem))
      (fun tx' hmem => hothers tx' (mem_of_mem_tail hmem))
      (fun tx' hmem h => absurd h (by simp [hothers tx' (mem_of_mem_head? hmem)]))
      fun o ⟨tx', hmem, hindex⟩ => hO ⟨tx', mem_cons_of_mem _ hmem, hindex⟩
    apply (hrest.at_state hview).bind
    rintro ⟨totals'', txundos⟩
    apply Triple.pure
    rintro view' ⟨u'', hlater, hall, hview'⟩
    exact ⟨u'', .cons happlies hlater, List.Forall₂.cons hpays hall, hview'⟩

theorem looks_haveOutputs {hash : UInt256} {remaining : ℕ} :
    ∀ o, Looks S O u b (haveOutputs hash remaining o) fun r => r = false →
      ∀ j, o ≤ j → j < o + remaining → u ⟨hash, ofNat j⟩ = none := by
  induction remaining with
  | zero => exact fun o => .pure fun _ j hle hlt => absurd hlt (by omega)
  | succ remaining ih =>
    intro o
    apply (looks_haveCoin _).bind
    rintro r rfl
    cases hcoin : u ⟨hash, ofNat o⟩ with
    | some coin => exact .pure (by simp)
    | none =>
      apply (ih (o + 1)).mono
      intro r hrest hr j hle hlt
      rcases Nat.eq_or_lt_of_le hle with rfl | hlater
      · exact hcoin
      · exact hrest hr j hlater (by omega)

theorem looks_checkBIP30Loop :
    Looks S O u b (checkBIP30Loop txs) fun _ => ∀ o ∈ outpointsOf txs, u o = none := by
  induction txs with
  | nil =>
    apply Looks.pure
    rintro o ⟨tx, hmem, -⟩
    cases hmem
  | cons tx rest ih =>
    apply (looks_haveOutputs 0).viewCall.bind
    intro r hnone
    cases r with
    | true => exact .throw
    | false =>
      apply ih.mono
      rintro _ hrest o ⟨tx', hmem, j, hj, rfl⟩
      rcases mem_cons.mp hmem with rfl | hmem
      · exact hnone rfl j (Nat.zero_le j) (by omega)
      · exact hrest _ ⟨tx', hmem, j, hj, rfl⟩

theorem looks_checkReward {nFees : CAmount} :
    Looks S O u b (checkReward env block pindex nFees : ConnectM β Unit) fun _ => True := by
  unfold checkReward
  split
  · exact .throw
  · dsimp only
    split
    · exact .throw
    · exact .throw
    · split_ifs
      · exact .throw
      · exact .pure True.intro

theorem triple_connectBlock (hgenesis : block.hash ≠ env.hashGenesisBlock)
    (hfree : enforceBIP30 env pindex ∨ ∀ o ∈ outpointsOf block.vtx, u o = none)
    (hcount : ∀ tx ∈ block.vtx, tx.vout.length ≤ 2 ^ 32) :
    Triple (Cached S u b) (connectBlock env block pindex)
      (fun r view => checkBlock env block = .ok () ∧ ∃ txundo u',
        Applies InRange pindex.nHeight u block.vtx (txundo :: r.vtxundo) u' ∧
        List.Forall₂ Pays block.vtx (txundo :: r.vtxundo) ∧
        Cached S u' pindex.hash view)
      fun _ => True := by
  -- Until the outpoints are known to be free, nothing is asked of the entries.
  have hheld : ∀ view, Cached S u b view → Held S ∅ u b view :=
    fun view hview => ⟨hview, fun _ ho => ho.elim⟩
  apply conseq _ hheld (fun _ _ h => h) fun _ h => h
  apply Triple.bind looks_liftCheck
  rintro ⟨⟩
  apply of_pure
  intro hcheck
  apply Triple.bind looks_getBestBlock.viewCall
  intro best
  apply of_pure
  intro _
  split_ifs
  · exact .throw fun _ _ => True.intro
  have hbip30 : Looks S ∅ u b (checkBIP30 env block pindex)
      fun _ => ∀ o ∈ outpointsOf block.vtx, u o = none := by
    unfold checkBIP30
    split_ifs with henforced
    · exact looks_checkBIP30Loop block.vtx
    · exact .pure (hfree.resolve_left henforced)
  apply bind hbip30
  intro _
  apply of_pure
  intro hnone
  obtain ⟨⟨coinbase, rest, hvtx, hcoinbase, hothers⟩, hwf⟩ := checkBlock_ok hcheck
  have hstart : ∀ view, Held S ∅ u b view → Held S (outpointsOf block.vtx) u b view :=
    fun view hview => ⟨hview.cached, fun o ho hsome =>
      absurd (hnone o ho) hsome⟩
  apply conseq _ hstart (fun _ _ h => h) fun _ h => h
  have hhead : ∀ tx ∈ block.vtx.head?, tx.isCoinBase → FreeFrom u tx.hash 0 tx.vout.length := by
    intro tx hmem _
    have htx := mem_of_mem_head? hmem
    have hle := hcount tx htx
    exact ⟨by omega, fun j _ hj => hnone _ ⟨tx, htx, j, by omega, rfl⟩⟩
  apply (triple_connectLoop block.vtx u ⟨0, 0⟩ hwf (by simpa [hvtx] using hothers)
    hhead subset_rfl).bind
  rintro ⟨totals, txundos⟩
  apply of_state
  rintro view ⟨u', happlies, hpays, hview⟩
  obtain ⟨txundo, rest', rfl⟩ : ∃ txundo rest', txundos = txundo :: rest' := by
    have hlength := happlies.length_eq
    rw [hvtx] at hlength
    exact exists_cons_of_length_eq_add_one hlength
  have hreward : Looks S (outpointsOf block.vtx) u' b
      (checkReward env block pindex totals.nFees) fun _ => True :=
    looks_checkReward
  apply (at_state hreward hview).bind
  intro _
  apply conseq _ (fun _ hkept => hkept.2.cached) (fun _ _ h => h) fun _ h => h
  apply (triple_viewCall (triple_setBestBlock pindex.hash_ne_zero)).bind
  intro _
  apply Triple.pure
  rintro view' ⟨-, hview'⟩
  exact ⟨hcheck, txundo, u', happlies, hpays, hview'⟩

end
end ImageCoin
