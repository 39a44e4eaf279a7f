import ImageCoin.DisconnectInverse

/-!
# Coins created inside a block

`AddCoin` notices that it would replace a coin of the cache, but does not look below the cache.
-/

namespace ImageCoin

open StateExcept CCoinsViewCache Function List
variable {overwrite : Bool}

/-! ## Entries stay in the cache -/

section
variable {ε α γ β : Type} (o : COutPoint)

def HasEntry (view : CCoinsViewCache β) : Prop :=
  (view.cacheCoins.lookup o).isSome

variable {e : CCoinsCacheEntry}

theorem HasEntry.insert {o o' : COutPoint} {m : CCoinsMap}
    (hentry : o' = o ∨ (m.lookup o').isSome) : ((m.insert o e).lookup o').isSome := by
  by_cases heq : o' = o
  · subst heq
    rw [AList.lookup_insert]
    rfl
  · rw [AList.lookup_insert_ne heq]
    exact hentry.resolve_left heq

/-- A computation that drops no entry of the cache but those of `except`. -/
def KeepsEntries (except : List COutPoint) (x : EStateM ε (CCoinsViewCache β) α) : Prop :=
  ∀ view, Triple (· = view) x (fun _ view' => ∀ o ∉ except, HasEntry o view → HasEntry o view')
    fun _ => True

variable {except : List COutPoint}

theorem KeepsEntries.pure (a : α) :
    KeepsEntries except (pure a : EStateM ε (CCoinsViewCache β) α) := by
  intro view
  apply Triple.pure
  rintro _ rfl o _ hentry
  exact hentry

open KeepsEntries

theorem KeepsEntries.modify {f : CCoinsViewCache β → CCoinsViewCache β}
    (hf : ∀ view, ∀ o ∉ except, HasEntry o view → HasEntry o (f view)) :
    KeepsEntries except (modify f : EStateM ε (CCoinsViewCache β) PUnit) := by
  intro view
  apply Triple.modify
  rintro _ rfl
  exact hf _

theorem KeepsEntries.throw (e : ε) :
    KeepsEntries except (throw e : EStateM ε (CCoinsViewCache β) α) :=
  fun _ => .throw fun _ _ => True.intro

variable {x : EStateM ε (CCoinsViewCache β) α} {k : α → EStateM ε (CCoinsViewCache β) γ}

theorem KeepsEntries.bind (hx : KeepsEntries except x)
    (hk : ∀ a, KeepsEntries except (k a)) : KeepsEntries except (x >>= k) := by
  intro view
  apply (hx view).bind
  intro a
  apply Triple.of_state
  intro mid hmid
  apply (hk a mid).conseq (fun _ h => h) _ fun _ h => h
  exact fun _ _ hlast o ho hentry => hlast o ho (hmid o ho hentry)

theorem KeepsEntries.mono {except' : List COutPoint} (hx : KeepsEntries except x)
    (hsub : except ⊆ except') : KeepsEntries except' x := by
  intro view
  apply (hx view).conseq (fun _ h => h) _ fun _ h => h
  exact fun _ _ hkept o ho => hkept o fun hmem => ho (hsub hmem)

theorem keepsEntries_setEntry : KeepsEntries except (setEntry o e : CacheM β Unit) :=
  modify fun _ _ _ hentry => .insert (.inr hentry)

variable (coin : Coin)

theorem keepsEntries_addUsage : KeepsEntries except (addUsage coin : CacheM β Unit) :=
  modify fun _ _ _ hentry => hentry

theorem keepsEntries_subUsage : KeepsEntries except (subUsage coin : CacheM β Unit) :=
  modify fun _ _ _ hentry => hentry

theorem keepsEntries_setBestBlock (hashBlock : UInt256) :
    KeepsEntries except (setBestBlock hashBlock : CacheM β Unit) :=
  modify fun _ _ _ hentry => hentry

theorem keepsEntries_clearEntry : KeepsEntries [o] (clearEntry o e : CacheM β Unit) := by
  unfold clearEntry
  split_ifs
  · apply KeepsEntries.modify
    intro view o' ho' hentry
    unfold HasEntry
    rw [AList.lookup_erase_ne (by simpa using ho')]
    exact hentry
  · exact keepsEntries_setEntry _

theorem keepsEntries_onBase {call : EStateM CoinsError β α} :
    KeepsEntries except (onBase call) := by
  intro view
  have hcall : Triple (fun _ => True) call (fun _ _ => True) fun _ => True :=
    Triple.trivial
  apply (triple_onBase hcall True.intro).conseq (fun _ h => h) _ fun _ h => h
  rintro a view' ⟨hsame, -⟩ o _ hentry
  rw [hsame]
  exact hentry

theorem keepsEntries_addCoin : KeepsEntries except (addCoin o coin overwrite : CacheM β Unit) := by
  unfold addCoin
  split_ifs
  · exact .throw _
  · exact .pure _
  · intro view
    apply Triple.get_bind
    rintro _ rfl
    apply bind (keepsEntries_subUsage _)
    intro _
    split_ifs
    · exact .throw _
    · exact (keepsEntries_setEntry _).bind fun _ => keepsEntries_addUsage _

variable {view : CCoinsViewCache β}

theorem triple_addCoin_hasEntry {o : COutPoint} {coin : Coin} :
    Triple (· = view) (addCoin o coin overwrite)
      (fun _ view' => isUnspendable coin.out.scriptPubKey = false → HasEntry o view')
      fun _ => True := by
  unfold addCoin
  split_ifs with hspent hscript
  · exact .throw fun _ _ => True.intro
  · exact .pure fun _ _ hspendable => absurd hspendable (by simp [hscript])
  · apply Triple.get_bind
    rintro start -
    apply Triple.trivial.bind
    intro _
    split_ifs
    · exact .throw fun _ _ => True.intro
    · have hset : ∀ e, Triple (fun _ => True) (setEntry o e : CacheM β Unit)
          (fun _ view' => HasEntry o view') fun _ => True :=
        fun e => .modify fun _ _ => .insert (.inl rfl)
      apply (hset _).bind
      exact fun _ => .modify fun _ hentry _ => hentry

variable [CCoinsView β]

theorem keepsEntries_fetchCoin : KeepsEntries except (fetchCoin o : CacheM β _) := by
  intro start
  apply Triple.get_bind
  rintro view rfl
  cases view.cacheCoins.lookup o with
  | some entry => exact pure _ view
  | none =>
    apply bind keepsEntries_onBase
    intro r
    cases r with
    | none => exact .pure _
    | some tmp =>
      apply (keepsEntries_setEntry _).bind
      exact fun _ => (keepsEntries_addUsage _).bind fun _ =>
        pure _

theorem keepsEntries_haveCoin : KeepsEntries except (haveCoin o : CacheM β Bool) :=
  (keepsEntries_fetchCoin o).bind fun r => by
    cases r <;> exact .pure _

theorem keepsEntries_accessCoin : KeepsEntries except (accessCoin o : CacheM β Coin) :=
  (keepsEntries_fetchCoin o).bind fun r => by
    cases r <;> exact .pure _

theorem keepsEntries_getBestBlock : KeepsEntries except (getBestBlock : CacheM β UInt256) := by
  intro start
  apply Triple.get_bind
  rintro view rfl
  split_ifs
  · apply bind keepsEntries_onBase
    exact fun _ => (keepsEntries_setBestBlock _).bind fun _ =>
      pure _
  · exact pure _ view

theorem keepsEntries_spendCoin : KeepsEntries [o] (spendCoin o : CacheM β _) := by
  apply (keepsEntries_fetchCoin o).bind
  intro r
  cases r with
  | none => exact .pure _
  | some entry =>
    apply (keepsEntries_subUsage _).bind
    exact fun _ => (keepsEntries_clearEntry o).bind fun _ =>
      pure _

theorem keepsEntries_spendInputs {vin : List CTxIn} :
    KeepsEntries (vin.map CTxIn.prevout) (spendInputs vin : CacheM β _) := by
  induction vin with
  | nil => exact .pure _
  | cons txin rest ih =>
    apply ((keepsEntries_spendCoin txin.prevout).mono (by simp)).bind
    intro r
    cases r with
    | none => exact .throw _
    | some coin =>
      apply (ih.mono (by simp)).bind
      exact fun _ => .pure _

end

section
variable {ε α γ β : Type} [CCoinsView β] {P : Coin → Prop} (S : ViewSpec β P)
  (O : Set COutPoint) (u : Utxo) (b : UInt256)

/-- The view shows the coins `u`, and those at the outpoints `O` are in the
cache itself. -/
structure Held (view : CCoinsViewCache β) : Prop where
  cached : Cached S u b view
  entry : ∀ o ∈ O, u o ≠ none → HasEntry o view

def Looks (x : EStateM ε (CCoinsViewCache β) α) (q : α → Prop) : Prop :=
  Triple (Held S O u b) x (fun r view => q r ∧ Held S O u b view) fun _ => True

variable {S O u b} {x : EStateM ε (CCoinsViewCache β) α} {q : α → Prop}

theorem Looks.of_cached {err : CCoinsViewCache β → Prop}
    (hx : Triple (Cached S u b) x (fun r view => q r ∧ Cached S u b view) err)
    (hkeeps : KeepsEntries [] x) : Looks S O u b x q := by
  apply Triple.of_state
  intro view hview
  apply ((hx.at_state hview.cached).and (hkeeps view)).conseq (fun _ h => h) _ fun _ _ => True.intro
  rintro r view' ⟨⟨hq, hview'⟩, hkept⟩
  exact ⟨hq, hview', fun o ho hsome =>
    hkept o (by simp) (hview.entry o ho hsome)⟩

theorem Looks.pure {a : α} (hq : q a) :
    Looks S O u b (pure a : EStateM ε (CCoinsViewCache β) α) q :=
  Triple.pure fun _ hview => ⟨hq, hview⟩

theorem Looks.throw {e : ε} : Looks S O u b (throw e : EStateM ε (CCoinsViewCache β) α) q :=
  Triple.throw fun _ _ => True.intro

theorem Looks.bind {p : α → Prop} {q : γ → Prop}
    (hx : Looks S O u b x p) (hk : ∀ a, p a → Looks S O u b (k a) q) : Looks S O u b (x >>= k) q :=
  Triple.bind hx fun a => .of_pure (hk a)

theorem Looks.mono {p q : α → Prop}
    (hx : Looks S O u b x p) (hpq : ∀ a, p a → q a) : Looks S O u b x q :=
  Triple.conseq hx (fun _ h => h) (fun a _ h => ⟨hpq a h.1, h.2⟩) fun _ h => h

variable (o : COutPoint)

theorem looks_haveCoin : Looks S O u b (haveCoin o) fun r => r = (u o).isSome :=
  Looks.of_cached (triple_haveCoin o) (keepsEntries_haveCoin o)

theorem looks_accessCoin : Looks S O u b (accessCoin o) fun r => r.live = u o :=
  Looks.of_cached (triple_accessCoin o) (keepsEntries_accessCoin o)

theorem looks_getBestBlock : Looks S O u b (getBestBlock : CacheM β UInt256) fun r => r = b :=
  Looks.of_cached triple_getBestBlock keepsEntries_getBestBlock

end

/-! ## Updating coins -/

def coinValue : Option Coin → ℤ
  | none => 0
  | some coin => coin.out.nValue.toInt

def inputValue (u : Utxo) (vin : List CTxIn) : ℤ :=
  (vin.map fun txin => coinValue (u txin.prevout)).sum

section
variable {β : Type} [CCoinsView β] {P : Coin → Prop} {S : ViewSpec β P}
  {O : Set COutPoint} {b : UInt256} {u : Utxo} {o : COutPoint} {coin : Coin}

theorem triple_addCoin_throws {c : Coin} (hview : Cached S u b view)
    (hentry : HasEntry o view) (hcoin : u o = some c)
    (hscript : isUnspendable coin.out.scriptPubKey = false) {ok : Unit → CCoinsViewCache β → Prop} :
    Triple (· = view) (addCoin o coin false) ok fun _ => True := by
  obtain ⟨e, he⟩ := Option.isSome_iff_exists.mp hentry
  have hlive : e.coin.isSpent = false := by
    rw [hview.coin_of_entry he] at hcoin
    cases hspent : e.coin.isSpent with
    | false => rfl
    | true =>
      rw [Coin.live_eq_none.mpr hspent] at hcoin
      cases hcoin
  unfold addCoin
  split_ifs with hspent
  · exact .throw fun _ _ => True.intro
  · exact absurd hscript (by simp_all)
  · apply Triple.get_bind
    rintro _ rfl
    apply Triple.trivial.bind
    intro _
    rw [he, Option.getD_some, hlive]
    exact .throw fun _ _ => True.intro

theorem triple_held_addCoin (ho : o ∈ O) (hunspent : coin.isSpent = false)
    (hcoin : P coin) (hfree : overwrite → u o = none) :
    Triple (Held S O u b) (addCoin o coin overwrite) (fun _ view =>
        (isUnspendable coin.out.scriptPubKey = false → u o = none) ∧ Held S O (u.add o coin) b view)
      fun _ => True := by
  apply Triple.of_state
  intro view hview
  by_cases habsent : isUnspendable coin.out.scriptPubKey = false → u o = none
  · have hcached : Triple (· = view) (addCoin o coin overwrite)
        (fun _ => Cached S (u.add o coin) b) fun _ => False :=
      (triple_addCoin hunspent (fun _ => hcoin) fun h _ => habsent h).at_state hview.cached
    have hkeeps : KeepsEntries [] (addCoin o coin overwrite : CacheM β Unit) :=
      keepsEntries_addCoin o coin
    apply ((hcached.and (hkeeps view)).and triple_addCoin_hasEntry).conseq
      (fun _ h => h) _ fun _ _ => True.intro
    rintro _ view' ⟨⟨hview', hkept⟩, hown⟩
    refine ⟨habsent, hview', fun o' ho' hsome => ?_⟩
    unfold Utxo.add at hsome
    split_ifs at hsome with hscript
    · exact hkept o' not_mem_nil (hview.entry o' ho' hsome)
    · by_cases heq : o' = o
      · subst heq
        exact hown (by simpa using hscript)
      · rw [update_of_ne heq] at hsome
        exact hkept o' not_mem_nil (hview.entry o' ho' hsome)
  · obtain ⟨hscript, hsome⟩ := Classical.not_imp.mp habsent
    obtain ⟨c, hc⟩ := Option.ne_none_iff_exists'.mp hsome
    cases overwrite with
    | true => exact absurd (hfree rfl) hsome
    | false =>
      exact triple_addCoin_throws hview.cached (hview.entry o ho hsome) hc hscript

/-- None of the outputs from `i` on has a coin, and their indices do not wrap. -/
def FreeFrom (u : Utxo) (hash : UInt256) (i count : ℕ) : Prop :=
  i + count ≤ 2 ^ 32 ∧ ∀ j, i ≤ j → j < i + count → u ⟨hash, UInt32.ofNat j⟩ = none

theorem FreeFrom.add {hash : UInt256} {i count : ℕ} (hfree : FreeFrom u hash i (count + 1)) :
    FreeFrom (u.add ⟨hash, UInt32.ofNat i⟩ coin) hash (i + 1) count := by
  obtain ⟨hbound, hnone⟩ := hfree
  refine ⟨by omega, fun j hj hlt => ?_⟩
  have hne : (⟨hash, UInt32.ofNat j⟩ : COutPoint) ≠ ⟨hash, UInt32.ofNat i⟩ := by
    intro heq
    have hindex := congrArg (fun o : COutPoint => o.n.toNat) heq
    simp only [UInt32.toNat_ofNat'] at hindex
    omega
  unfold Utxo.add
  split_ifs
  · exact hnone j (by omega) (by omega)
  · rw [update_of_ne hne]
    exact hnone j (by omega) (by omega)

variable {nHeight : ℕ}

theorem triple_held_addCoinsLoop {hash : UInt256} {fCoinbase : Bool} (outs : List CTxOut) :
    ∀ (i : ℕ) (u : Utxo), (∀ j < i + outs.length, ⟨hash, UInt32.ofNat j⟩ ∈ O) →
      (∀ out ∈ outs, out.isNull = false ∧ P (Coin.ofOut out nHeight fCoinbase)) →
      (fCoinbase → FreeFrom u hash i outs.length) →
      Triple (Held S O u b) (addCoinsLoop hash nHeight fCoinbase i outs)
        (fun _ view => ∃ u', Creates P hash nHeight fCoinbase u i outs u' ∧ Held S O u' b view)
        fun _ => True := by
  induction outs with
  | nil =>
    intro i u _ _ _
    exact .pure fun _ hview => ⟨u, .nil u i, hview⟩
  | cons out rest ih =>
    intro i u hO houts hfree
    obtain ⟨hnull, hcoin⟩ := houts out mem_cons_self
    have hunspent : (Coin.ofOut out nHeight fCoinbase).isSpent = false := hnull
    have hhere : fCoinbase → u ⟨hash, UInt32.ofNat i⟩ = none :=
      fun h => (hfree h).2 i le_rfl (by simp)
    apply (triple_held_addCoin (hO i (by simp)) hunspent hcoin hhere).bind
    intro _
    apply Triple.of_pure
    intro hnew
    have hO' : ∀ j < i + 1 + rest.length, ⟨hash, UInt32.ofNat j⟩ ∈ O := by
      intro j hj
      apply hO
      simp only [length_cons]
      omega
    apply (ih (i + 1) _ hO' (fun out' hmem => houts out'
      (mem_cons_of_mem _ hmem)) fun h => (hfree h).add).conseq (fun _ h => h) _ fun _ h => h
    rintro _ view ⟨u', hcreates, hview⟩
    exact ⟨u', .cons hnull (fun _ => hcoin) hnew hcreates, hview⟩

variable {vin : List CTxIn}

theorem inputValue_update (ho : o ∉ vin.map CTxIn.prevout) :
    inputValue (update u o none) vin = inputValue u vin := by
  unfold inputValue
  congr 1
  apply map_congr_left
  intro txin hmem
  rw [update_of_ne]
  rintro rfl
  exact ho (mem_map_of_mem hmem)

def CTxUndo.values (txundo : CTxUndo) : List ℤ :=
  txundo.vprevout.map fun coin => coin.out.nValue.toInt

theorem exists_spends : ∀ u : Utxo, (vin.map CTxIn.prevout).Nodup →
    (∀ txin ∈ vin, u txin.prevout ≠ none) →
    ∃ coins mid, Spends u vin coins mid ∧ (CTxUndo.values ⟨coins⟩).sum = inputValue u vin ∧
      ∀ o, mid o ≠ none → u o ≠ none ∧ o ∉ vin.map CTxIn.prevout := by
  induction vin with
  | nil =>
    intro u _ _
    exact ⟨[], u, .nil u, rfl, fun o ho => ⟨ho, by simp⟩⟩
  | cons txin rest ih =>
    intro u hnodup hpresent
    rw [map_cons, nodup_cons] at hnodup
    obtain ⟨coin, hcoin⟩ := Option.ne_none_iff_exists'.mp (hpresent txin mem_cons_self)
    have hrest : ∀ txin' ∈ rest, update u txin.prevout none txin'.prevout ≠ none := by
      intro txin' hmem
      rw [update_of_ne]
      · exact hpresent txin' (mem_cons_of_mem _ hmem)
      · intro heq
        exact hnodup.1 (heq ▸ mem_map_of_mem hmem)
    obtain ⟨coins, mid, hspends, hvalue, hkept⟩ := ih _ hnodup.2 hrest
    refine ⟨coin :: coins, mid, .cons hcoin hspends, ?_, ?_⟩
    · rw [inputValue_update hnodup.1] at hvalue
      simp only [CTxUndo.values, map_cons, sum_cons] at hvalue ⊢
      rw [hvalue, inputValue, inputValue, map_cons, hcoin]
      rfl
    · intro o ho
      obtain ⟨hsome, hnot⟩ := hkept o ho
      have hne : o ≠ txin.prevout := by
        rintro rfl
        exact hsome (update_self ..)
      rw [update_of_ne hne] at hsome
      exact ⟨hsome, by simp [hne, hnot]⟩

def TakesIn (u : Utxo) (tx : CTransaction) (txundo : CTxUndo) : Prop :=
  tx.isCoinBase = false → txundo.values.sum = inputValue u tx.vin

variable {tx : CTransaction}

theorem triple_held_markInputsSpent (hnodup : (tx.vin.map CTxIn.prevout).Nodup)
    (hpresent : tx.isCoinBase = false → ∀ txin ∈ tx.vin, u txin.prevout ≠ none) :
    Triple (Held S O u b) (markInputsSpent tx) (fun coins view => ∃ mid,
        (if tx.isCoinBase then coins = [] ∧ mid = u
          else Spends u tx.vin coins mid) ∧
        TakesIn u tx ⟨coins⟩ ∧ Held S O mid b view)
      fun _ => True := by
  unfold markInputsSpent TakesIn
  cases hcoinbase : tx.isCoinBase with
  | true => exact .pure fun _ hview => ⟨u, by simp, by simp, hview⟩
  | false =>
    obtain ⟨coins, mid, hspends, hvalue, hkept⟩ :=
      exists_spends u hnodup (hpresent hcoinbase)
    apply Triple.of_state
    intro view hview
    have hcached := (triple_spendInputs hspends).at_state hview.cached
    apply (hcached.and (keepsEntries_spendInputs view)).conseq
      (fun _ h => h) _ fun _ _ => True.intro
    rintro _ view' ⟨⟨rfl, hview'⟩, hentries⟩
    refine ⟨mid, by simpa using hspends, fun _ => hvalue, hview', ?_⟩
    intro o ho hsome
    obtain ⟨hbefore, hnot⟩ := hkept o hsome
    exact hentries o hnot (hview.entry o ho hbefore)

theorem triple_held_updateCoins (hnodup : (tx.vin.map CTxIn.prevout).Nodup)
    (hpresent : tx.isCoinBase = false → ∀ txin ∈ tx.vin, u txin.prevout ≠ none)
    (hO : ∀ j < tx.vout.length, ⟨tx.hash, UInt32.ofNat j⟩ ∈ O)
    (houts : ∀ out ∈ tx.vout, out.isNull = false ∧ P (Coin.ofOut out nHeight tx.isCoinBase))
    (hfree : tx.isCoinBase → FreeFrom u tx.hash 0 tx.vout.length) :
    Triple (Held S O u b) (updateCoins tx nHeight)
      (fun txundo view => ∃ u', AppliesTx P nHeight u tx txundo u' ∧
        TakesIn u tx txundo ∧ Held S O u' b view)
      fun _ => True := by
  apply (triple_held_markInputsSpent hnodup hpresent).bind
  intro coins
  apply Triple.of_state
  rintro view ⟨mid, hspent, htakes, hview⟩
  have hmid : tx.isCoinBase → FreeFrom mid tx.hash 0 tx.vout.length := by
    intro hcoinbase
    rw [if_pos hcoinbase] at hspent
    rw [hspent.2]
    exact hfree hcoinbase
  have hadd := triple_held_addCoinsLoop (S := S) (b := b) tx.vout 0 mid
    (by simpa using hO) houts hmid
  apply (hadd.at_state hview).bind
  intro _
  apply Triple.pure
  rintro view' ⟨u', hcreates, hview'⟩
  exact ⟨u', ⟨mid, hspent, hcreates⟩, htakes, hview'⟩

end

/-! ## Undo over an unspent coin -/

section
variable {β : Type} {view : CCoinsViewCache β}

def overwriteError : CoinsError :=
  .logicError "Adding new coin that replaces non-pruned entry"

def withState {ε σ α : Type} (s : σ) : Except ε α → EStateM.Result ε σ α
  | .ok a => .ok a s
  | .error e => .error e s

theorem addCoin_result (o : COutPoint) (coin : Coin) (overwrite : Bool) :
    ∃ view', addCoin o coin overwrite view = withState view' (
      if coin.isSpent then .error (.assertFailed "!coin.IsSpent()")
      else if isUnspendable coin.out.scriptPubKey || overwrite ||
          ((view.cacheCoins.lookup o).getD {}).coin.isSpent then .ok ()
      else .error overwriteError) := by
  cases hspent : coin.isSpent with
  | true => exact ⟨view, by rw [addCoin, if_pos hspent]; rfl⟩
  | false =>
    cases hscript : isUnspendable coin.out.scriptPubKey with
    | true => exact ⟨view, by rw [addCoin, hspent, hscript]; rfl⟩
    | false =>
      have hget : ∀ k : CCoinsViewCache β → CacheM β Unit, (get >>= k) view = k view view :=
        fun _ => rfl
      have hsub : ∀ (c : Coin) (k : Unit → CacheM β Unit), ∃ view', (subUsage c >>= k) view =
          k () view' := fun _ _ => ⟨_, rfl⟩
      rw [addCoin, hspent, hscript, if_neg Bool.false_ne_true, if_neg Bool.false_ne_true, hget]
      obtain ⟨view', hview'⟩ := hsub ((view.cacheCoins.lookup o).getD {}).coin _
      rw [hview']
      cases hentry : ((view.cacheCoins.lookup o).getD {}).coin.isSpent <;> cases overwrite <;>
        exact ⟨_, rfl⟩

variable [CCoinsView β]

theorem keepsEntries_undoMetadata (undo : Coin) (out : COutPoint) :
    KeepsEntries [] (undoMetadata undo out : CacheM β _) := by
  have hloop : ∀ remaining n,
      KeepsEntries [] (accessByTxidLoop out.hash remaining n : CacheM β _) := by
    intro remaining
    induction remaining with
    | zero => exact fun _ => .pure _
    | succ remaining ih =>
      intro n
      apply (keepsEntries_accessCoin _).bind
      intro alternate
      split_ifs
      · exact ih _
      · exact .pure _
  unfold undoMetadata
  split_ifs
  · apply (hloop _ 0).bind
    intro alternate
    split_ifs <;> exact .pure _
  · exact .pure _

variable {P : Coin → Prop} {S : ViewSpec β P} {u : Utxo} {b : UInt256}

theorem Cached.entry_isSpent (hview : Cached S u b view) {o : COutPoint}
    (hentry : u o ≠ none → HasEntry o view) :
    ((view.cacheCoins.lookup o).getD {}).coin.isSpent = (u o).isNone := by
  cases hlookup : view.cacheCoins.lookup o with
  | none =>
    have hnone : u o = none := by
      by_contra hsome
      simpa [HasEntry, hlookup] using hentry hsome
    rw [hnone]
    rfl
  | some e =>
    rw [hview.coin_of_entry hlookup]
    cases hspent : e.coin.isSpent <;> simp [Coin.live, hspent]

/-- What `ApplyTxInUndo` returns or throws over a view that shows `u`. -/
def undoOutcome (u : Utxo) (undo : Coin) (out : COutPoint) : Except CoinsError DisconnectResult :=
  match recoverMetadata u undo out with
  | none => .ok .failed
  | some coin =>
    if coin.isSpent then .error (.assertFailed "!coin.IsSpent()")
    else if isUnspendable coin.out.scriptPubKey || coin.fCoinBase || (u out).isNone then
      .ok (if (u out).isSome then .unclean else .ok)
    else .error overwriteError

theorem applyTxInUndo_result (hview : Cached S u b view) (undo : Coin) (out : COutPoint) :
    ∃ view', haveCoin out view = .ok (u out).isSome view' ∧
      ∃ view'', applyTxInUndo undo out view = withState view'' (undoOutcome u undo out) := by
  -- The lookup brings the coin at `out` into the cache, and it stays there.
  obtain ⟨r, view₁, hfetch, hr, hlookup, hview₁⟩ := (triple_fetchCoin out).exists_ok hview
  have hhave : haveCoin out view = .ok (u out).isSome view₁ := by
    obtain ⟨a, s, hrun, rfl, -⟩ := (triple_haveCoin out).exists_ok hview
    have hstate : haveCoin out view = .ok (r.elim false (!·.coin.isSpent)) view₁ := by
      cases r <;> simp [haveCoin, bind, EStateM.bind, hfetch] <;> rfl
    rw [hrun] at hstate ⊢
    injection hstate with _ hs
    rw [hs]
  obtain ⟨m, view₂, hmetadata, rfl, hview₂⟩ := (triple_undoMetadata undo out).exists_ok hview₁
  have hentry : u out ≠ none → HasEntry out view₂ := by
    intro hsome
    have hkeeps := keepsEntries_undoMetadata undo out view₁ view₁ rfl
    rw [hmetadata] at hkeeps
    apply hkeeps out not_mem_nil
    rw [HasEntry, hlookup]
    exact Option.isSome_iff_ne_none.mpr fun hnone => hsome (hr hnone)
  refine ⟨view₁, hhave, ?_⟩
  simp only [applyTxInUndo, bind, EStateM.bind, hhave, hmetadata, undoOutcome]
  cases recoverMetadata u undo out with
  | none => exact ⟨view₂, rfl⟩
  | some coin =>
    obtain ⟨view₃, hadd⟩ := @addCoin_result _ view₂ out coin coin.fCoinBase
    rw [hview₂.entry_isSpent hentry] at hadd
    refine ⟨view₃, ?_⟩
    simp only [EStateM.bind, hadd]
    split_ifs <;> rfl

/-- The permission to overwrite is the coinbase flag of the coin and not the result of the
lookup. -/
theorem applyTxInUndo_reported_iff (cache : CoherentCache S) (undo : Coin) (out : COutPoint) :
    ((∀ view', haveCoin out cache.view = .ok true view' →
        ∃ view'', applyTxInUndo undo out cache.view = .ok .unclean view'') ∧
      ∀ view'', applyTxInUndo undo out cache.view ≠ .error overwriteError view'') ↔
    (cache.coins out ≠ none → ∃ coin, recoverMetadata cache.coins undo out = some coin ∧
      coin.isSpent = false ∧
      (isUnspendable coin.out.scriptPubKey ∨ coin.fCoinBase)) := by
  have hview : Cached S cache.coins (cacheBest S cache.view) cache.view :=
    ⟨cache.coherent, rfl, rfl⟩
  obtain ⟨view₁, hhave, view₂, hrun⟩ := applyTxInUndo_result hview undo out
  rw [hhave, hrun, undoOutcome]
  cases hout : cache.coins out with
  | none =>
    cases recoverMetadata cache.coins undo out with
    | none => simp [withState]
    | some coin => cases hspent : coin.isSpent <;> simp [withState, hspent, overwriteError]
  | some c =>
    cases recoverMetadata cache.coins undo out with
    | none => simp [withState]
    | some coin =>
      cases hspent : coin.isSpent <;>
        cases hscript : isUnspendable coin.out.scriptPubKey <;>
        cases hcoinbase : coin.fCoinBase <;>
        simp [withState, hspent, hscript, hcoinbase]

/-- The coin to restore is still unspent, and the cache refuses to overwrite it. -/
theorem applyTxInUndo_throws :
    (∃ view', haveCoin ⟨7, 0⟩ (singleCoinCache 1).view = .ok true view') ∧
      ∃ view', applyTxInUndo (singleCoin 1) ⟨7, 0⟩ (singleCoinCache 1).view =
        .error overwriteError view' :=
  ⟨⟨_, rfl⟩, _, rfl⟩

end
end ImageCoin
