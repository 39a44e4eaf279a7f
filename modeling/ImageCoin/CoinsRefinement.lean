import ImageCoin.Coins
import ImageCoin.WriteBack

/-!
# Caches refine a flat map of coins

A view shows a map from outpoints to unspent coins.  `ViewSpec` says what the four virtual
methods do to that map; a cache over a view that meets it meets it again, so it holds for
stacks of any depth.
-/

namespace ImageCoin

open StateExcept WriteBack CCoinsViewCache Function Triple
variable {coin : Coin} {o : COutPoint} {e : CCoinsCacheEntry} {overwrite : Bool}

abbrev Utxo := COutPoint → Option Coin

def Coin.live (coin : Coin) : Option Coin :=
  if coin.isSpent then none else some coin

open Coin

theorem Coin.live_of_unspent (hcoin : coin.isSpent = false) : coin.live = some coin := by
  simp [live, hcoin]

theorem Coin.eq_of_live {coin c : Coin} (hlive : coin.live = some c) : coin = c := by
  unfold live at hlive
  split_ifs at hlive
  exact Option.some_inj.mp hlive

theorem Coin.live_eq_none : coin.live = none ↔ coin.isSpent := by
  simp [live]

def CCoinsCacheEntry.abs (e : CCoinsCacheEntry) : Entry Coin :=
  ⟨e.coin.live, e.dirty, e.fresh⟩

def CCoinsMap.entryAt (m : CCoinsMap) (o : COutPoint) : Option (Entry Coin) :=
  (m.lookup o).map (·.abs)

open CCoinsMap

theorem CCoinsMap.entryAt_insert (m : CCoinsMap) (o : COutPoint) (e : CCoinsCacheEntry) :
    entryAt (m.insert o e) = update (entryAt m) o (some e.abs) := by
  funext o'
  by_cases h : o' = o
  · subst h
    simp [entryAt]
  · simp [entryAt, h]

theorem CCoinsMap.entryAt_erase (m : CCoinsMap) (o : COutPoint) :
    entryAt (m.erase o) = update (entryAt m) o none := by
  funext o'
  by_cases h : o' = o
  · subst h
    simp [entryAt]
  · simp [entryAt, h]

def overlay (m : CCoinsMap) (u : Utxo) : Utxo :=
  fun o => seen (m.entryAt o) (u o)

def applyEntries (l : List (Sigma fun _ : COutPoint => CCoinsCacheEntry)) (u : Utxo) : Utxo :=
  fun o => written ((l.dlookup o).map (·.abs)) (u o)

variable {rest : List (Sigma fun _ : COutPoint => CCoinsCacheEntry)} {child : CCoinsCacheEntry}

theorem applyEntries_cons (hnew : o ∉ rest.keys) {u : Utxo} :
    applyEntries (⟨o, child⟩ :: rest) u = applyEntries rest
        (update u o (written (some child.abs) (u o))) := by
  funext o'
  by_cases hne : o' = o
  · subst hne
    simp [applyEntries, List.dlookup_eq_none.mpr hnew]
  · have hskip : List.dlookup o' (⟨o, child⟩ :: rest) = rest.dlookup o' :=
      List.dlookup_cons_ne rest (⟨o, child⟩ : Sigma fun _ : COutPoint => CCoinsCacheEntry) hne
    rw [applyEntries, applyEntries, hskip, update_of_ne hne]

def applyBatch (m : CCoinsMap) (u : Utxo) : Utxo := applyEntries m.entries u

/-- Entries that may be written over `u`: the fresh ones have nothing below
them. -/
def EntriesOk (P : Coin → Prop)
    (l : List (Sigma fun _ : COutPoint => CCoinsCacheEntry)) (u : Utxo) : Prop :=
  ∀ o e, ⟨o, e⟩ ∈ l → e.dirty → (e.fresh → u o = none) ∧ ∀ c ∈ e.coin.live, P c

theorem EntriesOk.tail {P : Coin → Prop} {u : Utxo} (hentries : EntriesOk P (⟨o, child⟩ :: rest) u)
    (hnew : o ∉ rest.keys) (x : Option Coin) : EntriesOk P rest (update u o x) := by
  intro o' e he hdirty
  have hne : o' ≠ o := by
    rintro rfl
    exact hnew (List.mem_keys_of_mem he)
  rw [update_of_ne hne]
  exact hentries o' e (List.mem_cons_of_mem _ he) hdirty

def BatchOk (P : Coin → Prop) (m : CCoinsMap) (u : Utxo) : Prop :=
  EntriesOk P m.entries u

section
variable {σ : Type}

/-- The state meets the invariant, shows the coins `u` and has best block
`b`. -/
def Shows (Inv : σ → Prop) (coins : σ → Utxo) (best : σ → UInt256) (u : Utxo)
    (b : UInt256) (view : σ) : Prop :=
  Inv view ∧ coins view = u ∧ best view = b

/-- What a view is for: it shows a map of coins and a best block, reading changes neither, and a
batch is written on top. -/
structure ViewSpec (σ : Type) [CCoinsView σ] (P : Coin → Prop) where
  Inv : σ → Prop
  coins : σ → Utxo
  best : σ → UInt256
  unspent : ∀ {c}, P c → c.isSpent = false
  coins_ok : ∀ {view}, Inv view → ∀ o c, coins view o = some c → P c
  getCoin_spec : ∀ u b o, Triple (Shows Inv coins best u b) (CCoinsView.getCoin o)
      (fun r view => r = u o ∧ Shows Inv coins best u b view) fun _ => False
  haveCoin_spec : ∀ u b o, Triple (Shows Inv coins best u b) (CCoinsView.haveCoin o)
      (fun r view => r = (u o).isSome ∧ Shows Inv coins best u b view)
      fun _ => False
  getBestBlock_spec : ∀ u b, Triple (Shows Inv coins best u b) CCoinsView.getBestBlock
      (fun r view => r = b ∧ Shows Inv coins best u b view) fun _ => False
  batchWrite_spec : ∀ u b m h, BatchOk P m u →
    Triple (Shows Inv coins best u b) (CCoinsView.batchWrite m h) (fun r view => r ∧
        ∃ b', (h ≠ 0 → b' = h) ∧ Shows Inv coins best (applyBatch m u) b' view)
      fun _ => False

end

/-! ## Primitive steps of a cache -/

section
variable {β α : Type}

def Reached (view : CCoinsViewCache β) (m : CCoinsMap) (view' : CCoinsViewCache β) : Prop :=
  view'.base = view.base ∧ view'.hashBlock = view.hashBlock ∧ view'.cacheCoins = m

variable {view : CCoinsViewCache β} {m : CCoinsMap} {err : CCoinsViewCache β → Prop}

theorem triple_of_reached {x : CacheM β α} {ok : α → CCoinsViewCache β → Prop}
    (hx : Triple (Reached view view.cacheCoins) x ok err) : Triple (· = view) x ok err := by
  rintro _ rfl
  exact hx _ ⟨rfl, rfl, rfl⟩

theorem triple_addUsage : Triple (Reached view m) (addUsage coin) (fun _ => Reached view m) err :=
  modify fun _ hview => hview

theorem triple_subUsage : Triple (Reached view m) (subUsage coin) (fun _ => Reached view m) err :=
  modify fun _ hview => hview

theorem triple_setEntry :
    Triple (Reached view m) (setEntry o e) (fun _ => Reached view (m.insert o e)) err :=
  modify fun _ hview =>
    ⟨hview.1, hview.2.1, by rw [← hview.2.2]⟩

theorem triple_eraseEntry : Triple (Reached view m) (eraseEntry o)
    (fun _ => Reached view (m.erase o)) err :=
  modify fun _ hview =>
    ⟨hview.1, hview.2.1, by rw [← hview.2.2]⟩

theorem triple_onBase {call : EStateM CoinsError β α} {pre : β → Prop}
    {ok : α → β → Prop} {err : β → Prop} (hcall : Triple pre call ok err) (hpre : pre view.base) :
    Triple (· = view) (onBase call)
      (fun a view' => view' = { view with base := view'.base } ∧
        ok a view'.base)
      fun view' => err view'.base := by
  intro start hstart
  subst hstart
  have hrun := hcall _ hpre
  unfold onBase
  cases hresult : call start.base with
  | ok a base =>
    rw [hresult] at hrun
    exact ⟨rfl, hrun⟩
  | error e base =>
    rw [hresult] at hrun
    exact hrun

theorem triple_clearEntry {entry : CCoinsCacheEntry} :
    Triple (Reached view view.cacheCoins) (clearEntry o entry)
      (fun _ view' => ∃ m, Reached view m view' ∧ m.entryAt =
        update view.cacheCoins.entryAt o (delete entry.abs))
      fun _ => False := by
  unfold clearEntry
  cases hfresh : entry.fresh with
  | true =>
    refine triple_eraseEntry.conseq (fun _ h => h) ?_ fun _ h => h
    intro _ view' hreached
    refine ⟨_, hreached, ?_⟩
    rw [entryAt_erase]
    simp [delete, CCoinsCacheEntry.abs, hfresh]
  | false =>
    refine triple_setEntry.conseq (fun _ h => h) ?_ fun _ h => h
    intro _ view' hreached
    refine ⟨_, hreached, ?_⟩
    rw [entryAt_insert]
    simp only [CCoinsCacheEntry.abs, hfresh]
    rfl

theorem triple_addCoin_store (hcoin : coin.isSpent = false)
    (hscript : isUnspendable coin.out.scriptPubKey = false)
    (hpruned : overwrite = false → ∀ entry, view.cacheCoins.lookup o = some entry →
        entry.coin.isSpent) :
    Triple (· = view) (addCoin o coin overwrite)
      (fun _ view' => ∃ m, Reached view m view' ∧ m.entryAt = update view.cacheCoins.entryAt o
          (some (store coin overwrite (view.cacheCoins.entryAt o))))
      fun _ => False := by
  unfold addCoin
  rw [if_neg (by simp [hcoin]), if_neg (by simp [hscript])]
  refine .get_bind fun start hstart => ?_
  subst hstart
  have hstore : CCoinsCacheEntry.abs ⟨coin, true,
      ((start.cacheCoins.lookup o).getD {}).fresh ||
        (!overwrite && !((start.cacheCoins.lookup o).getD {}).dirty)⟩ =
      store coin overwrite (start.cacheCoins.entryAt o) := by
    cases hentry : start.cacheCoins.lookup o <;>
      simp [entryAt, hentry, store, CCoinsCacheEntry.abs, live_of_unspent hcoin]
  have hgood : ¬(!overwrite &&
      !((start.cacheCoins.lookup o).getD {}).coin.isSpent) := by
    cases hstrict : overwrite with
    | true => simp
    | false =>
      have hspent : ((start.cacheCoins.lookup o).getD {}).coin.isSpent = true := by
        cases hentry : start.cacheCoins.lookup o with
        | none => rfl
        | some entry => exact hpruned hstrict entry hentry
      simp [hspent]
  apply triple_of_reached
  refine triple_subUsage.bind fun _ => ?_
  rw [if_neg hgood, ← hstore]
  refine triple_setEntry.bind fun _ => ?_
  refine triple_addUsage.conseq (fun _ h => h) ?_ fun _ h => h
  intro _ view' hreached
  exact ⟨_, hreached, entryAt_insert _ _ _⟩

theorem triple_batchWriteEntry_merge (happlied : child.dirty → child.fresh →
      ∀ us, view.cacheCoins.lookup o = some us → us.coin.isSpent) :
    Triple (· = view) (batchWriteEntry o child)
      (fun _ view' => ∃ m, Reached view m view' ∧ m.entryAt =
        update view.cacheCoins.entryAt o (merge child.abs (view.cacheCoins.entryAt o)))
      fun _ => False := by
  unfold batchWriteEntry
  cases hdirty : child.dirty with
  | false =>
    apply Triple.pure
    rintro _ rfl
    refine ⟨_, ⟨rfl, rfl, rfl⟩, ?_⟩
    simp [merge, CCoinsCacheEntry.abs, hdirty]
  | true =>
    have habs : child.abs = ⟨child.coin.live, true, child.fresh⟩ := by
      simp [CCoinsCacheEntry.abs, hdirty]
    have hlive : child.coin.live.isNone = child.coin.isSpent := by
      cases hspent : child.coin.isSpent <;> simp [live, hspent]
    refine .get_bind fun start hstart => ?_
    subst hstart
    cases hentry : start.cacheCoins.lookup o with
    | none =>
      have hat : start.cacheCoins.entryAt o = none := by
        rw [entryAt, hentry]
        rfl
      simp only [hat, habs, merge, hlive]
      split_ifs with hdrop
      · apply Triple.pure
        rintro _ rfl
        refine ⟨_, ⟨rfl, rfl, rfl⟩, ?_⟩
        rw [← hat, update_eq_self]
      · apply triple_of_reached
        refine triple_setEntry.bind fun _ => ?_
        refine triple_addUsage.conseq (fun _ h => h) ?_ fun _ h => h
        intro _ view' hreached
        exact ⟨_, hreached, entryAt_insert _ _ _⟩
    | some us =>
      have hat : start.cacheCoins.entryAt o = some us.abs := by
        rw [entryAt, hentry]
        rfl
      have hgood : ¬(child.fresh && !us.coin.isSpent) := by
        cases hmark : child.fresh <;> simp_all
      simp only [hat, habs, merge, hlive]
      have hmark : us.abs.fresh = us.fresh := rfl
      rw [hmark]
      split_ifs with hdrop
      · apply triple_of_reached
        refine triple_subUsage.bind fun _ => ?_
        refine triple_eraseEntry.conseq (fun _ h => h) ?_ fun _ h => h
        intro _ view' hreached
        exact ⟨_, hreached, entryAt_erase _ _⟩
      · apply triple_of_reached
        refine triple_subUsage.bind fun _ => ?_
        refine triple_setEntry.bind fun _ => ?_
        refine triple_addUsage.conseq (fun _ h => h) ?_ fun _ h => h
        intro _ view' hreached
        exact ⟨_, hreached, entryAt_insert _ _ _⟩

end

section
variable {β : Type} [CCoinsView β] {P : Coin → Prop} (S : ViewSpec β P)

def cacheCoinsOf (view : CCoinsViewCache β) : Utxo :=
  overlay view.cacheCoins (S.coins view.base)

def cacheBest (view : CCoinsViewCache β) : UInt256 :=
  if view.hashBlock = 0 then S.best view.base else view.hashBlock

/-- A cache over a view: each entry agrees with the base as its flags say. -/
structure CacheInv (view : CCoinsViewCache β) : Prop where
  base : S.Inv view.base
  coherent : ∀ o, Coherent (view.cacheCoins.entryAt o) (S.coins view.base o)
  ok : ∀ o c, cacheCoinsOf S view o = some c → P c

abbrev Cached (u : Utxo) (b : UInt256) : CCoinsViewCache β → Prop :=
  Shows (CacheInv S) (cacheCoinsOf S) (cacheBest S) u b

variable {S} {u : Utxo} {b : UInt256} {view view' : CCoinsViewCache β} {m : CCoinsMap}

section
variable (hview : Cached S u b view)
include hview

theorem Cached.of_update (hreached : Reached view m view') {entry : Option (Entry Coin)}
    (hentries : m.entryAt = update view.cacheCoins.entryAt o entry)
    (hcoherent : Coherent entry (S.coins view.base o))
    (hok : ∀ c, seen entry (S.coins view.base o) = some c → P c) :
    Cached S (update u o (seen entry (S.coins view.base o))) b view' := by
  obtain ⟨hinv, rfl, rfl⟩ := hview
  obtain ⟨hbase, hhash, hcache⟩ := hreached
  have hcoins : cacheCoinsOf S view' = update (cacheCoinsOf S view) o
      (seen entry (S.coins view.base o)) := by
    funext o'
    rw [cacheCoinsOf, overlay, hbase, hcache, hentries]
    by_cases h : o' = o
    · subst h
      simp
    · simp [h, cacheCoinsOf, overlay]
  refine ⟨⟨?_, ?_, ?_⟩, hcoins, ?_⟩
  · rw [hbase]
    exact hinv.base
  · intro o'
    rw [hbase, hcache, hentries]
    by_cases h : o' = o
    · subst h
      simpa using hcoherent
    · simpa [h] using hinv.coherent o'
  · intro o' c
    rw [hcoins]
    by_cases h : o' = o
    · subst h
      simpa using hok c
    · simpa [h] using hinv.ok o' c
  · rw [cacheBest, cacheBest, hbase, hhash]

omit hview in
theorem CacheInv.of_base (hinv : CacheInv S view) (hsame : view' = { view with base := view'.base })
    (hinvBase : S.Inv view'.base)
    (hcoins : S.coins view'.base = S.coins view.base) :
    CacheInv S view' ∧ cacheCoinsOf S view' = cacheCoinsOf S view := by
  have hcache : view'.cacheCoins = view.cacheCoins := by rw [hsame]
  have hsee : cacheCoinsOf S view' = cacheCoinsOf S view := by
    rw [cacheCoinsOf, cacheCoinsOf, hcache, hcoins]
  refine ⟨⟨hinvBase, ?_, ?_⟩, hsee⟩
  · rw [hcache, hcoins]
    exact hinv.coherent
  · rw [hsee]
    exact hinv.ok

theorem Cached.of_base (hsame : view' = { view with base := view'.base })
    (hbase : Shows S.Inv S.coins S.best (S.coins view.base) (S.best view.base) view'.base) :
    Cached S u b view' := by
  obtain ⟨hinv, rfl, rfl⟩ := hview
  obtain ⟨hinvBase, hcoins, hbest⟩ := hbase
  obtain ⟨hinv', hsee⟩ := hinv.of_base hsame hinvBase hcoins
  have hhash : view'.hashBlock = view.hashBlock := by rw [hsame]
  refine ⟨hinv', hsee, ?_⟩
  rw [cacheBest, cacheBest, hhash, hbest]

theorem Cached.coins_ok (o : COutPoint) (c : Coin) (hcoin : u o = some c) : P c := by
  apply hview.1.ok o c
  rw [hview.2.1]
  exact hcoin

theorem Cached.coin_of_entry (hentry : view.cacheCoins.lookup o = some e) : u o = e.coin.live := by
  rw [← hview.2.1]
  simp [cacheCoinsOf, overlay, entryAt, hentry, CCoinsCacheEntry.abs]

theorem Cached.coin_of_missing (hentry : view.cacheCoins.lookup o = none) :
    u o = S.coins view.base o := by
  rw [← hview.2.1]
  simp [cacheCoinsOf, overlay, entryAt, hentry]

end

theorem triple_fetchCoin (o : COutPoint) : Triple (Cached S u b) (fetchCoin o)
    (fun r view => (r = none → u o = none) ∧ view.cacheCoins.lookup o = r ∧ Cached S u b view)
    fun _ => False := by
  refine .get_bind fun view hview => ?_
  cases hentry : view.cacheCoins.lookup o with
  | some entry =>
    apply Triple.pure
    rintro _ rfl
    exact ⟨fun hnone => absurd hnone (by simp), hentry, hview⟩
  | none =>
    have hbase := S.getCoin_spec (S.coins view.base) (S.best view.base) o
    refine .bind (triple_onBase hbase ⟨hview.1.base, rfl, rfl⟩) fun r => ?_
    cases r with
    | none =>
      apply Triple.pure
      rintro view' ⟨hsame, hnone, hshows⟩
      have hmissing : view'.cacheCoins.lookup o = none := by
        rw [hsame]
        exact hentry
      refine ⟨fun _ => ?_, hmissing, hview.of_base hsame hshows⟩
      rw [hview.coin_of_missing hentry, ← hnone]
    | some tmp =>
      apply of_state
      rintro view' ⟨hsame, hsome, hshows⟩
      have hview' := hview.of_base hsame hshows
      have hmissing : view'.cacheCoins.lookup o = none := by
        rw [hsame]
        exact hentry
      have hcoin : S.coins view'.base o = some tmp := by
        rw [hshows.2.1, ← hsome]
      have hlive := S.unspent (S.coins_ok hshows.1 o tmp hcoin)
      apply triple_of_reached
      refine triple_setEntry.bind fun _ => ?_
      refine triple_addUsage.bind fun _ => ?_
      apply Triple.pure
      intro view'' hreached
      refine ⟨fun hnone => absurd hnone (by simp), ?_, ?_⟩
      · rw [hreached.2.2]
        simp
      · have hsee : seen (some (fetch (some tmp))) (S.coins view'.base o) = u o := by
          rw [hview'.coin_of_missing hmissing, hcoin]
          rfl
        have hentries := entryAt_insert view'.cacheCoins o ⟨tmp, false, tmp.isSpent⟩
        have habs : CCoinsCacheEntry.abs ⟨tmp, false, tmp.isSpent⟩ = fetch (some tmp) := by
          simp [CCoinsCacheEntry.abs, fetch, hlive, live_of_unspent]
        rw [habs] at hentries
        have hupdated := hview'.of_update hreached hentries (by rw [hcoin]; exact coherent_fetch _)
          (by rw [hsee]; exact hview'.coins_ok o)
        rwa [hsee, update_eq_self] at hupdated

theorem triple_getCoin (o : COutPoint) : Triple (Cached S u b) (getCoin o)
    (fun r view => r = u o ∧ Cached S u b view) fun _ => False := by
  refine (triple_fetchCoin o).bind fun r => ?_
  cases r with
  | none =>
    apply Triple.pure
    rintro view ⟨hnone, -, hview⟩
    exact ⟨(hnone rfl).symm, hview⟩
  | some entry =>
    apply Triple.pure
    rintro view ⟨-, hentry, hview⟩
    exact ⟨(hview.coin_of_entry hentry).symm, hview⟩

theorem triple_haveCoin (o : COutPoint) : Triple (Cached S u b) (haveCoin o)
    (fun r view => r = (u o).isSome ∧ Cached S u b view) fun _ => False := by
  refine (triple_fetchCoin o).bind fun r => ?_
  cases r with
  | none =>
    apply Triple.pure
    rintro view ⟨hnone, -, hview⟩
    exact ⟨by rw [hnone rfl]; rfl, hview⟩
  | some entry =>
    apply Triple.pure
    rintro view ⟨-, hentry, hview⟩
    refine ⟨?_, hview⟩
    rw [hview.coin_of_entry hentry]
    cases hspent : entry.coin.isSpent <;> simp [live, hspent]

theorem triple_accessCoin (o : COutPoint) : Triple (Cached S u b) (accessCoin o)
    (fun r view => r.live = u o ∧ Cached S u b view) fun _ => False := by
  refine (triple_fetchCoin o).bind fun r => ?_
  cases r with
  | none =>
    apply Triple.pure
    rintro view ⟨hnone, -, hview⟩
    exact ⟨by rw [hnone rfl]; rfl, hview⟩
  | some entry =>
    apply Triple.pure
    rintro view ⟨-, hentry, hview⟩
    exact ⟨(hview.coin_of_entry hentry).symm, hview⟩

theorem triple_spendCoin (o : COutPoint) : Triple (Cached S u b) (spendCoin o)
    (fun r view => r.bind live = u o ∧ Cached S (update u o none) b view)
    fun _ => False := by
  refine (triple_fetchCoin o).bind fun r => ?_
  cases r with
  | none =>
    apply Triple.pure
    rintro view ⟨hnone, -, hview⟩
    have hmap : update u o none = u := by
      rw [← hnone rfl, update_eq_self]
    rw [hmap]
    exact ⟨(hnone rfl).symm, hview⟩
  | some entry =>
    apply of_state
    rintro view ⟨-, hentry, hview⟩
    have hcoherent : Coherent (some entry.abs) (S.coins view.base o) := by
      have hat := hview.1.coherent o
      rwa [entryAt, hentry] at hat
    apply triple_of_reached
    refine triple_subUsage.bind fun _ => ?_
    refine triple_clearEntry.bind fun _ => ?_
    apply Triple.pure
    rintro view' ⟨m, hreached, hentries⟩
    have hnone := seen_delete hcoherent
    have hupdated := hview.of_update hreached hentries (coherent_delete _ _) (by simp [hnone])
    rw [hnone] at hupdated
    exact ⟨(hview.coin_of_entry hentry).symm, hupdated⟩

def Utxo.add (u : Utxo) (o : COutPoint) (coin : Coin) : Utxo :=
  if isUnspendable coin.out.scriptPubKey then u
  else update u o (some coin)

theorem triple_addCoin (hunspent : coin.isSpent = false)
    (hcoin : isUnspendable coin.out.scriptPubKey = false → P coin)
    (habsent : isUnspendable coin.out.scriptPubKey = false → overwrite = false → u o = none) :
    Triple (Cached S u b) (addCoin o coin overwrite)
      (fun _ => Cached S (u.add o coin) b) fun _ => False := by
  by_cases hscript : isUnspendable coin.out.scriptPubKey
  · unfold addCoin Utxo.add
    rw [if_neg (by simp [hunspent]), if_pos hscript, if_pos hscript]
    exact .pure fun _ hview => hview
  · apply of_state
    intro view hview
    have hsee : seen (view.cacheCoins.entryAt o) (S.coins view.base o) = u o := by
      rw [← hview.2.1]
      rfl
    have hspendable : isUnspendable coin.out.scriptPubKey = false := by
      simpa using hscript
    refine (triple_addCoin_store hunspent hspendable ?_).conseq (fun _ h => h) ?_ fun _ h => h
    · intro hstrict entry hentry
      apply live_eq_none.mp
      rw [← hview.coin_of_entry hentry]
      exact habsent hspendable hstrict
    · rintro _ view' ⟨m, hreached, hentries⟩
      have hvalue := store_value coin overwrite (view.cacheCoins.entryAt o)
      have hupdated := hview.of_update hreached hentries (coherent_store (hview.1.coherent o)
          fun hstrict => hsee.trans (habsent hspendable hstrict))
        (by simp [hcoin hspendable])
      rw [seen_some, hvalue] at hupdated
      rwa [Utxo.add, if_neg hscript]

theorem triple_uncache : Triple (Cached S u b) (uncache o)
    (fun _ => Cached S u b) fun _ => False := by
  refine .get_bind fun view hview => ?_
  cases hentry : view.cacheCoins.lookup o with
  | none =>
    apply Triple.pure
    rintro _ rfl
    exact hview
  | some entry =>
    simp only
    split_ifs with hclean
    · apply triple_of_reached
      refine triple_subUsage.bind fun _ => ?_
      refine triple_eraseEntry.conseq (fun _ h => h) ?_ fun _ h => h
      intro _ view' hreached
      have hbase : S.coins view.base o = u o := by
        have hat := hview.1.coherent o
        rw [entryAt, hentry] at hat
        rw [hview.coin_of_entry hentry]
        refine ((coherent_some.mp hat).1 ?_).symm
        simp only [Bool.and_eq_true, Bool.not_eq_true'] at hclean
        exact hclean.1
      have hupdated := hview.of_update hreached (entryAt_erase _ o) (coherent_none _)
        (by rw [hbase]; exact hview.coins_ok o)
      rwa [seen_none, hbase, update_eq_self] at hupdated
    · apply Triple.pure
      rintro _ rfl
      exact hview

theorem triple_setBestBlock {h : UInt256} (hnull : h ≠ 0) : Triple (Cached S u b) (setBestBlock h)
    (fun _ view => view.hashBlock = h ∧ Cached S u h view)
    fun _ => False := by
  apply Triple.modify
  rintro view ⟨hinv, hcoins, -⟩
  exact ⟨rfl, ⟨hinv.base, hinv.coherent, hinv.ok⟩, hcoins, if_neg hnull⟩

theorem triple_getBestBlock : Triple (Cached S u b) getBestBlock
    (fun r view => r = b ∧ Cached S u b view) fun _ => False := by
  refine .get_bind fun view hview => ?_
  split_ifs with hnull
  · have hbest : S.best view.base = b := by
      rw [← hview.2.2, cacheBest, if_pos hnull]
    have hbase := S.getBestBlock_spec (S.coins view.base) (S.best view.base)
    refine .bind (triple_onBase hbase ⟨hview.1.base, rfl, rfl⟩) fun r => ?_
    refine .bind (.modify fun view' hview' => ?_) fun _ =>
      pure fun _ hview' => hview'
    obtain ⟨hsame, rfl, hshows⟩ := hview'
    obtain ⟨hinv, hcoins, -⟩ := hview.of_base hsame hshows
    refine ⟨hbest, ⟨hinv.base, hinv.coherent, hinv.ok⟩, hcoins, ?_⟩
    simp [cacheBest, hshows.2.2, hbest]
  · apply Triple.pure
    rintro _ rfl
    refine ⟨?_, hview⟩
    rw [← hview.2.2, cacheBest, if_neg hnull]

/-! ## Writing a cache into the one below -/

theorem triple_batchWriteEntry (hfresh : child.dirty → child.fresh → u o = none)
    (hok : child.dirty → ∀ c ∈ child.coin.live, P c) :
    Triple (Cached S u b) (batchWriteEntry o child) (fun _ => Cached S
        (update u o (written (some child.abs) (u o))) b)
      fun _ => False := by
  apply of_state
  intro view hview
  have hsee : seen (view.cacheCoins.entryAt o) (S.coins view.base o) = u o := by
    rw [← hview.2.1]
    rfl
  have hparent := hview.1.coherent o
  have hchild : child.abs.dirty → child.abs.fresh →
      seen (view.cacheCoins.entryAt o) (S.coins view.base o) = none := by
    rw [hsee]
    exact hfresh
  have hvalue := seen_merge hparent hchild
  rw [hsee] at hvalue
  refine (triple_batchWriteEntry_merge ?_).conseq (fun _ h => h) ?_ fun _ h => h
  · intro hdirty hmark us hus
    apply live_eq_none.mp
    rw [← hview.coin_of_entry hus]
    exact hfresh hdirty hmark
  · rintro _ view' ⟨m, hreached, hentries⟩
    have hupdated := hview.of_update hreached hentries (coherent_merge hparent hchild)
    rw [hvalue] at hupdated
    apply hupdated
    intro c hc
    by_cases hdirty : child.dirty
    · rw [written_some, show child.abs.dirty from hdirty] at hc
      exact hok hdirty c hc
    · rw [written_some, if_neg (by exact hdirty)] at hc
      exact hview.coins_ok o c hc

theorem triple_batchWriteLoop {l : List (Sigma fun _ : COutPoint => CCoinsCacheEntry)} :
    ∀ u : Utxo, l.NodupKeys → EntriesOk P l u → Triple (Cached S u b) (batchWriteLoop l)
        (fun _ => Cached S (applyEntries l u) b) fun _ => False := by
  induction l with
  | nil => exact fun u _ _ => .pure fun _ hview => hview
  | cons entry rest ih =>
    obtain ⟨o, child⟩ := entry
    intro u hnodup hentries
    obtain ⟨hnew, hrest⟩ := List.nodupKeys_cons.mp hnodup
    have hchild := hentries o child List.mem_cons_self
    rw [applyEntries_cons hnew]
    refine (triple_batchWriteEntry (fun hdirty => (hchild hdirty).1)
      fun hdirty => (hchild hdirty).2).bind fun _ => ?_
    exact ih _ hrest (hentries.tail hnew _)

theorem triple_batchWrite {h : UInt256} (hbatch : BatchOk P m u) :
    Triple (Cached S u b) (batchWrite m h) (fun r view => r ∧
        ∃ b', (h ≠ 0 → b' = h) ∧ Cached S (applyBatch m u) b' view)
      fun _ => False := by
  refine (triple_batchWriteLoop u m.nodupKeys hbatch).bind fun _ => ?_
  refine .bind (.modify fun view hview => ?_) fun _ =>
    pure fun _ hview => ⟨rfl, hview⟩
  obtain ⟨hinv, hcoins, -⟩ := hview
  exact ⟨_, fun hnull => if_neg hnull, ⟨hinv.base, hinv.coherent, hinv.ok⟩, hcoins, rfl⟩

theorem triple_flush (hview : Cached S u b view) : Triple (· = view) flush
    (fun r view' => r ∧ view'.hashBlock = view.hashBlock ∧
      view'.cacheCoins = ∅ ∧ S.Inv view'.base ∧ S.coins view'.base = u ∧
      (view.hashBlock ≠ 0 → S.best view'.base = view.hashBlock))
    fun _ => False := by
  refine .get_bind fun start hstart => ?_
  subst hstart
  have hbatch : BatchOk P start.cacheCoins (S.coins start.base) := by
    intro o e he _
    have hat : start.cacheCoins.lookup o = some e :=
      AList.mem_lookup_iff.mpr he
    have hcoherent := hview.1.coherent o
    rw [entryAt, hat] at hcoherent
    refine ⟨(coherent_some.mp hcoherent).2, fun c hc => hview.coins_ok o c ?_⟩
    rw [hview.coin_of_entry hat]
    exact hc
  have hflat : applyBatch start.cacheCoins (S.coins start.base) = u := by
    rw [← hview.2.1]
    funext o
    exact written_eq_seen (hview.1.coherent o)
  have hwrite := S.batchWrite_spec (S.coins start.base) (S.best start.base)
    start.cacheCoins start.hashBlock hbatch
  refine .bind (triple_onBase hwrite ⟨hview.1.base, rfl, rfl⟩) fun fOk => ?_
  refine .bind (.modify fun view' hview' => ?_) fun _ =>
    pure fun _ hview' => hview'
  obtain ⟨hsame, hok, b', hbest, hinv, hcoins, rfl⟩ := hview'
  refine ⟨hok, ?_, rfl, hinv, ?_, hbest⟩
  · rw [hsame]
  · exact hcoins.trans hflat

variable (S)

def cacheSpec : ViewSpec (CCoinsViewCache β) P where
  Inv := CacheInv S
  coins := cacheCoinsOf S
  best := cacheBest S
  unspent := S.unspent
  coins_ok := fun hinv => hinv.ok
  getCoin_spec := fun _ _ => triple_getCoin
  haveCoin_spec := fun _ _ => triple_haveCoin
  getBestBlock_spec := fun _ _ => triple_getBestBlock
  batchWrite_spec := fun _ _ _ _ => triple_batchWrite

structure CoherentCache where
  view : CCoinsViewCache β
  coherent : CacheInv S view

def CoherentCache.coins {S : ViewSpec β P} (cache : CoherentCache S) : Utxo :=
  cacheCoinsOf S cache.view

theorem cached_of_empty (hempty : view.cacheCoins = ∅) (hbase : S.Inv view.base) :
    Cached S (S.coins view.base) (cacheBest S view) view := by
  have hcoins : cacheCoinsOf S view = S.coins view.base := by
    rw [cacheCoinsOf, hempty]
    rfl
  refine ⟨⟨hbase, fun o => ?_, ?_⟩, hcoins, rfl⟩
  · rw [hempty]
    exact coherent_none _
  · rw [hcoins]
    exact S.coins_ok hbase

theorem cached_new {base : β} (hbase : S.Inv base) :
    Cached S (S.coins base) (S.best base) { base } :=
  cached_of_empty S rfl hbase

def CoherentCache.new (base : β) (hbase : S.Inv base) : CoherentCache S where
  view := { base }
  coherent := (cached_new S hbase).1

end

section
open WriteBack CCoinsViewDB
variable {codec : CoinCodec} {P : Coin → Prop}

def dbCoins (db : CCoinsViewDB codec) : Utxo :=
  fun o => (db.records.lookup o).bind codec.read

/-- Every record of the database can be read. -/
def DbInv (P : Coin → Prop) (db : CCoinsViewDB codec) : Prop :=
  ∀ o r, db.records.lookup o = some r → ∃ c, codec.read r = some c ∧ P c

theorem dbCoins_batchEntry {db : CCoinsViewDB codec} {o : COutPoint} {child : CCoinsCacheEntry}
    (hinv : DbInv P db) (hwrite : ∀ c, P c → codec.read (codec.write c) = some c)
    (hok : child.dirty → ∀ c ∈ child.coin.live, P c) :
    DbInv P (db.batchEntry ⟨o, child⟩) ∧ dbCoins (db.batchEntry ⟨o, child⟩) =
        Function.update (dbCoins db) o (written (some child.abs) (dbCoins db o)) := by
  unfold batchEntry
  by_cases hdirty : child.dirty
  · cases hspent : child.coin.isSpent with
    | true =>
      have hvalue : written (some child.abs) (dbCoins db o) = none := by
        simp [CCoinsCacheEntry.abs, hdirty, Coin.live_eq_none.mpr hspent]
      simp only [hdirty, if_true, hvalue]
      constructor
      · intro o' r hr
        by_cases hne : o' = o
        · subst hne
          exact absurd hr (by simp)
        · rw [AList.lookup_erase_ne hne] at hr
          exact hinv o' r hr
      · funext o'
        by_cases hne : o' = o
        · subst hne
          simp [dbCoins]
        · simp [dbCoins, hne]
    | false =>
      have hlive := Coin.live_of_unspent hspent
      have hcoin := hok hdirty child.coin hlive
      have hvalue : written (some child.abs) (dbCoins db o) = some child.coin := by
        simp [CCoinsCacheEntry.abs, hdirty, hlive]
      simp only [hdirty, if_true, hvalue, Bool.false_eq_true, if_false]
      constructor
      · intro o' r hr
        by_cases hne : o' = o
        · subst hne
          rw [AList.lookup_insert, Option.some_inj] at hr
          exact ⟨child.coin, by rw [← hr, hwrite _ hcoin], hcoin⟩
        · rw [AList.lookup_insert_ne hne] at hr
          exact hinv o' r hr
      · funext o'
        by_cases hne : o' = o
        · subst hne
          simp [dbCoins, hwrite _ hcoin]
        · simp [dbCoins, hne]
  · rw [if_neg hdirty]
    refine ⟨hinv, ?_⟩
    rw [written_some, if_neg (by exact hdirty), Function.update_eq_self]

theorem dbCoins_foldl (hwrite : ∀ c, P c → codec.read (codec.write c) = some c)
    {l : List (Sigma fun _ : COutPoint => CCoinsCacheEntry)} :
    ∀ db : CCoinsViewDB codec, l.NodupKeys → DbInv P db → EntriesOk P l (dbCoins db) →
      DbInv P (l.foldl batchEntry db) ∧
        dbCoins (l.foldl batchEntry db) = applyEntries l (dbCoins db) := by
  induction l with
  | nil => exact fun db _ hinv _ => ⟨hinv, rfl⟩
  | cons entry rest ih =>
    obtain ⟨o, child⟩ := entry
    intro db hnodup hinv hentries
    obtain ⟨hnew, hrest⟩ := List.nodupKeys_cons.mp hnodup
    obtain ⟨hinv', hcoins⟩ := dbCoins_batchEntry (o := o) hinv hwrite
      fun hdirty => (hentries o child List.mem_cons_self hdirty).2
    rw [applyEntries_cons hnew, ← hcoins, List.foldl_cons]
    apply ih _ hrest hinv'
    rw [hcoins]
    exact hentries.tail hnew _

/-- The database keeps the promises of a view for coins that its codec reads
back as they were written. -/
def dbSpec (hunspent : ∀ {c}, P c → c.isSpent = false)
    (hwrite : ∀ c, P c → codec.read (codec.write c) = some c) :
    ViewSpec (CCoinsViewDB codec) P where
  Inv := DbInv P
  coins := dbCoins
  best := fun db => db.hashBestChain.getD 0
  unspent := hunspent
  coins_ok := by
    intro db hinv o c hcoin
    obtain ⟨r, hr, hread⟩ := Option.bind_eq_some_iff.mp hcoin
    obtain ⟨c', hread', hc'⟩ := hinv o r hr
    rw [hread, Option.some_inj] at hread'
    rwa [hread']
  getCoin_spec := by
    rintro _ _ o db ⟨hinv, rfl, rfl⟩
    exact ⟨rfl, hinv, rfl, rfl⟩
  haveCoin_spec := by
    rintro _ _ o db ⟨hinv, rfl, rfl⟩
    refine ⟨?_, hinv, rfl, rfl⟩
    unfold dbCoins
    cases hr : db.records.lookup o with
    | none => rfl
    | some r =>
      obtain ⟨c, hread, -⟩ := hinv o r hr
      simp [hread]
  getBestBlock_spec := by
    rintro _ _ db ⟨hinv, rfl, rfl⟩
    exact ⟨rfl, hinv, rfl, rfl⟩
  batchWrite_spec := by
    rintro _ _ m h hbatch db ⟨hinv, rfl, rfl⟩
    obtain ⟨hinv', hcoins⟩ := dbCoins_foldl hwrite db m.nodupKeys hinv hbatch
    refine ⟨rfl, ((writeBatch m h db).hashBestChain.getD 0), ?_, ?_, ?_, rfl⟩
    · intro hnull
      rw [writeBatch, if_neg hnull]
      rfl
    · unfold writeBatch
      split_ifs
      · exact hinv'
      · exact hinv'
    · unfold writeBatch
      split_ifs
      · exact hcoins
      · exact hcoins

def memoryCodec : CoinCodec := ⟨Coin, id, some⟩

def memorySpec : ViewSpec (CCoinsViewDB memoryCodec) (·.isSpent = false) :=
  dbSpec id fun _ _ => rfl

end
end ImageCoin
