import ImageCoin.Coins
import ImageCoin.MapEntries

/-!
# Memory usage of a coin cache

`cachedCoinsUsage` after every sequence of calls, those that throw included.
-/

namespace ImageCoin

open StateExcept CCoinsViewCache MapEntries Triple UInt64
variable {β α : Type} {view : CCoinsViewCache β} {o : COutPoint} {e : CCoinsCacheEntry}

def totalUsage (m : CCoinsMap) : ℕ := sumEntries m (·.coin.dynamicMemoryUsage.toNat)

def usageAt (m : CCoinsMap) (o : COutPoint) : UInt64 :=
  ((m.lookup o).getD {}).coin.dynamicMemoryUsage

/-- The usage is the sum over the coins, so that subtracting one of them does not wrap. -/
structure Accounted (view : CCoinsViewCache β) : Prop where
  sum : view.cachedCoinsUsage = ofNat (totalUsage view.cacheCoins)
  no_wrap : totalUsage view.cacheCoins < 2 ^ 64 →
    ∀ o, usageAt view.cacheCoins o ≤ view.cachedCoinsUsage

theorem totalUsage_erase (m : CCoinsMap) (o : COutPoint) :
    totalUsage (m.erase o) + (usageAt m o).toNat = totalUsage m := by
  rw [totalUsage, totalUsage, ← sumEntries_erase m _ o, usageAt]
  cases m.lookup o <;> rfl

theorem usageAt_none {m : CCoinsMap} (hnone : m.lookup o = none) : usageAt m o = 0 := by
  rw [usageAt, hnone]
  rfl

theorem accounted_iff :
    Accounted view ↔ view.cachedCoinsUsage = ofNat (totalUsage view.cacheCoins) := by
  refine ⟨Accounted.sum, fun hsum => ⟨hsum, fun hfits o => ?_⟩⟩
  have herase := totalUsage_erase view.cacheCoins o
  rw [hsum, le_iff_toNat_le, toNat_ofNat_of_lt' hfits]
  omega

namespace Accounted

section
variable (hs : Accounted view) {n : UInt64}
include hs

theorem erase (hn : n + usageAt view.cacheCoins o = view.cachedCoinsUsage) :
    Accounted ⟨view.base, view.hashBlock, view.cacheCoins.erase o, n⟩ := by
  have hsum := hs.sum
  rw [← totalUsage_erase _ o, ofNat_add, UInt64.ofNat_toNat, ← hn, UInt64.add_left_inj] at hsum
  exact accounted_iff.mpr hsum

theorem insert
    (hn : n + usageAt view.cacheCoins o = view.cachedCoinsUsage + e.coin.dynamicMemoryUsage) :
    Accounted ⟨view.base, view.hashBlock, view.cacheCoins.insert o e, n⟩ := by
  have hsum := hs.sum
  have hinsert : totalUsage (view.cacheCoins.insert o e) =
      e.coin.dynamicMemoryUsage.toNat + totalUsage (view.cacheCoins.erase o) := rfl
  rw [← totalUsage_erase _ o, ofNat_add, UInt64.ofNat_toNat] at hsum
  rw [accounted_iff, hinsert, ofNat_add, UInt64.ofNat_toNat]
  grind

theorem onBase {call : EStateM CoinsError β α} : Triple (· = view) (onBase call)
    (fun _ s => Accounted s ∧ s.cacheCoins = view.cacheCoins) Accounted := by
  rintro s rfl
  unfold ImageCoin.onBase
  cases call s.base with
  | ok => exact ⟨accounted_iff.mpr hs.sum, rfl⟩
  | error => exact accounted_iff.mpr hs.sum

end

abbrev Kept (x : CacheM β α) : Prop := Triple Accounted x (fun _ => Accounted) Accounted

theorem uncache : Kept (uncache o : CacheM β Unit) := by
  refine .get_bind fun s hs => ?_
  cases hold : s.cacheCoins.lookup o with
  | none => exact .pure fun _ h => h ▸ hs
  | some e =>
    dsimp only
    split_ifs <;> rintro _ rfl
    · exact hs.erase (by simp [usageAt, hold])
    · exact hs

theorem batchWriteEntry : Kept (batchWriteEntry o e : CacheM β Unit) := by
  unfold CCoinsViewCache.batchWriteEntry
  split
  · refine .get_bind fun s hs => ?_
    cases hold : s.cacheCoins.lookup o with
    | none =>
      dsimp only
      split_ifs <;> rintro _ rfl
      · exact hs
      · exact hs.insert (by simp [usageAt_none hold])
    | some us =>
      dsimp only
      split_ifs <;> rintro _ rfl
      · exact hs
      · exact hs.erase (by simp [usageAt, hold])
      · exact hs.insert (by grind [usageAt])
  · exact .pure fun _ h => h

theorem batchWriteLoop (l) : Kept (batchWriteLoop l : CacheM β Unit) := by
  induction l with
  | nil => exact .pure fun _ h => h
  | cons entry rest ih => exact batchWriteEntry.bind fun _ => ih

variable [CCoinsView β]

theorem fetchCoin : Triple Accounted (fetchCoin o : CacheM β _)
    (fun r s => Accounted s ∧ ∀ e, r = some e → s.cacheCoins.lookup o = some e) Accounted := by
  refine .get_bind fun s hs => ?_
  cases hold : s.cacheCoins.lookup o with
  | some e =>
    rintro _ rfl
    exact ⟨hs, fun _ he => he ▸ hold⟩
  | none =>
    refine hs.onBase.bind ?_
    rintro (_ | tmp) s' ⟨hs', hsame⟩
    · exact ⟨hs', by simp⟩
    · refine ⟨hs'.insert (by simp [hsame, usageAt_none hold]), ?_⟩
      rintro _ ⟨⟩
      exact AList.lookup_insert _

theorem spendCoin : Kept (spendCoin o : CacheM β _) := by
  refine fetchCoin.bind ?_
  rintro (_ | e) s ⟨hs, hold⟩
  · exact hs
  · have husage : s.cachedCoinsUsage - e.coin.dynamicMemoryUsage + usageAt s.cacheCoins o =
        s.cachedCoinsUsage := by simp [usageAt, hold e rfl]
    dsimp only
    unfold clearEntry
    split_ifs
    · exact hs.erase husage
    · exact hs.insert (husage.trans (UInt64.add_zero _).symm)

theorem flush : Triple (fun _ => True) (flush : CacheM β Bool) (fun _ => Accounted) fun _ => True :=
  .get_bind fun _ _ => .bind .trivial fun _ _ _ => accounted_iff.mpr rfl

end Accounted

/-- The state in which a call returns or throws. -/
def stateAfter (view : CCoinsViewCache β) (x : CacheM β α) : CCoinsViewCache β :=
  match x view with
  | .ok _ s => s
  | .error _ s => s

theorem Accounted.after {x : CacheM β α} (hs : Accounted view) (hx : Kept x) :
    Accounted (stateAfter view x) := by
  have hrun := hx view hs
  unfold stateAfter
  cases hresult : x view <;> simpa only [hresult] using hrun

/-- `AddCoin` throws because of a cached coin that uses memory. -/
def Leaks (view : CCoinsViewCache β) (o : COutPoint) (coin : Coin) (possibleOverwrite : Bool) :
    Prop :=
  coin.isSpent = false ∧ isUnspendable coin.out.scriptPubKey = false ∧
    possibleOverwrite = false ∧ ((view.cacheCoins.lookup o).getD {}).coin.isSpent = false ∧
    usageAt view.cacheCoins o ≠ 0

theorem Accounted.addCoin_iff (hs : Accounted view) {coin : Coin} {possibleOverwrite : Bool} :
    Accounted (stateAfter view (addCoin o coin possibleOverwrite)) ↔
      ¬Leaks view o coin possibleOverwrite := by
  have hget (k : CCoinsViewCache β → CacheM β Unit) : (get >>= k) view = k view view := rfl
  unfold stateAfter addCoin
  split_ifs with hspent hunspendable
  · exact iff_of_true hs (by simp [Leaks, hspent])
  · exact iff_of_true hs (by simp [Leaks, hunspendable])
  rw [hget]
  split_ifs with hthrow
  · rw [accounted_iff]
    change view.cachedCoinsUsage - usageAt view.cacheCoins o =
      ofNat (totalUsage view.cacheCoins) ↔ _
    rw [← hs.sum]
    grind [Leaks]
  · exact iff_of_true (hs.insert (by grind [usageAt])) (by grind [Leaks])

variable [CCoinsView β]

/-- Sequences of calls before any `AddCoin` that leaks and any `Flush` that throws, whose
base has then taken some of the coins. -/
inductive UsageRun : CCoinsViewCache β → Prop
  | new (base : β) : UsageRun { base }
  | addCoin {s x coin possibleOverwrite} : UsageRun s → ¬Leaks s x coin possibleOverwrite →
    UsageRun (stateAfter s (addCoin x coin possibleOverwrite))
  | spendCoin {s x} : UsageRun s → UsageRun (stateAfter s (spendCoin x))
  | fetchCoin {s x} : UsageRun s → UsageRun (stateAfter s (fetchCoin x))
  | batchWrite {s m h} : UsageRun s → UsageRun (stateAfter s (batchWrite m h))
  | flush {s t fOk} : UsageRun s → flush s = .ok fOk t → UsageRun t
  | uncache {s x} : UsageRun s → UsageRun (stateAfter s (uncache x))

theorem UsageRun.accounted (hview : UsageRun view) : Accounted view := by
  induction hview with
  | new base => exact accounted_iff.mpr rfl
  | addCoin _ hleaks ih => exact ih.addCoin_iff.mpr hleaks
  | spendCoin _ ih => exact ih.after Accounted.spendCoin
  | fetchCoin _ ih =>
    refine ih.after (Accounted.fetchCoin.conseq (fun _ h => h) ?_ fun _ h => h)
    exact fun _ _ h => h.1
  | batchWrite _ ih =>
    exact ih.after ((Accounted.batchWriteLoop _).bind fun _ _ hs => accounted_iff.mpr hs.sum)
  | @flush s _ _ _ hrun =>
    have hs := Accounted.flush s True.intro
    rwa [hrun] at hs
  | uncache _ ih => exact ih.after Accounted.uncache

/-- The usage is right after every run, and `AddCoin` keeps it so unless the old coin leaks. -/
theorem addCoin_accounted_iff (view : { view : CCoinsViewCache β // UsageRun view })
    (o : COutPoint) (coin : Coin) (possibleOverwrite : Bool) : Accounted view.1 ∧
      (Accounted (stateAfter view.1 (addCoin o coin possibleOverwrite)) ↔
        ¬Leaks view.1 o coin possibleOverwrite) :=
  ⟨view.2.accounted, view.2.accounted.addCoin_iff⟩

/-- The second call takes the usage off and then refuses, so spending the coin leaves a negative
sum. -/
theorem addCoin_twice_wraps :
    let o : COutPoint := ⟨7, 0⟩
    let db : CCoinsViewDB ⟨Coin, id, some⟩ := {}
    let coin : Coin := ⟨⟨5, .replicate 29 0, [], 0⟩, false, 1⟩
    let add (view : CCoinsViewCache (CCoinsViewDB ⟨Coin, id, some⟩)) :=
      stateAfter view (addCoin o coin false)
    let view := add (add { base := db })
    ¬Accounted view ∧ (stateAfter view (spendCoin o)).cachedCoinsUsage = -48 :=
  ⟨fun hs => absurd hs.sum (by decide), by decide⟩

end ImageCoin
