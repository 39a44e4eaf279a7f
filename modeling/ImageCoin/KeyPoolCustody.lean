import ImageCoin.KeyPool

/-!
# Who has a key of the pool

Every index has at most one holder: one of the two sets of the pool, or a reservation.
-/

namespace ImageCoin.KeyPool

open MapEntries StepRuns CWallet Function List Option Finset

inductive Holder where
  | pool (fInternal : Bool)
  | reservation (j : ℕ)
deriving DecidableEq

abbrev Custody := ℤ → Option Holder

variable {holder : Holder} {CKeyID : Type} {gen : KeyGenerator CKeyID}
  {w : CWallet CKeyID} {owner : Custody} {n : ℤ} {keypool : CKeyPool} {j : ℕ}
  {fInternal : Bool}

namespace CWallet

@[simp] theorem setKeyPool_withKeyPool (w : CWallet CKeyID) (b b' : Bool) (s : Finset ℤ) :
    (w.withKeyPool b s).setKeyPool b' = if b' = b then s else w.setKeyPool b' := by
  cases b <;> cases b' <;> rfl

variable (b : Bool) (s : Finset ℤ)

@[simp] theorem pool_withKeyPool : (w.withKeyPool b s).pool = w.pool := by
  cases b <;> rfl

@[simp] theorem keys_withKeyPool : (w.withKeyPool b s).keys = w.keys := by
  cases b <;> rfl

@[simp] theorem kept_withKeyPool : (w.withKeyPool b s).kept = w.kept := by
  cases b <;> rfl

@[simp] theorem reserveKeys_withKeyPool : (w.withKeyPool b s).reserveKeys = w.reserveKeys := by
  cases b <;> rfl

@[simp] theorem reserveKey_withKeyPool (j : ℕ) :
    (w.withKeyPool b s).reserveKey j = w.reserveKey j := by
  simp [reserveKey]

theorem reserveKey_withReserveKey (w : CWallet CKeyID) (j k : ℕ) (r : CReserveKey) :
    (w.withReserveKey j r).reserveKey k = if k = j then r else w.reserveKey k := by
  simp only [reserveKey, withReserveKey, lookup_insert_eq]
  split
  · rfl
  · rfl

end CWallet

/-- The key of an index: recorded, in the wallet, valid and not kept. -/
structure IsKey (gen : KeyGenerator CKeyID) (w : CWallet CKeyID) (n : ℤ)
    (keypool : CKeyPool) : Prop where
  pos : 1 ≤ n
  lookup : w.pool.lookup n = some keypool
  known : gen.getID keypool.vchPubKey ∈ w.keys
  valid : isValid keypool.vchPubKey
  notKept : gen.getID keypool.vchPubKey ∉ w.kept.map gen.getID

/-- The indices in use have keys, all different. -/
structure HasKeys (gen : KeyGenerator CKeyID) (w : CWallet CKeyID) (live : Set ℤ) : Prop where
  isKey : ∀ n ∈ live, ∃ keypool, IsKey gen w n keypool
  distinct : ∀ n ∈ live, ∀ m ∈ live, ∀ keypool keypool', w.pool.lookup n = some keypool →
    w.pool.lookup m = some keypool' →
      gen.getID keypool.vchPubKey = gen.getID keypool'.vchPubKey → n = m
  kept_nodup : (w.kept.map gen.getID).Nodup
  kept_known : ∀ id ∈ w.kept.map gen.getID, id ∈ w.keys

/-- The sets and the reservations have the indices that the table gives them. -/
structure Places (w : CWallet CKeyID) (owner : Custody) : Prop where
  pool : ∀ b n, n ∈ w.setKeyPool b ↔ owner n = some (.pool b)
  reserved : ∀ j n, (w.reserveKey j).nIndex = n ∧ n ≠ -1 ↔ owner n = some (.reservation j)
  inPool : ∀ b n keypool, owner n = some (.pool b) → w.pool.lookup n = some keypool →
    keypool.fInternal = b
  inReservation : ∀ j n keypool, owner n = some (.reservation j) →
    w.pool.lookup n = some keypool → w.reserveKey j = ⟨n, keypool.vchPubKey, keypool.fInternal⟩

def Custody.live (owner : Custody) : Set ℤ := { n | owner n ≠ none }

open Custody

/-- The wallet represents a table of holders. -/
structure Represents (gen : KeyGenerator CKeyID) (w : CWallet CKeyID) (owner : Custody) : Prop where
  keys : HasKeys gen w owner.live
  places : Places w owner

namespace HasKeys

variable {w' : CWallet CKeyID} {live : Set ℤ}

theorem congr (h : HasKeys gen w live) (hpool : w'.pool = w.pool) (hkeys : w'.keys = w.keys)
    (hkept : w'.kept = w.kept) : HasKeys gen w' live where
  isKey := fun n hn => by
    obtain ⟨keypool, hpos, hlookup, hknown, hvalid, hnot⟩ := h.isKey n hn
    exact ⟨keypool, hpos, hpool ▸ hlookup, hkeys ▸ hknown, hvalid, hkept ▸ hnot⟩
  distinct := by rw [hpool]; exact h.distinct
  kept_nodup := by rw [hkept]; exact h.kept_nodup
  kept_known := by rw [hkeys, hkept]; exact h.kept_known

theorem create (h : HasKeys gen w live) (hn : n ∉ live) (hpos : 1 ≤ n) (fInternal : Bool) :
    HasKeys gen
      { w with
        keys := gen.getID (gen.newKey w.keys fInternal) :: w.keys
        pool := w.pool.insert n ⟨gen.newKey w.keys fInternal, fInternal⟩ } (insert n live) := by
  have hfresh := gen.newKey_fresh w.keys fInternal
  have hold : ∀ m ∈ live, (w.pool.insert n ⟨gen.newKey w.keys fInternal, fInternal⟩).lookup m =
      w.pool.lookup m := by
    intro m hm
    rw [lookup_insert_eq, if_neg]
    rintro rfl
    exact hn hm
  have hdiffers : ∀ m ∈ live, ∀ keypool, w.pool.lookup m = some keypool →
      gen.getID (gen.newKey w.keys fInternal) ≠ gen.getID keypool.vchPubKey := by
    intro m hm keypool hlookup heq
    obtain ⟨keypool', hkey⟩ := h.isKey m hm
    obtain rfl := some.inj (hlookup.symm.trans hkey.lookup)
    exact hfresh (heq ▸ hkey.known)
  refine ⟨?_, ?_, h.kept_nodup, fun id hid => mem_cons_of_mem _ (h.kept_known id hid)⟩
  · rintro m (rfl | hm)
    · refine ⟨_, hpos, by rw [lookup_insert_eq, if_pos rfl], mem_cons_self,
        gen.newKey_valid _ _, fun hkept => hfresh (h.kept_known _ hkept)⟩
    · obtain ⟨keypool, hkey⟩ := h.isKey m hm
      exact ⟨keypool, hkey.pos, (hold m hm).trans hkey.lookup,
        mem_cons_of_mem _ hkey.known, hkey.valid, hkey.notKept⟩
  · rintro m (rfl | hm) m' (rfl | hm') keypool keypool' hlookup hlookup' heq
    · rfl
    · rw [lookup_insert_eq, if_pos rfl] at hlookup
      rw [hold m' hm'] at hlookup'
      obtain rfl := some.inj hlookup
      exact absurd heq (hdiffers m' hm' keypool' hlookup')
    · rw [lookup_insert_eq, if_pos rfl] at hlookup'
      rw [hold m hm] at hlookup
      obtain rfl := some.inj hlookup'
      exact absurd heq.symm (hdiffers m hm keypool hlookup)
    · exact h.distinct m hm m' hm' keypool keypool' ((hold m hm).symm.trans hlookup)
        ((hold m' hm').symm.trans hlookup') heq

theorem keep (h : HasKeys gen w (insert n live)) (hn : n ∉ live)
    (hlookup : w.pool.lookup n = some keypool) :
    HasKeys gen { w.keepKey n with kept := keypool.vchPubKey :: w.kept } live := by
  obtain ⟨keypool', hkey⟩ := h.isKey n (Set.mem_insert _ _)
  obtain rfl := some.inj (hlookup.symm.trans hkey.lookup)
  have hne : ∀ m ∈ live, m ≠ n := fun m hm heq => hn (heq ▸ hm)
  have hold : ∀ m ∈ live, (w.pool.erase n).lookup m = w.pool.lookup m := fun m hm => by
    rw [lookup_erase_eq, if_neg (hne m hm)]
  refine ⟨fun m hm => ?_, fun m hm m' hm' keypool' keypool'' hlookup' hlookup'' heq => ?_,
    nodup_cons.mpr ⟨hkey.notKept, h.kept_nodup⟩, forall_mem_cons.mpr ⟨hkey.known, h.kept_known⟩⟩
  · obtain ⟨keypool', hkey'⟩ := h.isKey m (Set.mem_insert_of_mem _ hm)
    refine ⟨keypool', hkey'.pos, (hold m hm).trans hkey'.lookup, hkey'.known, hkey'.valid, ?_⟩
    rintro hmem
    rcases mem_cons.mp hmem with heq | hmem
    · exact hne m hm (h.distinct m (Set.mem_insert_of_mem _ hm) n (Set.mem_insert _ _) keypool'
        keypool hkey'.lookup hlookup heq)
    · exact hkey'.notKept hmem
  · exact h.distinct m (Set.mem_insert_of_mem _ hm) m' (Set.mem_insert_of_mem _ hm') keypool'
      keypool'' ((hold m hm).symm.trans hlookup') ((hold m' hm').symm.trans hlookup'') heq

theorem keepNew (h : HasKeys gen w live) (fInternal : Bool) : HasKeys gen { w with
    keys := gen.getID (gen.newKey w.keys fInternal) :: w.keys
    kept := gen.newKey w.keys fInternal :: w.kept } live := by
  have hfresh := gen.newKey_fresh w.keys fInternal
  refine ⟨fun m hm => ?_, h.distinct,
    nodup_cons.mpr ⟨fun hmem => hfresh (h.kept_known _ hmem), h.kept_nodup⟩,
    forall_mem_cons.mpr ⟨mem_cons_self, fun id hid => mem_cons_of_mem _ (h.kept_known id hid)⟩⟩
  obtain ⟨keypool, hkey⟩ := h.isKey m hm
  refine ⟨keypool, hkey.pos, hkey.lookup, mem_cons_of_mem _ hkey.known, hkey.valid, ?_⟩
  intro hmem
  rcases mem_cons.mp hmem with heq | hmem
  · exact hfresh (heq ▸ hkey.known)
  · exact hkey.notKept hmem

end HasKeys

namespace Places

variable (h : Places w owner)
include h
variable {w' : CWallet CKeyID}

theorem move (holder : Option Holder) (hpool : ∀ m, m ≠ n → w'.pool.lookup m = w.pool.lookup m)
    (hset : ∀ b m, m ≠ n → (m ∈ w'.setKeyPool b ↔ m ∈ w.setKeyPool b))
    (hset' : ∀ b, n ∈ w'.setKeyPool b ↔ holder = some (.pool b))
    (hreserve : ∀ j m, m ≠ n → m ≠ -1 → (w'.reserveKey j).nIndex = m ∨
    (w.reserveKey j).nIndex = m → w'.reserveKey j = w.reserveKey j)
    (hreserve' : ∀ j, (w'.reserveKey j).nIndex = n ∧ n ≠ -1 ↔ holder = some (.reservation j))
    (hfits : ∀ keypool, w'.pool.lookup n = some keypool →
    (∀ b, holder = some (.pool b) → keypool.fInternal = b) ∧ ∀ j, holder = some (.reservation j) →
    w'.reserveKey j = ⟨n, keypool.vchPubKey, keypool.fInternal⟩) :
    Places w' (update owner n holder) where
  pool := fun b m => by
    by_cases hm : m = n
    · rw [hm, update_self, hset']
    · rw [update_of_ne hm, hset b m hm, h.pool]
  reserved := fun j m => by
    by_cases hm : m = n
    · rw [hm, update_self, hreserve']
    · rw [update_of_ne hm, ← h.reserved]
      constructor
      · rintro ⟨hindex, hne⟩
        exact ⟨hreserve j m hm hne (.inl hindex) ▸ hindex, hne⟩
      · rintro ⟨hindex, hne⟩
        exact ⟨(hreserve j m hm hne (.inr hindex)).symm ▸ hindex, hne⟩
  inPool := fun b m keypool howner hlookup => by
    by_cases hm : m = n
    · rw [hm] at hlookup howner
      exact (hfits keypool hlookup).1 b (by rwa [update_self] at howner)
    · rw [update_of_ne hm] at howner
      exact h.inPool b m keypool howner ((hpool m hm).symm.trans hlookup)
  inReservation := fun j m keypool howner hlookup => by
    by_cases hm : m = n
    · rw [hm] at hlookup howner ⊢
      exact (hfits keypool hlookup).2 j (by rwa [update_self] at howner)
    · rw [update_of_ne hm] at howner
      obtain ⟨hindex, hne⟩ := (h.reserved j m).mpr howner
      rw [hreserve j m hm hne (.inr hindex)]
      exact h.inReservation j m keypool howner ((hpool m hm).symm.trans hlookup)

theorem take (howner : owner n = some (.pool fInternal)) :
    Places (w.withKeyPool fInternal ((w.setKeyPool fInternal).erase n))
      (update owner n none) := by
  refine h.move none (fun m _ => by simp) (fun b m hm => ?_) (fun b => ?_)
    (fun j m _ _ _ => by simp) (fun j => ?_) fun keypool _ => ⟨nofun, nofun⟩
  · by_cases hb : b = fInternal
    · simp [hb, hm]
    · simp [hb]
  · by_cases hb : b = fInternal
    · simp [hb]
    · have hn : n ∉ w.setKeyPool b := fun hn => by
        have hpool := howner.symm.trans ((h.pool b n).mp hn)
        exact hb (by simpa using hpool.symm)
      simp [hb, hn]
  · have hn := mt (h.reserved j n).mp (by simp [howner])
    simpa using hn

variable (hfree : owner n = none)
include hfree

theorem notMem_of_free (b : Bool) : n ∉ w.setKeyPool b := fun hn => by
  simpa [hfree] using (h.pool b n).mp hn

theorem nIndex_of_free (j : ℕ) : ¬((w.reserveKey j).nIndex = n ∧ n ≠ -1) := fun hn => by
  simpa [hfree] using (h.reserved j n).mp hn

theorem giveBack
    (hfits : ∀ keypool, w.pool.lookup n = some keypool → keypool.fInternal = fInternal) :
    Places (w.withKeyPool fInternal (insert n (w.setKeyPool fInternal)))
      (update owner n (some (.pool fInternal))) := by
  refine h.move _ (fun m _ => by simp) (fun b m hm => ?_) (fun b => ?_)
    (fun j m _ _ _ => by simp) (fun j => ?_) fun keypool hlookup => ⟨fun b hb => ?_, nofun⟩
  · by_cases hb : b = fInternal
    · simp [hb, hm]
    · simp [hb]
  · by_cases hb : b = fInternal
    · simp [hb]
    · simp [hb, h.notMem_of_free hfree, Ne.symm hb]
  · simpa using h.nIndex_of_free hfree j
  · rw [pool_withKeyPool] at hlookup
    exact (hfits keypool hlookup).trans (by simpa using hb)

theorem give (hn : n ≠ -1)
    (hj : (w.reserveKey j).nIndex = -1) (hlookup : w.pool.lookup n = some keypool) :
    Places (w.withReserveKey j ⟨n, keypool.vchPubKey, keypool.fInternal⟩)
      (update owner n (some (.reservation j))) := by
  refine h.move _ (fun m _ => rfl) (fun b m hm => Iff.rfl) (fun b => ?_)
    (fun k m hm hne hindex => ?_) (fun k => ?_) fun keypool' hlookup' => ⟨nofun, fun k hk => ?_⟩
  · exact iff_of_false (h.notMem_of_free hfree b) nofun
  · rw [reserveKey_withReserveKey] at hindex ⊢
    split
    next hk =>
      rw [if_pos hk, hk, hj] at hindex
      exact (hindex.elim (fun h => hm h.symm) fun h => hne h.symm).elim
    next => rfl
  · rw [reserveKey_withReserveKey]
    split
    next hk => simp [hk, hn]
    next hk =>
      have hne := h.nIndex_of_free hfree k
      simp [hne, Ne.symm hk]
  · obtain rfl : j = k := by simpa using hk
    rw [reserveKey_withReserveKey, if_pos rfl]
    obtain rfl := some.inj (hlookup.symm.trans hlookup')
    rfl

omit hfree in
theorem release (howner : owner n = some (.reservation j)) (r : CReserveKey) (hr : r.nIndex = -1) :
    Places (w.withReserveKey j r) (update owner n none) := by
  obtain ⟨hindex, hn⟩ := (h.reserved j n).mpr howner
  refine h.move _ (fun m _ => rfl) (fun b m hm => Iff.rfl) (fun b => ?_)
    (fun k m hm hne hindex' => ?_) (fun k => ?_) fun keypool _ => ⟨nofun, nofun⟩
  · refine iff_of_false (fun hmem => ?_) nofun
    have hpool : owner n = some (.pool b) := (h.pool b n).mp hmem
    simp [howner] at hpool
  · rw [reserveKey_withReserveKey] at hindex' ⊢
    split
    next hk =>
      rw [if_pos hk, hk, hr, hindex] at hindex'
      exact (hindex'.elim (fun h => hne h.symm) fun h => hm h.symm).elim
    next => rfl
  · rw [reserveKey_withReserveKey]
    split
    next => simp [hr, Ne.symm hn]
    next hk =>
      refine iff_of_false (fun hindex' => ?_) nofun
      have hother : owner n = some (.reservation k) := (h.reserved k n).mp hindex'
      rw [howner] at hother
      exact hk (by simpa using hother.symm)

theorem congr (hpool : ∀ m, m ≠ n → w'.pool.lookup m = w.pool.lookup m)
    (hset : ∀ b, w'.setKeyPool b = w.setKeyPool b)
    (hreserve : w'.reserveKeys = w.reserveKeys) : Places w' owner := by
  have hkey : ∀ k, w'.reserveKey k = w.reserveKey k := fun k => by
    rw [reserveKey, hreserve]
    rfl
  have hne : ∀ m holder, owner m = some holder → m ≠ n := fun m holder hm heq => by
    simp [heq, hfree] at hm
  refine ⟨fun b m => by rw [hset, h.pool], fun k m => by rw [hkey, h.reserved],
    fun b m keypool hm hlookup => ?_, fun k m keypool hm hlookup => ?_⟩
  · exact h.inPool b m keypool hm ((hpool m (hne m _ hm)).symm.trans hlookup)
  · rw [hkey]
    exact h.inReservation k m keypool hm ((hpool m (hne m _ hm)).symm.trans hlookup)

end Places

/-! ## Filling the pool -/

theorem Custody.live_update_some (owner : Custody) (n : ℤ) (holder : Holder) :
    live (update owner n (some holder)) = insert n owner.live := by
  ext m
  by_cases hm : m = n
  · simp [live, hm]
  · simp [live, hm]

theorem Custody.insert_live_update_none (howner : owner n = some holder) :
    insert n (live (update owner n none)) = owner.live := by
  ext m
  by_cases hm : m = n
  · simp [live, hm, howner]
  · simp [live, hm]

theorem Custody.notMem_live_update_none (owner : Custody) (n : ℤ) :
    n ∉ live (update owner n none) := by
  simp [live]

namespace CWallet

theorem lt_nEnd (hn : n ∈ w.setInternalKeyPool ∪ w.setExternalKeyPool) : n < w.nEnd := by
  unfold nEnd
  rcases mem_union.mp hn with hn | hn
  · have hle := le_max' _ n hn
    have hne : w.setInternalKeyPool.Nonempty := ⟨n, hn⟩
    dsimp only
    split
    · exact lt_max_of_lt_left (Int.lt_add_one_of_le hle)
    · exact Int.lt_add_one_of_le hle
  · have hle := le_max' _ n hn
    have hne : w.setExternalKeyPool.Nonempty := ⟨n, hn⟩
    rw [dif_pos hne]
    exact lt_max_of_lt_right (Int.lt_add_one_of_le hle)

theorem nEnd_pos (hpos : ∀ n ∈ w.setInternalKeyPool, 1 ≤ n) : 1 ≤ w.nEnd := by
  have hinternal : 1 ≤ if h : w.setInternalKeyPool.Nonempty then
      w.setInternalKeyPool.max' h + 1 else 1 := by
    split
    next h =>
      have hmax := hpos _ (max'_mem _ h)
      omega
    next => exact le_rfl
  unfold nEnd
  dsimp only
  split
  · exact le_max_of_le_left hinternal
  · exact hinternal

/-- The sets have an index at least as large as any that is out on a reservation. -/
def Covered (w : CWallet CKeyID) : Prop :=
  ∀ e ∈ w.reserveKeys.entries, e.2.nIndex ≠ -1 →
    ∃ n ∈ w.setInternalKeyPool ∪ w.setExternalKeyPool, e.2.nIndex ≤ n

instance (w : CWallet CKeyID) : Decidable w.Covered :=
  inferInstanceAs (Decidable (∀ e ∈ w.reserveKeys.entries, _ → _))

theorem Covered.exists_le (h : w.Covered) (hj : (w.reserveKey j).nIndex ≠ -1) :
    ∃ n ∈ w.setInternalKeyPool ∪ w.setExternalKeyPool, (w.reserveKey j).nIndex ≤ n := by
  unfold reserveKey at hj ⊢
  cases hlookup : w.reserveKeys.lookup j with
  | none => simp [hlookup] at hj
  | some r =>
    rw [hlookup] at hj
    exact h ⟨j, r⟩ (AList.mem_lookup_iff.mp hlookup) hj

theorem mem_union_iff : n ∈ w.setInternalKeyPool ∪ w.setExternalKeyPool ↔
    ∃ b, n ∈ w.setKeyPool b := by
  simp [setKeyPool, or_comm]

end CWallet

namespace Represents

variable (h : Represents gen w owner)
include h

theorem nEnd_free (hcovered : w.Covered) : owner w.nEnd = none := by
  cases howner : owner w.nEnd with
  | none => rfl
  | some holder =>
    exfalso
    cases holder with
    | pool b =>
      have hmem := mem_union_iff.mpr ⟨b, (h.places.pool b _).mpr howner⟩
      exact lt_irrefl _ (lt_nEnd hmem)
    | reservation j =>
      obtain ⟨hindex, hne⟩ := (h.places.reserved j _).mpr howner
      obtain ⟨n, hn, hle⟩ := hcovered.exists_le (by rw [hindex]; exact hne)
      exact absurd (lt_nEnd hn) (not_lt.mpr (hindex ▸ hle))

theorem exists_isKey (howner : owner n = some holder) : ∃ keypool, IsKey gen w n keypool :=
  h.keys.isKey n (by simp [live, howner])

theorem one_le_nEnd : 1 ≤ w.nEnd := by
  refine nEnd_pos fun n hn => ?_
  obtain ⟨keypool, hkey⟩ := h.exists_isKey ((h.places.pool true n).mp hn)
  exact hkey.pos

theorem addKey (hcovered : w.Covered) (fInternal : Bool) : Represents gen (w.addKey gen fInternal)
    (update owner w.nEnd (some (.pool fInternal))) := by
  have hfree := h.nEnd_free hcovered
  have hkeys := h.keys.create (by simp [live, hfree]) h.one_le_nEnd fInternal
  refine ⟨?_, ?_⟩
  · rw [live_update_some]
    exact hkeys.congr (by simp [CWallet.addKey, CWallet.generateNewKey])
      (by simp [CWallet.addKey, CWallet.generateNewKey])
      (by simp [CWallet.addKey, CWallet.generateNewKey])
  · have hplaces : Places
        { w with
          keys := gen.getID (gen.newKey w.keys fInternal) :: w.keys
          pool := w.pool.insert w.nEnd ⟨gen.newKey w.keys fInternal, fInternal⟩ } owner :=
      h.places.congr hfree (fun m hm => by rw [lookup_insert_eq, if_neg hm]) (fun b => rfl) rfl
    refine hplaces.giveBack hfree fun keypool hlookup => ?_
    rw [lookup_insert_eq, if_pos rfl] at hlookup
    exact (some.inj hlookup) ▸ rfl

end Represents

theorem CWallet.reserveKeys_addKey (b : Bool) : (w.addKey gen b).reserveKeys = w.reserveKeys := by
  simp [addKey, generateNewKey]

open CWallet

theorem CWallet.Covered.addKey (h : w.Covered) (b : Bool) : (w.addKey gen b).Covered := by
  intro e he hne
  rw [reserveKeys_addKey] at he
  obtain ⟨n, hn, hle⟩ := h e he hne
  obtain ⟨b', hb'⟩ := mem_union_iff.mp hn
  refine ⟨n, mem_union_iff.mpr ⟨b', ?_⟩, hle⟩
  have hset : (w.addKey gen b).setKeyPool b' =
      if b' = b then insert w.nEnd (w.setKeyPool b) else w.setKeyPool b' :=
    setKeyPool_withKeyPool ..
  rw [hset]
  split
  next heq => exact mem_insert_of_mem (heq ▸ hb')
  next => exact hb'

namespace Represents

theorem addKeys (missingInternal : ℕ) {i : ℕ} (h : Represents gen w owner) (hcovered : w.Covered) :
    ∃ owner', Represents gen (addKeys gen missingInternal i w) owner' ∧
      (addKeys gen missingInternal i w).reserveKeys = w.reserveKeys := by
  induction i generalizing w owner with
  | zero => exact ⟨owner, h, rfl⟩
  | succ i ih =>
    obtain ⟨owner', h', hkeys⟩ := ih (h.addKey hcovered (decide (i < missingInternal)))
      (hcovered.addKey _)
    exact ⟨owner', h', hkeys.trans (reserveKeys_addKey _)⟩

end Represents

def CWallet.TopUpCovered (w : CWallet CKeyID) (kpSize : UInt32) : Prop :=
  w.fLocked = false → 0 < w.missingInternal kpSize + w.missingExternal kpSize → w.Covered

instance (w : CWallet CKeyID) (kpSize : UInt32) : Decidable (w.TopUpCovered kpSize) :=
  inferInstanceAs (Decidable (_ → _ → _))

section
variable (h : Represents gen w owner)
include h

theorem Represents.topUpKeyPool {kpSize : UInt32} (hcovered : w.TopUpCovered kpSize) :
    ∃ owner', Represents gen (w.topUpKeyPool gen kpSize) owner' ∧
      (w.topUpKeyPool gen kpSize).reserveKeys = w.reserveKeys := by
  unfold CWallet.topUpKeyPool
  split
  next => exact ⟨owner, h, rfl⟩
  next hlocked =>
    rcases Nat.eq_zero_or_pos (w.missingInternal kpSize + w.missingExternal kpSize) with
      hzero | hpos
    · rw [hzero]
      exact ⟨owner, h, rfl⟩
    · exact h.addKeys _ (hcovered (by simpa using hlocked) hpos)

/-! ## Reserving, keeping and returning -/

theorem Represents.reservation (hj : (w.reserveKey j).nIndex ≠ -1) :
    ∃ n keypool, owner n = some (.reservation j) ∧ IsKey gen w n keypool ∧
      w.reserveKey j = ⟨n, keypool.vchPubKey, keypool.fInternal⟩ := by
  have howner := (h.places.reserved j _).mp ⟨rfl, hj⟩
  obtain ⟨keypool, hkey⟩ := h.exists_isKey howner
  exact ⟨_, keypool, howner, hkey, h.places.inReservation j _ keypool howner hkey.lookup⟩

theorem Represents.keepReservedKey (j : ℕ) :
    ∃ owner', Represents gen (w.keepReservedKey j) owner' := by
  unfold CWallet.keepReservedKey
  dsimp only
  split
  next => exact ⟨owner, h⟩
  next hj =>
    obtain ⟨n, keypool, howner, hkey, hreserve⟩ := h.reservation hj
    rw [hreserve]
    have hkeys := h.keys
    rw [← insert_live_update_none howner] at hkeys
    have hplaces := h.places.release howner { fInternal := keypool.fInternal } rfl
    have hfree := notMem_live_update_none owner n
    refine ⟨_, (hkeys.keep hfree hkey.lookup).congr rfl rfl rfl,
      hplaces.congr (update_self ..) (fun m hm => ?_) (fun b => rfl) rfl⟩
    exact (lookup_erase_eq ..).trans (if_neg hm)

theorem Represents.returnReservedKey (j : ℕ) :
    ∃ owner', Represents gen (w.returnReservedKey j) owner' := by
  unfold CWallet.returnReservedKey
  dsimp only
  split
  next => exact ⟨owner, h⟩
  next hj =>
    obtain ⟨n, keypool, howner, hkey, hreserve⟩ := h.reservation hj
    rw [hreserve]
    have hplaces := (h.places.release howner { fInternal := keypool.fInternal } rfl).giveBack
      (update_self ..) (fun keypool' hlookup => by
        rw [some.inj (hlookup.symm.trans hkey.lookup)])
    have hcommute : (w.returnKey n keypool.fInternal).withReserveKey j
          { fInternal := keypool.fInternal } =
        (w.withReserveKey j { fInternal := keypool.fInternal }).withKeyPool keypool.fInternal
          (insert n ((w.withReserveKey j { fInternal := keypool.fInternal }).setKeyPool
            keypool.fInternal)) := by
      cases keypool.fInternal with
      | true => rfl
      | false => rfl
    rw [hcommute]
    refine ⟨_, ?_, hplaces⟩
    rw [live_update_some, insert_live_update_none howner]
    exact h.keys.congr (by simp [withReserveKey]) (by simp [withReserveKey])
      (by simp [withReserveKey])

end

/-- What a wallet has after it was loaded, with nothing reserved: `LoadKeyPool` puts the
index of every record into its set. -/
structure Loaded (gen : KeyGenerator CKeyID) (w : CWallet CKeyID) : Prop where
  sets : ∀ b n, n ∈ w.setKeyPool b ↔ ∃ vchPubKey, w.pool.lookup n = some ⟨vchPubKey, b⟩
  isKey : ∀ n keypool, w.pool.lookup n = some keypool →
    1 ≤ n ∧ gen.getID keypool.vchPubKey ∈ w.keys ∧ isValid keypool.vchPubKey
  distinct : ∀ n m keypool keypool', w.pool.lookup n = some keypool →
    w.pool.lookup m = some keypool' →
      gen.getID keypool.vchPubKey = gen.getID keypool'.vchPubKey → n = m
  reserveKeys : w.reserveKeys = ∅
  kept : w.kept = []

theorem Loaded.represents (h : Loaded gen w) :
    Represents gen w fun n => (w.pool.lookup n).map fun keypool => .pool keypool.fInternal := by
  have hreserve : ∀ j, w.reserveKey j = {} := fun j => by
    simp [reserveKey, h.reserveKeys]
  refine ⟨⟨fun n hn => ?_, fun n _ m _ => h.distinct n m, by simp [h.kept], by simp [h.kept]⟩,
    ⟨fun b n => ?_, fun j n => ?_, fun b n keypool howner hlookup => ?_,
      fun j n keypool howner hlookup => ?_⟩⟩
  · cases hlookup : w.pool.lookup n with
    | none => simp [live, hlookup] at hn
    | some keypool =>
      obtain ⟨hpos, hknown, hvalid⟩ := h.isKey n keypool hlookup
      exact ⟨keypool, hpos, hlookup, hknown, hvalid, by simp [h.kept]⟩
  · rw [h.sets, map_eq_some_iff]
    constructor
    · rintro ⟨vchPubKey, hlookup⟩
      exact ⟨_, hlookup, rfl⟩
    · rintro ⟨keypool, hlookup, heq⟩
      obtain rfl : keypool.fInternal = b := by simpa using heq
      exact ⟨keypool.vchPubKey, hlookup⟩
  · rw [hreserve, map_eq_some_iff]
    exact iff_of_false (fun hn => hn.2 hn.1.symm) (by simp)
  · simpa [hlookup] using howner
  · simp at howner

/-- No two reservations share an index or a key, what was kept is not handed out again, and
the pool has its records. -/
structure Exclusive (w : CWallet CKeyID) : Prop where
  nIndex : ∀ j k, j ≠ k → (w.reserveKey j).nIndex ≠ -1 → (w.reserveKey k).nIndex ≠ -1 →
    (w.reserveKey j).nIndex ≠ (w.reserveKey k).nIndex
  vchPubKey : ∀ j k, j ≠ k → (w.reserveKey j).nIndex ≠ -1 → (w.reserveKey k).nIndex ≠ -1 →
    (w.reserveKey j).vchPubKey ≠ (w.reserveKey k).vchPubKey
  notKept : ∀ j, (w.reserveKey j).nIndex ≠ -1 → (w.reserveKey j).vchPubKey ∉ w.kept
  kept : w.kept.Nodup
  record : ∀ n ∈ w.setInternalKeyPool ∪ w.setExternalKeyPool, (w.pool.lookup n).isSome

theorem Represents.exclusive (h : Represents gen w owner) : Exclusive w := by
  have hindex : ∀ j k, j ≠ k → (w.reserveKey j).nIndex ≠ -1 → (w.reserveKey k).nIndex ≠ -1 →
      (w.reserveKey j).nIndex ≠ (w.reserveKey k).nIndex := by
    intro j k hne hj hk heq
    have hownerj := (h.places.reserved j _).mp ⟨rfl, hj⟩
    have hownerk := (h.places.reserved k _).mp ⟨rfl, hk⟩
    rw [heq, hownerk] at hownerj
    exact hne (by simpa using hownerj.symm)
  refine ⟨hindex, fun j k hne hj hk heq => ?_, fun j hj hmem => ?_,
    List.Nodup.of_map _ h.keys.kept_nodup, fun n hn => ?_⟩
  · obtain ⟨n, keypool, howner, hkey, hreserve⟩ := h.reservation hj
    obtain ⟨m, keypool', howner', hkey', hreserve'⟩ := h.reservation hk
    have hsame : gen.getID keypool.vchPubKey = gen.getID keypool'.vchPubKey := by
      rw [hreserve, hreserve'] at heq
      exact congrArg gen.getID heq
    refine hindex j k hne hj hk ?_
    rw [hreserve, hreserve']
    exact h.keys.distinct n (by simp [live, howner]) m (by simp [live, howner'])
      keypool keypool' hkey.lookup hkey'.lookup hsame
  · obtain ⟨n, keypool, howner, hkey, hreserve⟩ := h.reservation hj
    rw [hreserve] at hmem
    exact hkey.notKept (mem_map_of_mem hmem)
  · obtain ⟨b, hb⟩ := mem_union_iff.mp hn
    obtain ⟨keypool, hkey⟩ := h.exists_isKey ((h.places.pool b n).mp hb)
    rw [hkey.lookup]
    rfl

section
variable [DecidableEq CKeyID]

section
variable (h : Represents gen w owner)
include h

theorem Represents.takeKey (fInternal : Bool) : w.takeKey gen fInternal = .ok (w, -1, {}) ∨
    ∃ n keypool, owner n = some (.pool fInternal) ∧ IsKey gen w n keypool ∧
      w.takeKey gen fInternal =
        .ok (w.withKeyPool fInternal ((w.setKeyPool fInternal).erase n), n, keypool) := by
  unfold CWallet.takeKey
  split
  next hne =>
    right
    have howner := (h.places.pool fInternal _).mp (min'_mem _ hne)
    obtain ⟨keypool, hkey⟩ := h.exists_isKey howner
    have hfits := h.places.inPool _ _ keypool howner hkey.lookup
    refine ⟨_, keypool, howner, hkey, ?_⟩
    simp [hkey.lookup, hkey.known, hkey.valid, hfits]
  next => exact .inl rfl

theorem Represents.reserveKeyFromKeyPool (hcovered : w.TopUpCovered 0) (fInternal : Bool) :
    ∃ w₁ owner₁, Represents gen w₁ owner₁ ∧ w₁.reserveKeys = w.reserveKeys ∧
      (w.reserveKeyFromKeyPool gen fInternal = .ok (w₁, -1, {}) ∨
      ∃ b n keypool, owner₁ n = some (.pool b) ∧ IsKey gen w₁ n keypool ∧
        w.reserveKeyFromKeyPool gen fInternal =
          .ok (w₁.withKeyPool b ((w₁.setKeyPool b).erase n), n, keypool)) := by
  obtain ⟨owner₁, h₁, hkeys⟩ := h.topUpKeyPool hcovered
  refine ⟨_, owner₁, h₁, hkeys, ?_⟩
  rcases h₁.takeKey (fInternal && w.fHDEnabled) with heq | ⟨n, keypool, howner, hkey, heq⟩
  · exact .inl heq
  · exact .inr ⟨_, n, keypool, howner, hkey, heq⟩

theorem Represents.getReservedKey
    (hcovered : (w.reserveKey j).nIndex = -1 → w.TopUpCovered 0) (fInternal : Bool) :
    ∃ w' owner', w.getReservedKey gen j fInternal = .ok w' ∧ Represents gen w' owner' := by
  unfold CWallet.getReservedKey
  split
  next hj =>
    obtain ⟨w₁, owner₁, h₁, hkeys, heq | ⟨b, n, keypool, howner, hkey, heq⟩⟩ :=
      h.reserveKeyFromKeyPool (hcovered hj) fInternal
    · exact ⟨w₁, owner₁, by rw [heq]; rfl, h₁⟩
    · have hn : n ≠ -1 := by
        have hpos := hkey.pos
        omega
      have hj₁ : ((w₁.withKeyPool b ((w₁.setKeyPool b).erase n)).reserveKey j).nIndex = -1 := by
        rw [reserveKey_withKeyPool, reserveKey, hkeys]
        exact hj
      refine ⟨_, _, ?_, ?_, (h₁.places.take howner).give (by simp) hn hj₁
        ((pool_withKeyPool _ _).symm ▸ hkey.lookup)⟩
      · rw [heq]
        exact if_neg hn
      · rw [live_update_some, insert_live_update_none howner]
        exact h₁.keys.congr (by simp [withReserveKey])
          (by simp [withReserveKey]) (by simp [withReserveKey])
  next hj =>
    have howner := (h.places.reserved j _).mp ⟨rfl, hj⟩
    obtain ⟨keypool, hkey⟩ := h.exists_isKey howner
    have hvalid : isValid (w.reserveKey j).vchPubKey := by
      rw [h.places.inReservation j _ keypool howner hkey.lookup]
      exact hkey.valid
    exact ⟨w, owner, if_pos hvalid, h⟩

theorem Represents.handOut (hcovered : w.TopUpCovered 0) (fInternal : Bool) :
    ∃ w' owner', w.handOut gen fInternal = .ok w' ∧ Represents gen w' owner' := by
  obtain ⟨w₁, owner₁, h₁, _, heq | ⟨b, n, keypool, howner, hkey, heq⟩⟩ :=
    h.reserveKeyFromKeyPool hcovered fInternal
  · cases hlocked : w₁.fLocked with
    | true =>
      refine ⟨w₁, owner₁, ?_, h₁⟩
      simp [CWallet.handOut, CWallet.getKeyFromPool, heq, hlocked, bind, Except.bind, pure,
        Except.pure]
      rw [← hlocked]
    | false =>
      refine ⟨_, owner₁, ?_, h₁.keys.keepNew fInternal,
        ⟨h₁.places.pool, h₁.places.reserved, h₁.places.inPool, h₁.places.inReservation⟩⟩
      simp [CWallet.handOut, CWallet.getKeyFromPool, heq, hlocked, bind, Except.bind, pure,
        Except.pure, CWallet.generateNewKey]
  · have hn : n ≠ -1 := by
      have hpos := hkey.pos
      omega
    have hkeys : HasKeys gen (w₁.withKeyPool b ((w₁.setKeyPool b).erase n))
        (insert n (live (update owner₁ n none))) := by
      rw [insert_live_update_none howner]
      exact h₁.keys.congr (by simp) (by simp) (by simp)
    have hfree := notMem_live_update_none owner₁ n
    refine ⟨_, _, ?_, hkeys.keep hfree (by simpa using hkey.lookup),
      (h₁.places.take howner).congr (update_self ..) (fun m hm => ?_) (fun b => rfl) rfl⟩
    · simp [CWallet.handOut, CWallet.getKeyFromPool, heq, hn, bind, Except.bind, pure,
        Except.pure, CWallet.keepKey]
    · exact (lookup_erase_eq ..).trans (if_neg hm)

end

def CWallet.StepCovered (w : CWallet CKeyID) : KeyPoolOp → Prop
  | .topUpKeyPool kpSize => w.TopUpCovered kpSize
  | .getReservedKey j _ => (w.reserveKey j).nIndex = -1 → w.TopUpCovered 0
  | .getKeyFromPool _ => w.TopUpCovered 0
  | .keepKey _ | .returnKey _ | .lock | .unlock => True

instance (w : CWallet CKeyID) : ∀ op, Decidable (w.StepCovered op)
  | .topUpKeyPool _ => inferInstanceAs (Decidable (w.TopUpCovered _))
  | .getReservedKey _ _ => inferInstanceAs (Decidable (_ → w.TopUpCovered 0))
  | .getKeyFromPool _ => inferInstanceAs (Decidable (w.TopUpCovered 0))
  | .keepKey _ | .returnKey _ | .lock | .unlock => .isTrue trivial

theorem Represents.step {op : KeyPoolOp} (h : Represents gen w owner)
    (hcovered : w.StepCovered op) :
    ∃ w', w.step gen op = some w' ∧ ∃ owner', Represents gen w' owner' := by
  cases op with
  | topUpKeyPool kpSize =>
    obtain ⟨owner', h', _⟩ := h.topUpKeyPool hcovered
    exact ⟨_, rfl, owner', h'⟩
  | getReservedKey j fInternal =>
    obtain ⟨w', owner', heq, h'⟩ := h.getReservedKey hcovered fInternal
    exact ⟨w', by rw [CWallet.step, heq]; rfl, owner', h'⟩
  | keepKey j => exact ⟨_, rfl, h.keepReservedKey j⟩
  | returnKey j => exact ⟨_, rfl, h.returnReservedKey j⟩
  | getKeyFromPool fInternal =>
    obtain ⟨w', owner', heq, h'⟩ := h.handOut hcovered fInternal
    exact ⟨w', by rw [CWallet.step, heq]; rfl, owner', h'⟩
  | lock => exact ⟨_, rfl, owner, ⟨h.keys.congr rfl rfl rfl, ⟨h.places.pool, h.places.reserved,
      h.places.inPool, h.places.inReservation⟩⟩⟩
  | unlock => exact ⟨_, rfl, owner, ⟨h.keys.congr rfl rfl rfl, ⟨h.places.pool,
      h.places.reserved, h.places.inPool, h.places.inReservation⟩⟩⟩

/-- Runs that make keys only while the reservations are covered never throw, and keep the
keys apart. -/
theorem CWallet.run_exclusive (gen : KeyGenerator CKeyID) (w : CWallet CKeyID)
    (ops : List KeyPoolOp) (hloaded : Loaded gen w)
    (hcovered : Throughout (step gen) StepCovered w ops) :
    ∃ w', run (step gen) w ops = some w' ∧ Exclusive w' := by
  have hstep : ∀ {w op}, (∃ owner, Represents gen w owner) → w.StepCovered op →
      ∃ w', w.step gen op = some w' ∧ ∃ owner', Represents gen w' owner' := by
    rintro w op ⟨owner, h⟩ hcovered
    exact h.step hcovered
  obtain ⟨w', hrun, owner', h'⟩ := exists_run hstep ⟨_, hloaded.represents⟩ hcovered
  exact ⟨w', hrun, h'.exclusive⟩

end

def countingKeys : KeyGenerator ℕ where
  getID := length
  newKey := fun keys _ => replicate (keys.sum + 1) 2
  newKey_valid := fun _ _ => rfl
  newKey_fresh := fun keys _ hmem => by
    have hle := single_le_sum (by simp) _ hmem
    simp at hle

variable (nKeyPool : ℤ)

def newWallet : CWallet ℕ where
  fHDEnabled := false
  nKeyPool := nKeyPool

theorem loaded_newWallet : Loaded countingKeys (newWallet nKeyPool) where
  sets := fun b n => by cases b <;> simp [newWallet, setKeyPool]
  isKey := fun n keypool hlookup => by simp [newWallet] at hlookup
  distinct := fun n m keypool keypool' hlookup => by simp [newWallet] at hlookup
  reserveKeys := rfl
  kept := rfl

/-- The second reservation gets the index of the first one; when the second is kept and
the first returned, the index has no record and the next reservation throws. -/
theorem CWallet.run_sharedIndex : (run (step countingKeys) (newWallet 1)
        [.getReservedKey 0 false, .getReservedKey 1 false]).map
      (fun w => ((w.reserveKey 0).nIndex, (w.reserveKey 1).nIndex)) = some (1, 1) ∧
    (run (step countingKeys) (newWallet 1)
      [.getReservedKey 0 false, .getReservedKey 1 false, .keepKey 1, .returnKey 0,
        .getReservedKey 2 false]).isNone := by
  decide +kernel

theorem CWallet.run_exclusive_pool : ∃ w', run (step countingKeys) (newWallet 3)
      [.getReservedKey 0 false, .getReservedKey 1 true, .keepKey 0, .topUpKeyPool 4, .lock,
        .getKeyFromPool false, .returnKey 1, .unlock, .getReservedKey 0 false] = some w' ∧
      Exclusive w' :=
  run_exclusive countingKeys _ _ (loaded_newWallet 3) (by decide +kernel)

end ImageCoin.KeyPool
