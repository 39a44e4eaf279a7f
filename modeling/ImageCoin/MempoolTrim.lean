import ImageCoin.MempoolRemoval

/-!
# Trimming the mempool

`DynamicMemoryUsage` and `TrimToSize` of `txmempool.cpp`.  The usage counts the recorded fee
deltas, and no removal lowers that part: a pool can be empty and still above the limit.
-/

namespace ImageCoin

open MapEntries Worklist CTxMemPoolEntry List Option

namespace CTxMemPool

variable {side : LinkSide} {other : UInt256} {pv : List COutPoint}

def mapUsage {α β : Type} (node : ℕ) (m : Map α β) : ℕ := node * m.entries.length

def dynamicMemoryUsage (pool : CTxMemPool) : ℤ :=
  mapUsage pool.memUsage.mapTxNode pool.mapTx +
    mapUsage pool.memUsage.mapNextTxNode pool.mapNextTx +
    mapUsage pool.memUsage.mapDeltasNode pool.mapDeltas +
    mapUsage pool.memUsage.mapLinksNode pool.mapLinks + pool.cachedInnerUsage

/-- Reading `*begin()` of an empty index. -/
inductive EmptyIndex where
  | mk
  deriving DecidableEq

/-- One round of the loop, from the first entry of the index by descendant score. -/
def trimRound (pool : CTxMemPool) (it : UInt256) : Option (CTxMemPool × List COutPoint) := do
  let stage ← pool.calculateDescendants it []
  let txn := stage.filterMap fun hash => (pool.mapTx.lookup hash).map tx
  let rest := pool.removeStaged stage
  pure (rest, ((txn.flatMap fun tx => tx.vin.map CTxIn.prevout).filter fun o => !rest.has o.hash))

/-- The loop, with `begin` for `mapTx.get<1>().begin()`; the rolling fee rate is left out. -/
def trimLoop (begin : CTxMemPool → Option UInt256) (sizelimit : ℕ) :
    ℕ → CTxMemPool → List COutPoint → Option (Except EmptyIndex (CTxMemPool × List COutPoint))
  | fuel, pool, pvNoSpendsRemaining =>
    if pool.dynamicMemoryUsage ≤ sizelimit then some (.ok (pool, pvNoSpendsRemaining))
    else
      match begin pool, fuel with
      | none, _ => some (.error .mk)
      | some _, 0 => none
      | some it, fuel + 1 =>
        match pool.trimRound it with
        | none => none
        | some (rest, new) => trimLoop begin sizelimit fuel rest (pvNoSpendsRemaining ++ new)

def trimToSize (begin : CTxMemPool → Option UInt256) (pool : CTxMemPool) (sizelimit : ℕ) :
    Option (Except EmptyIndex (CTxMemPool × List COutPoint)) :=
  trimLoop begin sizelimit pool.mapTx.keys.length pool []

def linkCount (l : TxLinks) : ℕ := l.parents.length + l.children.length

/-- The cached usage is that of the entries and of their links. -/
structure Accounted (pool : CTxMemPool) : Prop where
  usage : pool.cachedInnerUsage = sumEntries pool.mapTx nUsageSize +
    pool.memUsage.setEntriesNode * sumEntries pool.mapLinks linkCount
  nodup : ∀ side hash, (pool.links side hash).Nodup
  keys : ∀ hash, (pool.mapLinks.lookup hash).isSome → (pool.coreAt hash).isSome

variable {pool pool' : CTxMemPool} {it : UInt256}

theorem linkCount_modifySide {l : TxLinks}
    (hnodup : (l.side side).Nodup) (hmem : other ∈ l.side side) :
    linkCount (l.modifySide side (·.filter (· ≠ other))) + 1 = linkCount l := by
  have hlen : ((l.side side).filter (· ≠ other)).length + 1 = (l.side side).length := by
    have hfilter : (l.side side).filter (· ≠ other) = (l.side side).erase other := by
      rw [hnodup.erase_eq_filter]
      exact filter_congr fun x _ => by rw [Bool.eq_iff_iff]; simp
    rw [hfilter, length_erase_of_mem hmem]
    have := length_pos_of_mem hmem
    omega
  cases side <;> simp only [linkCount, TxLinks.modifySide, TxLinks.side] at hlen ⊢ <;> omega

section
variable (h : pool.Accounted)
include h

theorem Accounted.updateLink {entry : UInt256} :
    (updateLink side pool entry other false).Accounted := by
  by_cases hmem : other ∈ pool.links side entry
  · have hrun : CTxMemPool.updateLink side pool entry other false = { pool with
          mapLinks := adjust pool.mapLinks entry fun l => l.modifySide side (·.filter (· ≠ other))
          cachedInnerUsage := pool.cachedInnerUsage - pool.memUsage.setEntriesNode } := by
      simp [CTxMemPool.updateLink, hmem]
    rw [hrun]
    obtain ⟨l, hl⟩ : ∃ l, pool.mapLinks.lookup entry = some l := by
      cases hl : pool.mapLinks.lookup entry with
      | none => simp [links, hl] at hmem
      | some l => exact ⟨l, rfl⟩
    have hside : pool.links side entry = l.side side := by rw [links, hl]; rfl
    have hcount := linkCount_modifySide (hside ▸ h.nodup side entry) (hside ▸ hmem)
    have hsum := sumEntries_adjust pool.mapLinks linkCount entry
      fun l => l.modifySide side (·.filter (· ≠ other))
    rw [hl, elim_some, elim_some] at hsum
    refine ⟨?_, fun side' hash => ?_, fun hash hkey => h.keys hash ?_⟩
    · have hone : sumEntries pool.mapLinks linkCount = sumEntries (adjust pool.mapLinks entry
          fun l => l.modifySide side (·.filter (· ≠ other))) linkCount + 1 := by omega
      simp only [h.usage, hone]
      push_cast
      ring
    · have hold := h.nodup side' hash
      simp only [links, lookup_adjust] at hold ⊢
      split_ifs with heq
      · subst heq
        rw [hl] at hold ⊢
        cases side <;> cases side' <;>
          simp only [elim_some] at hold ⊢
        all_goals first | exact hold | exact hold.filter _
      · exact hold
    · simp only [lookup_adjust] at hkey
      split_ifs at hkey with heq
      · subst heq
        simpa using hkey
      · exact hkey
  · have hrun : CTxMemPool.updateLink side pool entry other false = pool := by
      simp [CTxMemPool.updateLink, hmem]
    rwa [hrun]

omit h in
theorem sumEntries_updateState {a b c : ℤ} {m : Map UInt256 CTxMemPoolEntry} {l : List UInt256} :
    sumEntries (l.foldl (fun m k => adjust m k (updateState a b c)) m)
      nUsageSize = sumEntries m nUsageSize := by
  refine foldlRecOn (motive := fun m' : Map UInt256 CTxMemPoolEntry =>
    sumEntries m' nUsageSize = sumEntries m nUsageSize) l _ rfl
    fun m' hm' k _ => ?_
  have hsame : ∀ e, (updateState a b c e).nUsageSize = e.nUsageSize := by
    intro e
    unfold updateState
    split_ifs <;> rfl
  have hsum := sumEntries_adjust m' nUsageSize k (updateState a b c)
  simp only [hsame] at hsum
  exact (Nat.add_right_cancel hsum).trans hm'

theorem Accounted.updateAncestorsOf
    {setAncestors : List UInt256} : (pool.updateAncestorsOf false it setAncestors).Accounted := by
  have hlinked : ((pool.getMemPoolParents it).foldl
      (fun p piter => updateChild p piter it false) pool).Accounted :=
    foldlRecOn _ _ h fun p hp piter _ => hp.updateLink
  unfold CTxMemPool.updateAncestorsOf
  cases pool.mapTx.lookup it with
  | none => exact hlinked
  | some e =>
    refine ⟨?_, hlinked.nodup, fun hash hkey => ?_⟩
    · simp [sumEntries_updateState]
      exact hlinked.usage
    · rw [coreAt, map_forget_foldl_adjust]
      exact hlinked.keys hash hkey

theorem Accounted.removeUnchecked : (pool.removeUnchecked it).Accounted := by
  unfold CTxMemPool.removeUnchecked
  cases hlook : pool.mapTx.lookup it with
  | none => exact h
  | some e =>
    have htx := sumEntries_erase pool.mapTx nUsageSize it
    have hlinks := sumEntries_erase pool.mapLinks linkCount it
    have hcount : (pool.mapLinks.lookup it).elim 0 linkCount =
        (pool.getMemPoolParents it).length + (pool.getMemPoolChildren it).length := by
      rw [getMemPoolParents, getMemPoolChildren]
      cases pool.mapLinks.lookup it <;> rfl
    rw [hlook] at htx
    rw [hcount] at hlinks
    refine ⟨?_, fun side hash => ?_, fun hash hkey => ?_⟩
    · simp [h.usage, ← htx, ← hlinks]
      ring
    · have hold := h.nodup side hash
      simp only [links, lookup_erase_eq] at hold ⊢
      split_ifs
      · exact nodup_nil
      · exact hold
    · simp only [coreAt, lookup_erase_eq] at hkey ⊢
      split_ifs at hkey ⊢ with heq
      · simp at hkey
      · exact h.keys hash hkey

theorem Accounted.removeStaged (stage : List UInt256) : (pool.removeStaged stage).Accounted := by
  refine foldlRecOn stage _ ?_ fun p hp it _ => hp.removeUnchecked
  refine foldlRecOn stage _ ?_ fun p hp it _ => ?_
  · exact foldlRecOn stage _ h fun p hp it _ =>
      hp.updateAncestorsOf
  · exact foldlRecOn _ _ hp fun p hp u _ => hp.updateLink

end

/-! ## Trimming -/

/-- Rounds that each remove a set with all its descendants, and report the outpoints of its
inputs whose parent is then not in the pool. -/
inductive Trims : CTxMemPool → List COutPoint → CTxMemPool → Prop
  | refl (pool : CTxMemPool) : Trims pool [] pool
  | round {pool pool' : CTxMemPool} {pv new : List COutPoint} (stage : List UInt256) :
      stage ≠ [] → (∀ x ∈ stage, (pool.coreAt x).isSome) →
      (∀ x ∈ stage, ∀ y, pool.SpendsFrom y x → y ∈ stage) →
      (∀ o, o ∈ new ↔ (∃ x ∈ stage, ∃ e, pool.coreAt x = some e ∧
        o ∈ e.tx.vin.map CTxIn.prevout) ∧ (pool.removeStaged stage).coreAt o.hash = none) →
      Trims (pool.removeStaged stage) pv pool' → Trims pool (new ++ pv) pool'

theorem deltasUsage_le (h : pool.Accounted) :
    (mapUsage pool.memUsage.mapDeltasNode pool.mapDeltas : ℤ) ≤ pool.dynamicMemoryUsage := by
  rw [dynamicMemoryUsage, h.usage]
  have hlinks : (0 : ℤ) ≤ pool.memUsage.setEntriesNode * sumEntries pool.mapLinks linkCount := by
    positivity
  omega

theorem entries_eq_nil {α β : Type} [DecidableEq α] {m : Map α β}
    (hnone : ∀ k, m.lookup k = none) : m.entries = [] := by
  refine eq_nil_iff_forall_not_mem.mpr fun e he => ?_
  have hlook := AList.mem_lookup_iff.mpr (show (⟨e.1, e.2⟩ : Sigma _) ∈ m.entries from he)
  rw [hnone] at hlook
  exact not_mem_none _ hlook

/-- An empty pool still counts its fee deltas. -/
theorem dynamicMemoryUsage_empty (hlinked : pool.Linked) (h : pool.Accounted)
    (hempty : ∀ hash, pool.coreAt hash = none) :
    pool.dynamicMemoryUsage = mapUsage pool.memUsage.mapDeltasNode pool.mapDeltas := by
  have htx := entries_eq_nil fun hash => map_eq_none_iff.mp (hempty hash)
  have hnext := entries_eq_nil fun o => by
    rw [eq_none_iff_forall_not_mem]
    intro hash hmem
    obtain ⟨e, he, -⟩ := (hlinked.spends o hash).mp hmem
    simp [hempty] at he
  have hlinks := entries_eq_nil fun hash => by
    cases hlook : pool.mapLinks.lookup hash with
    | none => rfl
    | some l =>
      have hsome := h.keys hash (by rw [hlook]; rfl)
      simp [hempty] at hsome
  simp [dynamicMemoryUsage, h.usage, mapUsage, sumEntries, htx, hnext, hlinks]

theorem removeStaged_deltas (pool : CTxMemPool) (stage : List UInt256) :
    (pool.removeStaged stage).mapDeltas = pool.mapDeltas ∧
      (pool.removeStaged stage).memUsage = pool.memUsage := by
  have hframe := updateForRemoveFromMempool_frame pool stage
  refine foldlRecOn (motive := fun p : CTxMemPool => p.mapDeltas = pool.mapDeltas ∧
    p.memUsage = pool.memUsage) stage _ ⟨hframe.mapDeltas, hframe.memUsage⟩ fun p hp it _ => ?_
  unfold removeUnchecked
  cases p.mapTx.lookup it <;> exact hp

theorem keys_removeStaged_lt {stage : List UInt256} (hit : (pool.coreAt it).isSome)
    (hmem : it ∈ stage) : (pool.removeStaged stage).mapTx.keys.length < pool.mapTx.keys.length := by
  have hkey := coreAt_isSome_iff.mp hit
  have hsub : (pool.removeStaged stage).mapTx.keys ⊆ pool.mapTx.keys.erase it := by
    intro hash hhash
    have hsome := coreAt_isSome_iff.mpr hhash
    rw [coreAt_removeStaged] at hsome
    have hout : hash ∉ stage := fun h => by simp [h] at hsome
    rw [if_neg hout] at hsome
    have hne : hash ≠ it := fun h => hout (h ▸ hmem)
    exact (mem_erase_of_ne hne).mpr (coreAt_isSome_iff.mp hsome)
  have hle := (subperm_of_subset (AList.keys_nodup _) hsub).length_le
  rw [length_erase_of_mem hkey] at hle
  have := length_pos_of_mem hkey
  omega

/-- What `begin()` of an index of the pool can be, whatever the order. -/
structure IsBegin (begin : CTxMemPool → Option UInt256) : Prop where
  mem : ∀ pool it, begin pool = some it → (pool.coreAt it).isSome
  empty : ∀ pool, begin pool = none → ∀ hash, pool.coreAt hash = none

theorem trimRound_spec (hlinked : pool.Linked) (hit : (pool.coreAt it).isSome) :
    ∃ stage new, pool.trimRound it = some (pool.removeStaged stage, new) ∧ it ∈ stage ∧
      ∀ pv pool', Trims (pool.removeStaged stage) pv pool' → Trims pool (new ++ pv) pool' := by
  obtain ⟨D, hD, hmem⟩ := hlinked.calculateDescendants hit
  have hself : it ∈ D := (hmem it).mpr .refl
  refine ⟨D, _, by rw [trimRound, hD]; rfl, hself, fun pv pool' htrims => ?_⟩
  refine .round D (ne_nil_of_mem hself) (fun x hx => ?_) (fun x hx y hy => ?_) (fun o => ?_) htrims
  · rcases ((hmem x).mp hx).cases_tail with rfl | ⟨y, -, e, he, -⟩
    · exact hit
    · rw [he]
      rfl
  · exact (hmem y).mpr (((hmem x).mp hx).tail hy)
  · simp only [mem_filter, mem_flatMap, mem_filterMap]
    refine and_congr ⟨?_, ?_⟩ (by simp [has, coreAt])
    · rintro ⟨tx, ⟨x, hx, htx⟩, ho⟩
      obtain ⟨e, he, rfl⟩ := map_eq_some_iff.mp htx
      exact ⟨x, hx, forget e, by rw [coreAt, he]; rfl, ho⟩
    · rintro ⟨x, hx, core, hcore, ho⟩
      obtain ⟨e, he, rfl⟩ := map_eq_some_iff.mp hcore
      exact ⟨e.tx, ⟨x, hx, by rw [he]; rfl⟩, ho⟩

/-- The loop decides whether the fee deltas are within the limit. -/
def LoopDecides (begin : CTxMemPool → Option UInt256) (sizelimit fuel : ℕ) (pool : CTxMemPool)
    (pv : List COutPoint) : Prop :=
  if mapUsage pool.memUsage.mapDeltasNode pool.mapDeltas ≤ sizelimit then
    ∃ pool' new, trimLoop begin sizelimit fuel pool pv = some (.ok (pool', pv ++ new)) ∧
      pool'.dynamicMemoryUsage ≤ sizelimit ∧ Trims pool new pool'
  else trimLoop begin sizelimit fuel pool pv = some (.error .mk)

variable {begin : CTxMemPool → Option UInt256} {sizelimit fuel : ℕ}

theorem loopDecides_of_small (haccounted : pool.Accounted)
    (hsmall : pool.dynamicMemoryUsage ≤ sizelimit) : LoopDecides begin sizelimit fuel pool pv := by
  have hfits : mapUsage pool.memUsage.mapDeltasNode pool.mapDeltas ≤ sizelimit := by
    exact_mod_cast (deltasUsage_le haccounted).trans hsmall
  rw [LoopDecides, if_pos hfits]
  refine ⟨pool, [], ?_, hsmall, .refl pool⟩
  unfold trimLoop
  simp [hsmall]

theorem loopDecides_of_empty (hbegin : IsBegin begin) (hlinked : pool.Linked)
    (haccounted : pool.Accounted) (hsmall : ¬pool.dynamicMemoryUsage ≤ sizelimit)
    (hfirst : begin pool = none) : LoopDecides begin sizelimit fuel pool pv := by
  have husage := dynamicMemoryUsage_empty hlinked haccounted (hbegin.empty pool hfirst)
  have hlarge : ¬mapUsage pool.memUsage.mapDeltasNode pool.mapDeltas ≤ sizelimit := by
    rw [husage] at hsmall
    exact_mod_cast hsmall
  rw [LoopDecides, if_neg hlarge]
  unfold trimLoop
  simp [hsmall, hfirst]

theorem trimLoop_decides (hbegin : IsBegin begin) (hlinked : pool.Linked)
    (haccounted : pool.Accounted) (hfuel : pool.mapTx.keys.length ≤ fuel)
    (pv : List COutPoint) : LoopDecides begin sizelimit fuel pool pv := by
  induction fuel generalizing pool pv with
  | zero =>
    by_cases hsmall : pool.dynamicMemoryUsage ≤ sizelimit
    · exact loopDecides_of_small haccounted hsmall
    · refine loopDecides_of_empty hbegin hlinked haccounted hsmall ?_
      rw [eq_none_iff_forall_not_mem]
      intro it hit
      have := length_pos_of_mem (coreAt_isSome_iff.mp (hbegin.mem pool it hit))
      omega
  | succ fuel ih =>
    by_cases hsmall : pool.dynamicMemoryUsage ≤ sizelimit
    · exact loopDecides_of_small haccounted hsmall
    · cases hfirst : begin pool with
      | none => exact loopDecides_of_empty hbegin hlinked haccounted hsmall hfirst
      | some it =>
        have hit := hbegin.mem pool it hfirst
        obtain ⟨stage, new, hround, hmem, htrims⟩ := trimRound_spec hlinked hit
        obtain ⟨hdeltas, husage⟩ := removeStaged_deltas pool stage
        have hrest := ih (hlinked.removeStaged stage) (haccounted.removeStaged stage)
          (Nat.le_of_lt_succ ((keys_removeStaged_lt hit hmem).trans_le hfuel)) (pv ++ new)
        have hstep : trimLoop begin sizelimit (fuel + 1) pool pv =
            trimLoop begin sizelimit fuel (pool.removeStaged stage) (pv ++ new) := by
          conv_lhs => unfold trimLoop
          simp [hsmall, hfirst, hround]
        rw [LoopDecides, hdeltas, husage] at hrest
        rw [LoopDecides, hstep]
        split_ifs at hrest ⊢ with hfits
        · obtain ⟨pool', more, hrun, hlimit, hmore⟩ := hrest
          exact ⟨pool', new ++ more, by rw [hrun, append_assoc], hlimit, htrims _ _ hmore⟩
        · exact hrest

/-- Trimming succeeds if and only if the recorded fee deltas alone are within the limit. -/
theorem trimToSize_succeeds_iff (hbegin : IsBegin begin) (hlinked : pool.Linked)
    (haccounted : pool.Accounted) (sizelimit : ℕ) :
    (∃ pool' pv, trimToSize begin pool sizelimit = some (.ok (pool', pv)) ∧
      pool'.dynamicMemoryUsage ≤ sizelimit ∧ Trims pool pv pool') ↔
    mapUsage pool.memUsage.mapDeltasNode pool.mapDeltas ≤ sizelimit := by
  have hspec : LoopDecides begin sizelimit _ pool [] :=
    trimLoop_decides hbegin hlinked haccounted le_rfl []
  constructor
  · rintro ⟨pool', pv, hrun, -, -⟩
    by_contra hnot
    rw [LoopDecides, if_neg hnot, ← trimToSize, hrun] at hspec
    simp at hspec
  · intro hfits
    rw [LoopDecides, if_pos hfits] at hspec
    exact hspec

/-- The first entry in the order of `mapTx` itself. -/
def firstEntry (pool : CTxMemPool) : Option UInt256 := pool.mapTx.keys.head?

theorem firstEntry_isBegin : IsBegin firstEntry where
  mem := fun pool it hit => coreAt_isSome_iff.mpr (mem_of_head? hit)
  empty := by
    intro pool hnone hash
    have hkeys : pool.mapTx.keys = [] := head?_eq_none_iff.mp hnone
    have hnot : ¬(pool.coreAt hash).isSome := by
      rw [coreAt_isSome_iff, hkeys]
      exact not_mem_nil
    exact not_isSome_iff_eq_none.mp hnot

theorem poolOfOne_accounted : poolOfOne.Accounted := by
  refine ⟨by decide +kernel, fun side hash => ?_, fun hash hkey => ?_⟩
  · rw [links, poolOfOne, lookup_insert_eq]
    split_ifs <;> cases side <;> exact nodup_nil
  · rw [poolOfOne, lookup_insert_eq] at hkey
    rw [coreAt, poolOfOne, lookup_insert_eq]
    split_ifs at hkey ⊢
    · rfl
    · simp at hkey

theorem trimToSize_poolOfOne :
    (∃ pool' pv, trimToSize firstEntry poolOfOne 1000 = some (.ok (pool', pv)) ∧
      pool'.dynamicMemoryUsage ≤ (1000 : ℕ) ∧ Trims poolOfOne pv pool') :=
  (trimToSize_succeeds_iff firstEntry_isBegin poolOfOne_linked poolOfOne_accounted 1000).mpr
    (by decide +kernel)

/-- A delta was recorded for a transaction that is not in the pool. -/
def poolWithDelta : CTxMemPool := { poolOfOne with mapDeltas := AList.insert 9 1000 ∅ }

/-- The usage of `mapDeltas` alone is above the limit, when no entry is left to evict. -/
theorem trimToSize_reads_empty_index : poolWithDelta.Linked ∧ poolWithDelta.Accounted ∧
    trimToSize firstEntry poolWithDelta 50 = some (.error .mk) := by
  have hlinked : poolWithDelta.Linked := ⟨poolOfOne_linked.hash, poolOfOne_linked.spends,
    poolOfOne_linked.parents, poolOfOne_linked.children⟩
  have haccounted : poolWithDelta.Accounted := ⟨poolOfOne_accounted.usage,
    poolOfOne_accounted.nodup, poolOfOne_accounted.keys⟩
  have hspec : LoopDecides firstEntry 50 _ poolWithDelta [] :=
    trimLoop_decides firstEntry_isBegin hlinked haccounted le_rfl []
  exact ⟨hlinked, haccounted, hspec⟩

end CTxMemPool
end ImageCoin
