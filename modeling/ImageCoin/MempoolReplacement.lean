import ImageCoin.MempoolBlock
import ImageCoin.MempoolIndexes

/-!
# Replacing transactions in the mempool

`AcceptToMemoryPoolWorker` of `validation.cpp` as far as it is about conflicts, with `CFeeRate`
of `amount.cpp`.  Every other check of the routine is one verdict.
-/

namespace ImageCoin

open MapEntries Worklist List Except Int

def toInt64 (x : ℤ) : ℤ := x.bmod (2 ^ 64)

namespace CFeeRate

/-- `nSatoshisPerK`; the division is one of unsigned numbers. -/
def ofFee (nFeePaid : ℤ) (nSize : ℕ) : ℤ :=
  if nSize > 0 then toInt64 (toInt64 (nFeePaid * 1000) % 2 ^ 64 / nSize) else 0

def getFee (nSatoshisPerK : ℤ) (nSize : ℕ) : ℤ :=
  let nFee := toInt64 (nSatoshisPerK % 2 ^ 64 * nSize % 2 ^ 64 / 1000)
  if nFee = 0 ∧ nSatoshisPerK > 0 then nSatoshisPerK else nFee

end CFeeRate

structure AcceptEnv where
  fEnableReplacement : Bool
  hasTxLockRequest : UInt256 → Bool
  limits : CTxMemPool.AncestorLimits
  minRelayTxFee : ℤ
  /-- The checks of the routine that are not about conflicts. -/
  otherChecks : Bool

inductive AcceptReject where
  /-- "txn-already-in-mempool" -/
  | alreadyInMempool
  /-- "tx-txlockreq-mempool-conflict" -/
  | txLockReqMempoolConflict
  /-- "txlockreq-tx-mempool-conflict" -/
  | txLockReqTxMempoolConflict
  /-- "txn-mempool-conflict" -/
  | mempoolConflict
  /-- "too-long-mempool-chain" -/
  | tooLongMempoolChain (e : CTxMemPool.LimitError)
  /-- "bad-txns-spends-conflicting-tx" -/
  | spendsConflictingTx
  /-- "too many potential replacements" -/
  | tooManyPotentialReplacements
  /-- "insufficient fee" -/
  | insufficientFee
  /-- "replacement-adds-unconfirmed" -/
  | replacementAddsUnconfirmed
  | otherCheck
  /-- A walk ran out of fuel. -/
  | unfinished

namespace CTxMemPool

variable (env : AcceptEnv) (pool : CTxMemPool) (entry : CTxMemPoolEntry)

def unlessRejected (bad : Bool) (e : AcceptReject) : Except AcceptReject Unit :=
  if bad then .error e else .ok ()

def replacementOptOut (conflicting : UInt256) : Bool :=
  !(env.fEnableReplacement && (pool.mapTx.lookup conflicting).elim false fun e =>
    e.tx.vin.any fun txin => txin.nSequence < 0xfffffffe)

variable (setConflicts : List UInt256)

def insertConflict (txin : CTxIn) : Except AcceptReject (List UInt256) :=
  match pool.mapNextTx.lookup txin.prevout with
  | none => .ok setConflicts
  | some conflicting =>
    if conflicting ∈ setConflicts then .ok setConflicts
    else if env.hasTxLockRequest conflicting then .error .txLockReqMempoolConflict
    else if env.hasTxLockRequest entry.tx.hash then .error .txLockReqTxMempoolConflict
    else if replacementOptOut env pool conflicting then .error .mempoolConflict
    else .ok (insertEntry conflicting setConflicts)

def findConflicts : Except AcceptReject (List UInt256) :=
  entry.tx.vin.foldlM (insertConflict env pool entry) []

def findAncestors : Except AcceptReject (List UInt256) :=
  match pool.calculateMemPoolAncestors entry env.limits true with
  | some (.ok setAncestors) => .ok setAncestors
  | some (.error e) => .error (.tooLongMempoolChain e)
  | none => .error .unfinished

structure Conflicting where
  setIterConflicting : List UInt256 := []
  setConflictsParents : List UInt256 := []
  nConflictingCount : ℕ := 0

def weighConflict (newFeeRate : ℤ) (acc : Conflicting) (hashConflicting : UInt256) :
    Except AcceptReject Conflicting :=
  match pool.mapTx.lookup hashConflicting with
  | none => .ok acc
  | some mi =>
    if mi.nCountWithDescendants = 0 then .error .tooManyPotentialReplacements
    else if newFeeRate ≤ CFeeRate.ofFee mi.getModifiedFee mi.nTxSize then .error .insufficientFee
    else
      .ok { setIterConflicting := insertEntry hashConflicting acc.setIterConflicting
            setConflictsParents := push [] (mi.tx.vin.map fun txin => txin.prevout.hash)
              acc.setConflictsParents
            nConflictingCount := acc.nConflictingCount + mi.nCountWithDescendants }

def modifiedFeeAt (hash : UInt256) : ℤ :=
  (pool.mapTx.lookup hash).elim 0 CTxMemPoolEntry.getModifiedFee

/-- `nModifiedFees`, with the delta that `ApplyDeltas` adds. -/
def nModifiedFees : ℤ := toInt64 (entry.nFee + (pool.mapDeltas.lookup entry.tx.hash).getD 0)

def maxDescendantsToVisit : ℕ := 100

/-- The checks on a replacement; the result is `allConflicting`. -/
def checkReplacement : Except AcceptReject (List UInt256) := do
  let newFeeRate := CFeeRate.ofFee (nModifiedFees pool entry) entry.nTxSize
  let acc ← setConflicts.foldlM (weighConflict pool newFeeRate) {}
  unlessRejected (acc.nConflictingCount > maxDescendantsToVisit) .tooManyPotentialReplacements
  let allConflicting ←
    (acc.setIterConflicting.foldlM (fun s it => pool.calculateDescendants it s) []).elim
      (.error .unfinished) .ok
  let nConflictingFees :=
    allConflicting.foldl (fun sum it => toInt64 (sum + pool.modifiedFeeAt it)) 0
  unlessRejected (entry.tx.vin.any fun txin =>
    !acc.setConflictsParents.contains txin.prevout.hash && pool.has txin.prevout.hash)
    .replacementAddsUnconfirmed
  unlessRejected (nModifiedFees pool entry < nConflictingFees) .insufficientFee
  unlessRejected (toInt64 (nModifiedFees pool entry - nConflictingFees) <
    CFeeRate.getFee env.minRelayTxFee entry.nTxSize) .insufficientFee
  pure allConflicting

structure Accepted where
  pool : CTxMemPool
  setConflicts : List UInt256
  allConflicting : List UInt256

def acceptToMemoryPoolWorker : Except AcceptReject Accepted := do
  unlessRejected (pool.has entry.tx.hash) .alreadyInMempool
  let setConflicts ← findConflicts env pool entry
  unlessRejected (!env.otherChecks) .otherCheck
  let setAncestors ← findAncestors env pool entry
  unlessRejected (setAncestors.any setConflicts.contains) .spendsConflictingTx
  let allConflicting ←
    if setConflicts.isEmpty then pure [] else checkReplacement env pool entry setConflicts
  pure ⟨(pool.removeStaged allConflicting).addUnchecked entry setAncestors, setConflicts,
    allConflicting⟩

/-! ## Amounts that do not wrap -/

theorem toInt64_of_fits {x : ℤ} (hlow : 0 ≤ x) (hhigh : x < 2 ^ 63) : toInt64 x = x :=
  bmod_eq_of_le (by norm_num; omega) (by norm_num; omega)

open CFeeRate
variable {fee : ℤ} {nSize : ℕ} {setConflicts : List UInt256}

theorem ofFee_eq (hsize : 0 < nSize) : ofFee fee nSize = toInt64 (fee * 1000 % 2 ^ 64 / nSize) := by
  have hmod : toInt64 (fee * 1000) % 2 ^ 64 = fee * 1000 % 2 ^ 64 := bmod_emod
  rw [ofFee, if_pos hsize, hmod]

theorem CFeeRate.ofFee_of_fits (hsize : 0 < nSize) (hlow : 0 ≤ fee)
    (hhigh : fee * 1000 < 2 ^ 63) : ofFee fee nSize = fee * 1000 / nSize := by
  have hdiv : fee * 1000 / nSize ≤ fee * 1000 := ediv_le_self _ (by omega)
  rw [ofFee_eq hsize, emod_eq_of_lt (by omega) (by omega)]
  exact toInt64_of_fits (ediv_nonneg (by omega) (by omega)) (by omega)

abbrev Fits (x : ℤ) : Prop := -2 ^ 63 ≤ x ∧ x < 2 ^ 63

/-- The second number has the sign of the first one, or is zero. -/
def KeepsSign (x y : ℤ) : Prop := (0 ≤ x → 0 ≤ y) ∧ (x ≤ 0 → y ≤ 0)

theorem toInt64_emod {x : ℤ} (hx : Fits x) : toInt64 (x % 2 ^ 64) = x := by
  have hmod : toInt64 (x % 2 ^ 64) = toInt64 x := emod_bmod _ _
  rw [hmod]
  exact bmod_eq_of_le (by norm_num; omega) (by norm_num; omega)

theorem getFee_of_nonneg {rate : ℤ} (hlow : 0 ≤ rate) (hrate : Fits rate)
    (hfits : Fits (rate * nSize)) :
    getFee rate nSize = if rate * nSize < 1000 then rate else rate * nSize / 1000 := by
  have hprod : 0 ≤ rate * nSize := by positivity
  rw [getFee, emod_eq_of_lt hlow (by omega), emod_eq_of_lt hprod (by omega),
    toInt64_of_fits (by omega) (by omega)]
  split_ifs <;> omega

/-- The unsigned division makes a negative fee a high rate, and the fee of a positive rate
drops where the rounded product becomes positive. -/
theorem feeRate_iff (nSize : ℕ) (rate : ℤ) :
    (0 < nSize → ((∀ fee fee', Fits (fee * 1000) → Fits (fee' * 1000) → fee ≤ fee' →
      KeepsSign fee (ofFee fee nSize) ∧ ofFee fee nSize ≤ ofFee fee' nSize) ↔
        nSize = 1 ∨ 2 ^ 64 - 1000 < nSize)) ∧
    (Fits rate → ((∀ nSize nSize' : ℕ, Fits (rate * nSize') → nSize ≤ nSize' →
      getFee rate nSize ≤ getFee rate nSize' ∧ (rate ≠ 0 → nSize ≠ 0 →
        getFee rate nSize ≠ 0 ∧ KeepsSign rate (getFee rate nSize))) ↔ rate = 0 ∨ rate = 1)) := by
  unfold KeepsSign
  refine ⟨fun hsize => ⟨fun hall => ?_, ?_⟩, fun hrate => ⟨fun hall => ?_, ?_⟩⟩
  · by_contra hnot
    have hsign := (hall (-1) 0 (by decide) (by decide) (by decide)).1.2 (by decide)
    have hone : 1 ≤ (2 ^ 64 - 1000 : ℤ) / nSize :=
      (Int.le_ediv_iff_mul_le (by omega)).mpr (by omega)
    have hlt : (2 ^ 64 - 1000 : ℤ) / nSize < 2 ^ 63 :=
      Int.ediv_lt_of_lt_mul (by omega) (by omega)
    rw [ofFee_eq hsize, show (-1 * 1000 % 2 ^ 64 : ℤ) = 2 ^ 64 - 1000 by decide,
      toInt64_of_fits (by omega) hlt] at hsign
    omega
  · rintro (rfl | hhuge) fee fee' hfee hfee' hle
    · rw [ofFee_eq hsize, ofFee_eq hsize, Nat.cast_one, ediv_one, ediv_one,
        toInt64_emod hfee, toInt64_emod hfee']
      omega
    · have hzero : ∀ fee, Fits (fee * 1000) → ofFee fee nSize = 0 := by
        intro fee hfee
        have hmod : fee * 1000 % 2 ^ 64 = fee * 1000 ∨
            fee < 0 ∧ fee * 1000 % 2 ^ 64 = fee * 1000 + 2 ^ 64 := by omega
        rw [ofFee_eq hsize, ediv_eq_zero_of_lt (by omega) (by omega)]
        decide
      rw [hzero fee hfee, hzero fee' hfee']
      omega
  · rcases lt_or_ge rate 0 with hneg | hlow
    · have hsign := (((hall 1 1 (by omega) le_rfl).2 (by omega) (by decide)).2).2 hneg.le
      have hnum : rate % 2 ^ 64 * (1 : ℕ) % 2 ^ 64 = rate + 2 ^ 64 := by omega
      rw [getFee, toInt64_of_fits (by omega) (by omega)] at hsign
      omega
    · -- A size of zero costs the rate; the next size with a rounded fee costs less.
      by_contra hnot
      obtain ⟨nSize, hfits, hless⟩ : ∃ nSize : ℕ, Fits (rate * nSize) ∧
          1000 ≤ rate * nSize ∧ rate * nSize / 1000 < rate := by
        rcases lt_or_ge rate 1000 with hsmall | hlarge
        · exact ⟨500, by omega, by omega, by omega⟩
        · exact ⟨1, by omega, by omega, by omega⟩
      have hdrop := (hall 0 nSize hfits (Nat.zero_le _)).1
      rw [getFee_of_nonneg hlow hrate (by simp [Fits]), getFee_of_nonneg hlow hrate hfits,
        if_pos (by simp)] at hdrop
      omega
  · rintro (rfl | rfl) nSize nSize' hfits hle
    · simp [getFee, toInt64]
    · rw [getFee_of_nonneg (by decide) hrate (by omega), getFee_of_nonneg (by decide) hrate hfits]
      split_ifs <;> omega

/-- The division is unsigned, and a small fee is raised to the whole rate. -/
theorem feeRate_wrong_sign :
    0 < ofFee (-1) 250 ∧ 0 < getFee (-1000) 250 ∧ getFee 100 1 = 100 ∧ getFee 100 10 = 1 := by
  decide

/-- A higher rate per thousand bytes, rounded down, means a higher exact rate. -/
theorem ratio_lt_of_rate_lt {fee' : ℤ} {nSize' : ℕ} (hsize : 0 < nSize) (hsize' : 0 < nSize')
    (hlt : fee * 1000 / nSize < fee' * 1000 / nSize') : (fee : ℚ) / nSize < fee' / nSize' := by
  have hpos : (0 : ℤ) < nSize := by exact_mod_cast hsize
  have hpos' : (0 : ℤ) < nSize' := by exact_mod_cast hsize'
  have hupper := lt_ediv_add_one_mul_self (fee * 1000) hpos
  have hlower := Int.ediv_mul_le (fee' * 1000) hpos'.ne'
  have hcross : fee * nSize' < fee' * nSize := by
    have hmul : (fee * 1000 / nSize + 1) * nSize * nSize' ≤
        fee' * 1000 / nSize' * nSize' * nSize := by
      calc (fee * 1000 / nSize + 1) * nSize * nSize'
          ≤ fee' * 1000 / nSize' * nSize * nSize' := by gcongr; omega
        _ = fee' * 1000 / nSize' * nSize' * nSize := by ring
    have hleft := mul_lt_mul_of_pos_right hupper hpos'
    have hright := mul_le_mul_of_nonneg_right hlower hpos.le
    linarith
  rw [div_lt_div_iff₀ (by exact_mod_cast hsize) (by exact_mod_cast hsize')]
  exact_mod_cast hcross

theorem foldl_toInt64_sum {α : Type} (f : α → ℤ) (l : List α) (start : ℤ)
    (hstart : 0 ≤ start) (hf : ∀ a ∈ l, 0 ≤ f a) (hsum : start + (l.map f).sum < 2 ^ 63) :
    l.foldl (fun sum a => toInt64 (sum + f a)) start = start + (l.map f).sum := by
  induction l generalizing start with
  | nil => simp
  | cons a l ih =>
    obtain ⟨ha, hl⟩ := forall_mem_cons.mp hf
    rw [map_cons, sum_cons] at hsum ⊢
    have hrest : 0 ≤ (l.map f).sum := sum_nonneg fun x hx => by
      obtain ⟨b, hb, rfl⟩ := mem_map.mp hx
      exact hl b hb
    have hstep : toInt64 (start + f a) = start + f a := toInt64_of_fits (by omega) (by omega)
    rw [foldl_cons, hstep, ih _ (by omega) hl (by omega)]
    omega

/-! ## What the checks leave -/

theorem bind_eq_ok {ε α β : Type} {x : Except ε α} {f : α → Except ε β} {b : β} :
    (x >>= f) = .ok b ↔ ∃ a, x = .ok a ∧ f a = .ok b := by
  cases x with
  | error e => exact iff_of_false (by simp [bind, Except.bind]) (by simp)
  | ok a => simp [bind, Except.bind]

theorem unlessRejected_eq_ok {bad : Bool} {e : AcceptReject} {u : Unit} :
    unlessRejected bad e = .ok u ↔ bad = false := by
  cases bad <;> simp [unlessRejected]

variable {env pool entry}

theorem mem_foldlM_insertConflict {vin : List CTxIn} {start : List UInt256}
    (hrun : vin.foldlM (insertConflict env pool entry) start = .ok setConflicts) {c : UInt256} :
    c ∈ setConflicts ↔ c ∈ start ∨ ∃ txin ∈ vin, pool.mapNextTx.lookup txin.prevout = some c := by
  induction vin generalizing start with
  | nil =>
    obtain rfl : start = setConflicts := by simpa [pure, Except.pure] using hrun
    simp
  | cons txin vin ih =>
    rw [foldlM_cons, bind_eq_ok] at hrun
    obtain ⟨next, hnext, hrun⟩ := hrun
    have hstep : c ∈ next ↔ c ∈ start ∨ pool.mapNextTx.lookup txin.prevout = some c := by
      unfold insertConflict at hnext
      cases hlook : pool.mapNextTx.lookup txin.prevout with
      | none =>
        simp only [hlook, ok.injEq] at hnext
        simp [hnext]
      | some d =>
        simp only [hlook] at hnext
        split_ifs at hnext with hold
        · simp only [ok.injEq] at hnext
          subst hnext
          refine (or_iff_left_of_imp ?_).symm
          intro heq
          exact Option.some.inj heq ▸ hold
        · simp only [ok.injEq] at hnext
          subst hnext
          rw [mem_insertEntry, Option.some.injEq, or_comm, eq_comm]
    simp [ih hrun, hstep, or_assoc]

/-- What is known after the conflicts were weighed one by one. -/
structure Weighed (pool : CTxMemPool) (newFeeRate : ℤ) (conflicts : List UInt256)
    (start acc : Conflicting) : Prop where
  iters : ∀ x, x ∈ acc.setIterConflicting ↔
    x ∈ start.setIterConflicting ∨ x ∈ conflicts ∧ pool.has x
  parents : ∀ p, p ∈ acc.setConflictsParents → p ∈ start.setConflictsParents ∨
    ∃ c ∈ conflicts, ∃ e, pool.mapTx.lookup c = some e ∧
      p ∈ e.tx.vin.map fun txin => txin.prevout.hash
  rates : ∀ c ∈ conflicts, ∀ e, pool.mapTx.lookup c = some e →
    CFeeRate.ofFee e.getModifiedFee e.nTxSize < newFeeRate

theorem weighed_of_foldlM {newFeeRate : ℤ} {conflicts : List UInt256} {start acc : Conflicting}
    (hrun : conflicts.foldlM (weighConflict pool newFeeRate) start = .ok acc) :
    Weighed pool newFeeRate conflicts start acc := by
  induction conflicts generalizing start with
  | nil =>
    obtain rfl : start = acc := by simpa [pure, Except.pure] using hrun
    exact ⟨by simp, fun p hp => .inl hp, by simp⟩
  | cons c conflicts ih =>
    rw [foldlM_cons, bind_eq_ok] at hrun
    obtain ⟨next, hnext, hrun⟩ := hrun
    have hrest := ih hrun
    unfold weighConflict at hnext
    cases hlook : pool.mapTx.lookup c with
    | none =>
      simp only [hlook, ok.injEq] at hnext
      subst hnext
      refine ⟨fun x => ?_, fun p hp => ?_, forall_mem_cons.mpr ⟨by simp [hlook], hrest.rates⟩⟩
      · rw [hrest.iters, mem_cons]
        have hnot : ¬(x = c ∧ pool.has x) := by
          rintro ⟨rfl, hx⟩
          simp [has, hlook] at hx
        tauto
      · refine (hrest.parents p hp).imp_right ?_
        rintro ⟨c', hc', h⟩
        exact ⟨c', mem_cons_of_mem _ hc', h⟩
    | some mi =>
      simp only [hlook] at hnext
      split_ifs at hnext with hdirty hrate
      simp only [ok.injEq] at hnext
      subst hnext
      refine ⟨fun x => ?_, fun p hp => ?_, forall_mem_cons.mpr ⟨?_, hrest.rates⟩⟩
      · rw [hrest.iters, mem_insertEntry, mem_cons]
        have hc : x = c → pool.has x := by
          rintro rfl
          rw [has, hlook]
          rfl
        tauto
      · rcases hrest.parents p hp with hp | ⟨c', hc', h⟩
        · rcases mem_push.mp hp with hp | ⟨hp, -⟩
          · exact .inl hp
          · exact .inr ⟨c, mem_cons_self, mi, hlook, hp⟩
        · exact .inr ⟨c', mem_cons_of_mem _ hc', h⟩
      · intro e he
        obtain rfl := Option.some.inj (hlook.symm.trans he)
        exact lt_of_not_ge hrate

/-- All that a replacement must have passed. -/
structure PassedChecks (env : AcceptEnv) (pool : CTxMemPool) (entry : CTxMemPoolEntry)
    (setConflicts allConflicting : List UInt256) (acc : Conflicting) : Prop where
  weighed : Weighed pool (CFeeRate.ofFee (nModifiedFees pool entry) entry.nTxSize) setConflicts
    {} acc
  evicted : acc.setIterConflicting.foldlM (fun s it => pool.calculateDescendants it s) [] =
    some allConflicting
  confirmed : ∀ txin ∈ entry.tx.vin, pool.has txin.prevout.hash →
    txin.prevout.hash ∈ acc.setConflictsParents
  fees : allConflicting.foldl (fun sum it => toInt64 (sum + pool.modifiedFeeAt it)) 0 ≤
    nModifiedFees pool entry
  relay : CFeeRate.getFee env.minRelayTxFee entry.nTxSize ≤ toInt64 (nModifiedFees pool entry -
      allConflicting.foldl (fun sum it => toInt64 (sum + pool.modifiedFeeAt it)) 0)

theorem passedChecks_of_ok {allConflicting : List UInt256}
    (hrun : checkReplacement env pool entry setConflicts = .ok allConflicting) :
    ∃ acc, PassedChecks env pool entry setConflicts allConflicting acc := by
  simp only [checkReplacement, bind_eq_ok, unlessRejected_eq_ok, exists_const, pure, Except.pure,
    Except.ok.injEq] at hrun
  obtain ⟨acc, hweighed, hcount, all, hall, hconfirmed, hfees, hrelay, rfl⟩ := hrun
  refine ⟨acc, weighed_of_foldlM hweighed, ?_, fun txin hin hhas => ?_, ?_, ?_⟩
  · cases hwalk : acc.setIterConflicting.foldlM (fun s it => pool.calculateDescendants it s) [] with
    | none => simp [hwalk] at hall
    | some D => simpa [hwalk] using hall
  · have hpass := any_eq_false.mp hconfirmed txin hin
    simpa [hhas] using hpass
  · simpa using hfees
  · simpa using hrelay

/-- What was computed on the way to an accepted transaction. -/
structure AcceptedRun (env : AcceptEnv) (pool : CTxMemPool) (entry : CTxMemPoolEntry)
    (r : Accepted) (setAncestors : List UInt256) : Prop where
  conflicts : findConflicts env pool entry = .ok r.setConflicts
  ancestors : pool.calculateMemPoolAncestors entry env.limits true = some (.ok setAncestors)
  apart : ∀ a ∈ setAncestors, a ∉ r.setConflicts
  checked : r.setConflicts ≠ [] →
    checkReplacement env pool entry r.setConflicts = .ok r.allConflicting

theorem acceptedRun_of_ok {r : Accepted} (hrun : acceptToMemoryPoolWorker env pool entry = .ok r) :
    ∃ setAncestors, AcceptedRun env pool entry r setAncestors := by
  simp only [acceptToMemoryPoolWorker, bind_eq_ok, unlessRejected_eq_ok, exists_const, pure,
    pure] at hrun
  obtain ⟨-, setConflicts, hconflicts, -, setAncestors, hancestors, hapart, hrest⟩ := hrun
  have hresult : r.setConflicts = setConflicts ∧ (setConflicts ≠ [] →
      checkReplacement env pool entry setConflicts = .ok r.allConflicting) := by
    by_cases hnil : setConflicts.isEmpty
    · simp only [hnil] at hrest
      obtain ⟨all, -, rfl⟩ := hrest
      exact ⟨rfl, fun hne => absurd (isEmpty_iff.mp hnil) hne⟩
    · rw [if_neg hnil, bind_eq_ok] at hrest
      obtain ⟨all, hall, hok⟩ := hrest
      obtain rfl := ok.inj hok
      exact ⟨rfl, fun _ => hall⟩
  obtain ⟨rfl, hchecked⟩ := hresult
  refine ⟨setAncestors, hconflicts, ?_, fun a ha hc => ?_, hchecked⟩
  · unfold findAncestors at hancestors
    split at hancestors
    · next h => rw [h, ok.inj hancestors]
    all_goals simp at hancestors
  · have hpass := any_eq_false.mp hapart a ha
    simp [hc] at hpass

/-! ## The economics of a replacement -/

/-- Amounts for which no sum or product of the checks wraps around: each fee times a thousand, and
the sum of the evicted fees, are 64-bit numbers. -/
structure FeesFit (pool : CTxMemPool) (entry : CTxMemPoolEntry)
    (setConflicts allConflicting : List UInt256) : Prop where
  nonneg : ∀ hash, 0 ≤ pool.modifiedFeeAt hash
  conflicts : ∀ c ∈ setConflicts, pool.modifiedFeeAt c * 1000 < 2 ^ 63
  evicted : (allConflicting.map pool.modifiedFeeAt).sum < 2 ^ 63
  new : nModifiedFees pool entry * 1000 < 2 ^ 63
  size : 0 < entry.nTxSize
  sizes : ∀ hash e, pool.mapTx.lookup hash = some e → 0 < e.nTxSize

/-- What the rules for replacements promise. -/
structure Worthwhile (env : AcceptEnv) (pool : CTxMemPool) (entry : CTxMemPoolEntry)
    (setConflicts allConflicting : List UInt256) : Prop where
  conflicts : ∀ c, c ∈ setConflicts ↔
    ∃ txin ∈ entry.tx.vin, pool.mapNextTx.lookup txin.prevout = some c
  nodup : allConflicting.Nodup
  evicted : ∀ x, x ∈ allConflicting ↔ ∃ c ∈ setConflicts, pool.DescendsFrom x c
  rate : ∀ c ∈ setConflicts, ∃ e, pool.mapTx.lookup c = some e ∧
    (e.getModifiedFee : ℚ) / e.nTxSize < nModifiedFees pool entry / entry.nTxSize
  fee : (allConflicting.map pool.modifiedFeeAt).sum +
    CFeeRate.getFee env.minRelayTxFee entry.nTxSize ≤ nModifiedFees pool entry
  apart : ∀ txin ∈ entry.tx.vin, txin.prevout.hash ∉ allConflicting
  parents : ∀ txin ∈ entry.tx.vin, pool.has txin.prevout.hash → ∃ c ∈ setConflicts,
    ∃ e, pool.mapTx.lookup c = some e ∧ ∃ txin' ∈ e.tx.vin, txin'.prevout.hash = txin.prevout.hash

/-- Of an accepted replacement: it pays a higher rate than every transaction that it conflicts
with and for the relay of itself beside all that it evicts, and it spends nothing of these.  The
counts of the entries may be anything, so dirty entries are included. -/
theorem replacement_worthwhile (hlinked : pool.Linked) {r : Accepted}
    (haccepted : acceptToMemoryPoolWorker env pool entry = .ok r)
    (hfit : FeesFit pool entry r.setConflicts r.allConflicting)
    (hreplaces : r.setConflicts ≠ []) :
    Worthwhile env pool entry r.setConflicts r.allConflicting := by
  obtain ⟨setAncestors, hrun⟩ := acceptedRun_of_ok haccepted
  obtain ⟨acc, hpassed⟩ := passedChecks_of_ok (hrun.checked hreplaces)
  have hconflicts : ∀ c, c ∈ r.setConflicts ↔
      ∃ txin ∈ entry.tx.vin, pool.mapNextTx.lookup txin.prevout = some c := by
    intro c
    simpa using mem_foldlM_insertConflict hrun.conflicts
  have hin : ∀ c ∈ r.setConflicts, c ∈ pool.mapTx.keys := by
    intro c hc
    obtain ⟨txin, -, hlook⟩ := (hconflicts c).mp hc
    obtain ⟨e, he, -⟩ := (hlinked.spends _ c).mp hlook
    exact coreAt_isSome_iff.mp (by rw [he]; rfl)
  have hiters : ∀ x, x ∈ acc.setIterConflicting ↔ x ∈ r.setConflicts := by
    intro x
    rw [hpassed.weighed.iters]
    simpa using fun hx => has_iff_mem_keys.mpr (hin x hx)
  -- The evicted transactions are the descendants of the conflicts.
  obtain ⟨D, hD, hwalk⟩ := hlinked.allDescendants
    (fun it hit => coreAt_isSome_iff.mpr (hin it ((hiters it).mp hit)))
    (fun r hr => absurd hr List.not_mem_nil) (.start List.nodup_nil)
  obtain rfl : D = r.allConflicting := Option.some.inj (hD.symm.trans hpassed.evicted)
  have hevicted : ∀ x, x ∈ r.allConflicting ↔ ∃ c ∈ r.setConflicts, pool.DescendsFrom x c := by
    intro x
    simp [hwalk.finish, Reaches, hiters, hlinked.children, DescendsFrom]
  have hnodup : r.allConflicting.Nodup := by simpa using hwalk.nodup
  have hkeys : ∀ x ∈ r.allConflicting, x ∈ pool.mapTx.keys := by
    intro x hx
    obtain ⟨c, hc, hdesc⟩ := (hevicted x).mp hx
    rcases hdesc.cases_tail with rfl | ⟨y, -, e, he, -⟩
    · exact hin x hc
    · exact coreAt_isSome_iff.mp (by rw [he]; rfl)
  -- No amount wraps around.
  have hfees : r.allConflicting.foldl (fun sum it => toInt64 (sum + pool.modifiedFeeAt it)) 0 =
      (r.allConflicting.map pool.modifiedFeeAt).sum := by
    have hevictedSum := hfit.evicted
    rw [foldl_toInt64_sum _ _ 0 le_rfl (fun a _ => hfit.nonneg a) (by omega), zero_add]
  have hpos : 0 ≤ (r.allConflicting.map pool.modifiedFeeAt).sum := by
    refine List.sum_nonneg fun x hx => ?_
    obtain ⟨a, -, rfl⟩ := List.mem_map.mp hx
    exact hfit.nonneg a
  have hpaid := hpassed.fees
  have hrelay := hpassed.relay
  have hnew := hfit.new
  rw [hfees] at hpaid hrelay
  rw [toInt64_of_fits (by omega) (by omega)] at hrelay
  refine ⟨hconflicts, hnodup, hevicted, fun c hc => ?_, by omega, fun txin htxin hmem => ?_,
    fun txin htxin hhas => ?_⟩
  · obtain ⟨e, he⟩ := (mem_keys_iff _ c).mp (hin c hc)
    have hfee : pool.modifiedFeeAt c = e.getModifiedFee := by rw [modifiedFeeAt, he]; rfl
    have hlow := hfit.nonneg c
    have hfits := hfit.conflicts c hc
    rw [hfee] at hlow hfits
    have hlt := hpassed.weighed.rates c hc e he
    rw [CFeeRate.ofFee_of_fits (hfit.sizes c e he) hlow hfits,
      CFeeRate.ofFee_of_fits hfit.size (hpos.trans hpaid) hnew] at hlt
    exact ⟨e, he, ratio_lt_of_rate_lt (hfit.sizes c e he) hfit.size hlt⟩
  · -- A conflict above a spent transaction would be an ancestor of the new one.
    obtain ⟨c, hc, hdesc⟩ := (hevicted _).mp hmem
    refine hrun.apart c ?_ hc
    refine (mem_of_calculateMemPoolAncestors hrun.ancestors).mpr ⟨txin.prevout.hash,
      List.mem_filter.mpr ⟨List.mem_map.mpr ⟨txin, htxin, rfl⟩,
        has_iff_mem_keys.mpr (hkeys _ hmem)⟩, ?_⟩
    exact Relation.ReflTransGen.mono (fun child parent => (hlinked.parents child parent).mpr) _ _
      (Relation.ReflTransGen.swap _ _ hdesc)
  · have hparent := hpassed.confirmed txin htxin hhas
    rcases hpassed.weighed.parents _ hparent with hnil | ⟨c, hc, e, he, hp⟩
    · exact absurd hnil List.not_mem_nil
    · obtain ⟨txin', hin', heq⟩ := List.mem_map.mp hp
      exact ⟨c, hc, e, he, txin', hin', heq⟩

def openEnv : AcceptEnv where
  fEnableReplacement := true
  hasTxLockRequest _ := false
  limits := ⟨25, 101000, 25, 101000⟩
  minRelayTxFee := 1000
  otherChecks := true

/-- It spends what the transaction in the pool spends, for a higher fee. -/
def betterSpender : CTxMemPoolEntry := { spenderOf 7 250 with nFee := 2000 }

theorem poolOfOne_feesFit : FeesFit poolOfOne betterSpender [1] [1] where
  nonneg := by
    intro hash
    rw [modifiedFeeAt, poolOfOne, lookup_insert_eq]
    split_ifs
    · decide
    · simp
  conflicts := forall_mem_singleton.mpr (by decide +kernel)
  evicted := by decide +kernel
  new := by decide +kernel
  size := by decide
  sizes := by
    intro hash e he
    rw [poolOfOne, lookup_insert_eq] at he
    split_ifs at he
    · rw [← Option.some.inj he]
      decide
    · simp at he

theorem replacement_worthwhile_betterSpender :
    ∃ r, acceptToMemoryPoolWorker openEnv poolOfOne betterSpender = .ok r ∧ r.setConflicts = [1] ∧
      Worthwhile openEnv poolOfOne betterSpender r.setConflicts r.allConflicting := by
  have hrun : ((acceptToMemoryPoolWorker openEnv poolOfOne betterSpender).toOption.map
      fun r => (r.setConflicts, r.allConflicting)) = some ([1], [1]) := by decide +kernel
  cases hr : acceptToMemoryPoolWorker openEnv poolOfOne betterSpender with
  | error e => simp [hr, Except.toOption] at hrun
  | ok r =>
    have hconflicts : r.setConflicts = [1] ∧ r.allConflicting = [1] := by
      simpa [hr, Except.toOption] using hrun
    refine ⟨r, rfl, hconflicts.1, replacement_worthwhile poolOfOne_linked hr ?_
      (by simp [hconflicts])⟩
    rw [hconflicts.1, hconflicts.2]
    exact poolOfOne_feesFit

/-- Its modified fee times 1000 is just above `2 ^ 64`. -/
def hugeFeePool : CTxMemPool :=
  { poolOfOne with
    mapTx := AList.insert 1 { CTxMemPoolEntry.plainEntry with
      nFee := 0, feeDelta := 18446744073709552, nTxSize := 100, nSizeWithDescendants := 100 } ∅
    mapDeltas := AList.insert 1 18446744073709552 (AList.insert 2 18446744073709552 ∅) }

/-- With fee deltas beyond all money a transaction ten times as long replaces the one in the
pool for almost the same fee. -/
theorem replacement_lowers_rate : ((acceptToMemoryPoolWorker openEnv hugeFeePool
        { spenderOf 7 1000 with nFee := 1000 }).toOption.map Accepted.setConflicts) = some [1] ∧
    nModifiedFees hugeFeePool { spenderOf 7 1000 with nFee := 1000 } = 18446744073710552 ∧
    hugeFeePool.modifiedFeeAt 1 = 18446744073709552 ∧
    (18446744073710552 : ℚ) / 1000 < 18446744073709552 / 100 := by
  refine ⟨by decide +kernel, by decide +kernel, by decide +kernel, by norm_num⟩

end CTxMemPool
end ImageCoin
