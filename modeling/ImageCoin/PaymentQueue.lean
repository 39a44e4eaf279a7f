import ImageCoin.Bip69
import ImageCoin.InstantSendCalls
import ImageCoin.MasternodeOwnership

/-!
# The payment queue

`CMasternodeMan::GetNextMasternodeInQueueForPayment`: of the masternodes that may be paid, the
tenth of the network that was paid the longest time ago is looked at, and the one with the
highest score is paid.
-/

namespace ImageCoin

open List UInt8
variable {Addr : Type}

/-- What the node knows when it looks for the next payee. -/
structure QueueEnv (Addr : Type) extends MasternodeEnv Addr where
  isWinnersListSynced : Bool
  /-- `SPORK_14_REQUIRE_SENTINEL_FLAG` -/
  requireSentinelFlag : Bool
  payments : CMasternodePayments
  /-- `nCachedBlockHeight` of the payments. -/
  nCachedBlockHeight : ℤ
  /-- Whether `sigTime + (nMnCount*2.6*60)`, which is computed with rounding, is above
  `GetAdjustedTime()`. -/
  isTooNew : (nMnCount : ℕ) → (sigTime : ℤ) → Bool

section
variable (crypto : MasternodeCrypto Addr) (ledger : UInt256 → Option CTransaction)
  (env : QueueEnv Addr) (mn : CMasternode Addr)

def CMasternode.isValidForPayment : Bool :=
  mn.nActiveState = .enabled || (!env.requireSentinelFlag && mn.nActiveState = .watchdogExpired)

def CMasternode.calculateScore (blockHash : UInt256) : UInt256 :=
  crypto.hash (mn.vin.prevout.serialize ++ (serializeUInt256 mn.nCollateralMinConfBlockHash ++
    serializeUInt256 blockHash))

/-- `CMasternodePayments::IsScheduled`: the masternode is to be paid in one of the next
blocks. -/
def isScheduled (nNotBlockHeight : ℤ) : Bool :=
  let mnpayee := getScriptForDestination (crypto.getID mn.pubKeyCollateralAddress)
  env.isMasternodeListSynced && (range 9).any fun i =>
    let h := env.nCachedBlockHeight + i
    h ≠ nNotBlockHeight &&
      (env.payments.mapMasternodeBlocks.lookup h).bind CMasternodeBlockPayees.getBestPayee =
        some mnpayee

def getUTXOConfirmations (outpoint : COutPoint) : ℤ :=
  match getUTXOCoin ledger env.toMasternodeEnv outpoint with
  | none => -1
  | some (_, nPrevoutHeight) =>
    if nPrevoutHeight > -1 then env.chainHeight - nPrevoutHeight + 1 else -1

variable (nBlockHeight : ℤ)

def getBlockHash : Option UInt256 :=
  if nBlockHeight < -1 || nBlockHeight > env.chainHeight then none
  else
    (env.blockAt (if nBlockHeight = -1 then env.chainHeight else nBlockHeight)).map Prod.fst

def isQueued (nMnCount : ℕ) (fFilterSigTime : Bool) (mnpair : ListedMasternode Addr) : Bool :=
  if !mnpair.2.isValidForPayment env then false
  else if mnpair.2.nProtocolVersion < env.getMinMasternodePaymentsProto then false
  else if isScheduled crypto env mnpair.2 nBlockHeight then false
  else if fFilterSigTime && env.isTooNew nMnCount mnpair.2.sigTime then false
  else if getUTXOConfirmations ledger env mnpair.1 < nMnCount then false
  else true

end

variable (t1 t2 : ℤ × CMasternode Addr)

def compareLastPaidBlock : Bool :=
  if t1.1 ≠ t2.1 then t1.1 < t2.1 else t1.2.vin.prevout.lt t2.2.vin.prevout

abbrev LastPaidSorting (Addr : Type) : Type :=
  Sorting (compareLastPaidBlock : ℤ × CMasternode Addr → ℤ × CMasternode Addr → Bool)

def bestOfTenth (score : CMasternode Addr → UInt256) (nTenthNetwork : ℕ) :
    ℕ → UInt256 → Option (CMasternode Addr) → List (ℤ × CMasternode Addr) →
      Option (CMasternode Addr)
  | _, _, pBestMasternode, [] => pBestMasternode
  | nCountTenth, nHighest, pBestMasternode, s :: rest =>
    let best :=
      if score s.2 > nHighest then (score s.2, some s.2) else (nHighest, pBestMasternode)
    let nCountTenth := nCountTenth + 1
    if nCountTenth ≥ nTenthNetwork then best.2
    else bestOfTenth score nTenthNetwork nCountTenth best.1 best.2 rest

namespace CMasternodeMan

variable (crypto : MasternodeCrypto Addr) (ledger : UInt256 → Option CTransaction)
  (sorting : LastPaidSorting Addr) (env : QueueEnv Addr) (s : CMasternodeMan Addr)
  (nBlockHeight : ℤ)

/-- The masternodes with a protocol version, the least that is paid if none is given. -/
def countMasternodes (nProtocolVersion : ℤ := -1) : ℕ :=
  let nProtocolVersion :=
    if nProtocolVersion = -1 then env.getMinMasternodePaymentsProto else nProtocolVersion
  s.mapMasternodes.entries.countP fun mnpair => !(mnpair.2.nProtocolVersion < nProtocolVersion)

variable (fFilterSigTime : Bool)

def vecMasternodeLastPaid : List (ℤ × CMasternode Addr) :=
  (s.mapMasternodes.entries.filter
    (isQueued crypto ledger env nBlockHeight (s.countMasternodes env) fFilterSigTime)).map
      fun mnpair => (mnpair.2.nBlockLastPaid, mnpair.2)

/-- The end of the function, for a queue: its size, and the masternode that is paid. -/
def payOldest (queue : List (ℤ × CMasternode Addr)) : ℕ × Option (CMasternode Addr) :=
  match getBlockHash env (nBlockHeight - 101) with
  | none => (queue.length, none)
  | some blockHash =>
    (queue.length, bestOfTenth (fun mn => mn.calculateScore crypto blockHash)
      (s.countMasternodes env / 10) 0 0 none (sorting.sort queue))

/-- `nCountRet`, and the masternode of `mnInfoRet`; the call without the filter does not call
again. -/
def getNextMasternodeInQueueForPayment : ℕ × Option (CMasternode Addr) :=
  if !env.isWinnersListSynced then (0, none)
  else
    let queue := s.vecMasternodeLastPaid crypto ledger env nBlockHeight fFilterSigTime
    if fFilterSigTime && queue.length < s.countMasternodes env / 3 then
      payOldest crypto sorting env s nBlockHeight
        (s.vecMasternodeLastPaid crypto ledger env nBlockHeight false)
    else payOldest crypto sorting env s nBlockHeight queue

end CMasternodeMan

theorem memcmpLt_eq_bytesLess {a b : Bytes} : memcmpLt a b = bytesLess a b := by
  induction a generalizing b with
  | nil => cases b <;> rfl
  | cons x a ih =>
    cases b with
    | nil => rfl
    | cons y b =>
      rw [memcmpLt, bytesLess, ih]
      by_cases hlt : x < y
      · simp [hlt]
      by_cases hgt : y < x
      · have hne : x ≠ y := (UInt8.ne_of_lt hgt).symm
        simp [hgt, hne]
      · obtain rfl := UInt8.le_antisymm (UInt8.not_lt.mp hgt) (UInt8.not_lt.mp hlt)
        simp

def outpointKey (o : COutPoint) : List ℕ ×ₗ ℕ :=
  toLex ((serializeUInt256 o.hash).map toNat, o.n.toNat)

theorem serializeUInt256_injective : Function.Injective serializeUInt256 := by
  intro a b heq
  have hnat := congrArg ByteStream.leNat heq
  rw [serializeUInt256, serializeUInt256, ByteStream.leNat_leBytes a.isLt,
    ByteStream.leNat_leBytes b.isLt] at hnat
  exact BitVec.eq_of_toNat_eq hnat

theorem outpointKey_injective : Function.Injective outpointKey := by
  intro a b heq
  obtain ⟨hhash, hn⟩ := Prod.mk.inj (toLex.injective heq)
  have hbytes := map_injective_iff.mpr (fun _ _ => UInt8.toNat_inj.mp) hhash
  cases a
  cases b
  simp only [COutPoint.mk.injEq]
  exact ⟨serializeUInt256_injective hbytes, UInt32.toNat_inj.mp hn⟩

theorem outpoint_lt_iff {a b : COutPoint} : a.lt b ↔ outpointKey a < outpointKey b := by
  have hbytes : memcmpLt (serializeUInt256 a.hash) (serializeUInt256 b.hash) ↔
      (serializeUInt256 a.hash).map toNat < (serializeUInt256 b.hash).map toNat := by
    rw [memcmpLt_eq_bytesLess, bytesLess_iff (by simp [serializeUInt256])]
  have hsame : (serializeUInt256 a.hash).map toNat =
      (serializeUInt256 b.hash).map toNat ↔ a.hash = b.hash := by
    refine ⟨fun h => serializeUInt256_injective ?_, fun h => by rw [h]⟩
    exact map_injective_iff.mpr (fun _ _ => UInt8.toNat_inj.mp) h
  rw [COutPoint.lt, outpointKey, outpointKey, Prod.Lex.toLex_lt_toLex, Bool.or_eq_true, hbytes]
  simp [hsame, UInt32.lt_iff_toNat_lt]

def lastPaidKey (t : ℤ × CMasternode Addr) : ℤ ×ₗ (List ℕ ×ₗ ℕ) :=
  toLex (t.1, outpointKey t.2.vin.prevout)

theorem compareLastPaidBlock_iff :
    compareLastPaidBlock t1 t2 ↔ lastPaidKey t1 < lastPaidKey t2 := by
  rw [compareLastPaidBlock, lastPaidKey, lastPaidKey, Prod.Lex.toLex_lt_toLex]
  split
  next hne => simp [hne]
  next heq => simp [not_not.mp heq, outpoint_lt_iff]

theorem bestOfTenth_cases (score : CMasternode Addr → UInt256) (nTenthNetwork nCountTenth : ℕ)
    (nHighest : UInt256) (pBest : Option (CMasternode Addr)) (l : List (ℤ × CMasternode Addr)) :
    bestOfTenth score nTenthNetwork nCountTenth nHighest pBest l = pBest ∧
        (∀ t ∈ l.take (max 1 (nTenthNetwork - nCountTenth)), score t.2 ≤ nHighest) ∨
      ∃ t ∈ l.take (max 1 (nTenthNetwork - nCountTenth)),
        bestOfTenth score nTenthNetwork nCountTenth nHighest pBest l = some t.2 ∧
          nHighest < score t.2 ∧
          ∀ t' ∈ l.take (max 1 (nTenthNetwork - nCountTenth)), score t'.2 ≤ score t.2 := by
  induction l generalizing nCountTenth nHighest pBest with
  | nil => simp [bestOfTenth]
  | cons t l ih =>
    rw [bestOfTenth]
    by_cases hlast : nCountTenth + 1 ≥ nTenthNetwork
    · have hone : max 1 (nTenthNetwork - nCountTenth) = 1 := by omega
      rw [hone]
      split_ifs with hmore
      · exact .inr ⟨t, by simp, rfl, hmore, by simp⟩
      · exact .inl ⟨rfl, by simpa using hmore⟩
    · have hnext : max 1 (nTenthNetwork - nCountTenth) =
          max 1 (nTenthNetwork - (nCountTenth + 1)) + 1 := by omega
      rw [hnext, take_succ_cons]
      simp only [mem_cons, forall_eq_or_imp, exists_eq_or_imp]
      split_ifs with hmore
      · rcases ih (nCountTenth + 1) (score t.2) (some t.2) with
          ⟨heq, hall⟩ | ⟨t', ht', heq, hbetter, hall⟩
        · exact .inr (.inl ⟨heq, hmore, BitVec.le_refl _, hall⟩)
        · exact .inr (.inr ⟨t', ht', heq, BitVec.lt_trans hmore hbetter,
            BitVec.le_of_lt hbetter, hall⟩)
      · rcases ih (nCountTenth + 1) nHighest pBest with
          ⟨heq, hall⟩ | ⟨t', ht', heq, hbetter, hall⟩
        · exact .inl ⟨heq, BitVec.not_lt.mp hmore, hall⟩
        · exact .inr (.inr ⟨t', ht', heq, hbetter,
            BitVec.le_trans (BitVec.not_lt.mp hmore) (BitVec.le_of_lt hbetter), hall⟩)

/-! ## Who is paid -/

namespace CMasternodeMan

/-- Every masternode is stored under its own outpoint. -/
def Keyed (s : CMasternodeMan Addr) : Prop :=
  ∀ mnpair ∈ s.mapMasternodes.entries, mnpair.2.vin.prevout = mnpair.1

section
variable (crypto : MasternodeCrypto Addr) (ledger : UInt256 → Option CTransaction)
  (env : QueueEnv Addr) (s : CMasternodeMan Addr) (nBlockHeight : ℤ) (fFilterSigTime : Bool)

def eligible : List (ListedMasternode Addr) :=
  s.mapMasternodes.entries.filter
    (isQueued crypto ledger env nBlockHeight (s.countMasternodes env) fFilterSigTime)

def queueForPayment : List (ListedMasternode Addr) :=
  if fFilterSigTime ∧
      (s.eligible crypto ledger env nBlockHeight true).length < s.countMasternodes env / 3 then
    s.eligible crypto ledger env nBlockHeight false
  else s.eligible crypto ledger env nBlockHeight fFilterSigTime

/-- How many of the queue were paid at an earlier block, or at the same and come before by
their outpoints. -/
def place (queue : List (ListedMasternode Addr)) (mnpair : ListedMasternode Addr) : ℕ :=
  queue.countP fun other => other.2.nBlockLastPaid < mnpair.2.nBlockLastPaid ||
    (other.2.nBlockLastPaid = mnpair.2.nBlockLastPaid && other.1.lt mnpair.1)

def oldestTenth : Set (ListedMasternode Addr) :=
  { mnpair | mnpair ∈ s.queueForPayment crypto ledger env nBlockHeight fFilterSigTime ∧
    place (s.queueForPayment crypto ledger env nBlockHeight fFilterSigTime) mnpair <
      max 1 (s.countMasternodes env / 10) }

end

section
variable {crypto : MasternodeCrypto Addr} {ledger : UInt256 → Option CTransaction}
  {sorting : LastPaidSorting Addr} {env : QueueEnv Addr} {s s' : CMasternodeMan Addr}
  {nBlockHeight : ℤ} {fFilterSigTime : Bool} {queue : List (ListedMasternode Addr)}

def lastPaid (mnpair : ListedMasternode Addr) : ℤ × CMasternode Addr :=
  (mnpair.2.nBlockLastPaid, mnpair.2)

theorem getNext_eq_payOldest (hwinners : env.isWinnersListSynced) :
    getNextMasternodeInQueueForPayment crypto ledger sorting env s nBlockHeight fFilterSigTime =
      payOldest crypto sorting env s nBlockHeight
        ((s.queueForPayment crypto ledger env nBlockHeight fFilterSigTime).map lastPaid) := by
  have hvec : ∀ f, s.vecMasternodeLastPaid crypto ledger env nBlockHeight f =
      (s.eligible crypto ledger env nBlockHeight f).map lastPaid := fun _ => rfl
  unfold getNextMasternodeInQueueForPayment queueForPayment
  rw [hwinners]
  cases fFilterSigTime with
  | false => simp [hvec]
  | true =>
    simp only [hvec, length_map, Bool.true_and, true_and, Bool.not_true, decide_eq_true_eq,
      Bool.false_eq_true, if_false]
    split_ifs <;> rfl

theorem mem_entries_of_mem_queue {mnpair : ListedMasternode Addr}
    (h : mnpair ∈ s.queueForPayment crypto ledger env nBlockHeight fFilterSigTime) :
    mnpair ∈ s.mapMasternodes.entries := by
  unfold queueForPayment at h
  split_ifs at h
  · exact (mem_filter.mp h).1
  · exact (mem_filter.mp h).1

theorem nodup_queue : (s.queueForPayment crypto ledger env nBlockHeight fFilterSigTime).Nodup := by
  unfold queueForPayment
  split_ifs
  · exact s.mapMasternodes.nodupKeys.nodup.filter _
  · exact s.mapMasternodes.nodupKeys.nodup.filter _

variable {a b : ListedMasternode Addr}

section
variable (hkeyed : s.Keyed)
include hkeyed

theorem Keyed.eq_of_lastPaidKey_eq
    (ha : a ∈ s.mapMasternodes.entries) (hb : b ∈ s.mapMasternodes.entries)
    (heq : lastPaidKey (lastPaid a) = lastPaidKey (lastPaid b)) : a = b := by
  have houtpoint := outpointKey_injective (Prod.mk.inj (toLex.injective heq)).2
  refine s.mapMasternodes.nodupKeys.eq_of_fst_eq ha hb ?_
  rw [← hkeyed a ha, ← hkeyed b hb]
  exact houtpoint

theorem Keyed.compareLastPaidBlock_lastPaid
    (ha : a ∈ s.mapMasternodes.entries) (hb : b ∈ s.mapMasternodes.entries) :
    compareLastPaidBlock (lastPaid a) (lastPaid b) ↔ a.2.nBlockLastPaid < b.2.nBlockLastPaid ∨
        a.2.nBlockLastPaid = b.2.nBlockLastPaid ∧ a.1.lt b.1 := by
  rw [compareLastPaidBlock_iff, lastPaidKey, lastPaidKey, Prod.Lex.toLex_lt_toLex, outpoint_lt_iff]
  simp [lastPaid, hkeyed a ha, hkeyed b hb]

theorem Keyed.mem_take_sort_iff (hnodup : queue.Nodup)
    (hqueue : ∀ mnpair ∈ queue, mnpair ∈ s.mapMasternodes.entries) (k : ℕ)
    (t : ℤ × CMasternode Addr) :
    t ∈ (sorting.sort (queue.map lastPaid)).take k ↔
      ∃ mnpair ∈ queue, place queue mnpair < k ∧ lastPaid mnpair = t := by
  have hinj : ∀ a ∈ queue, ∀ b ∈ queue,
      lastPaidKey (lastPaid a) = lastPaidKey (lastPaid b) → a = b :=
    fun a ha b hb => hkeyed.eq_of_lastPaidKey_eq (hqueue a ha) (hqueue b hb)
  have hplace : ∀ mnpair ∈ queue, (queue.map lastPaid).countP
      (compareLastPaidBlock · (lastPaid mnpair)) = place queue mnpair := by
    intro mnpair hmem
    rw [countP_map]
    refine countP_congr fun other hother => ?_
    simpa using hkeyed.compareLastPaidBlock_lastPaid (hqueue other hother) (hqueue mnpair hmem)
  rw [sorting.mem_take_sort_iff compareLastPaidBlock_iff]
  · constructor
    · rintro ⟨hmem, hcount⟩
      obtain ⟨mnpair, hmnpair, rfl⟩ := mem_map.mp hmem
      exact ⟨mnpair, hmnpair, hplace mnpair hmnpair ▸ hcount, rfl⟩
    · rintro ⟨mnpair, hmem, hcount, rfl⟩
      exact ⟨mem_map_of_mem hmem, (hplace mnpair hmem).symm ▸ hcount⟩
  · exact hnodup.map_on fun a ha b hb heq => hinj a ha b hb (congrArg lastPaidKey heq)
  · simp only [forall_mem_map]
    exact fun a ha b hb heq => congrArg lastPaid (hinj a ha b hb heq)

theorem payOldest_eq (hnodup : queue.Nodup)
    (hqueue : ∀ mnpair ∈ queue, mnpair ∈ s.mapMasternodes.entries) {blockHash : UInt256}
    (hhash : getBlockHash env (nBlockHeight - 101) = some blockHash) (hne : queue ≠ [])
    (hscore : ∀ mnpair ∈ queue, mnpair.2.calculateScore crypto blockHash ≠ 0) :
    ∃ mnpair ∈ queue, place queue mnpair < max 1 (s.countMasternodes env / 10) ∧
      payOldest crypto sorting env s nBlockHeight (queue.map lastPaid) =
        (queue.length, some mnpair.2) ∧
      ∀ other ∈ queue, place queue other < max 1 (s.countMasternodes env / 10) →
        other.2.calculateScore crypto blockHash ≤ mnpair.2.calculateScore crypto blockHash := by
  set tenth := s.countMasternodes env / 10
  set paid := queue.map lastPaid
  have hmem : ∀ t, t ∈ (sorting.sort paid).take
      (max 1 tenth) ↔ _ := hkeyed.mem_take_sort_iff hnodup hqueue _
  have hcases := bestOfTenth_cases (fun mn => mn.calculateScore crypto blockHash)
    tenth 0 0 none (sorting.sort paid)
  rw [payOldest, hhash, length_map]
  dsimp only
  obtain ⟨-, hnone⟩ | ⟨t, ht, heq, -, hbest⟩ := hcases
  · -- The first of the queue has a score.
    cases hsort : sorting.sort paid with
    | nil =>
      have hperm := (sorting.perm paid).length_eq
      rw [hsort, length_map] at hperm
      exact absurd (eq_nil_of_length_eq_zero hperm.symm) hne
    | cons t rest =>
      have ht : t ∈ (sorting.sort paid).take (max 1 tenth) := by
        have hpos : max 1 tenth = (s.countMasternodes env / 10 - 1) + 1 := by omega
        rw [hsort, hpos]
        exact mem_cons_self
      obtain ⟨mnpair, hmnpair, -, rfl⟩ := (hmem t).mp ht
      exact absurd (BitVec.le_zero_iff.mp (hnone _ ht)) (hscore mnpair hmnpair)
  · obtain ⟨mnpair, hmnpair, hplace, rfl⟩ := (hmem t).mp ht
    refine ⟨mnpair, hmnpair, hplace, by rw [heq]; rfl, fun other hother hotherPlace => ?_⟩
    exact hbest (lastPaid other) ((hmem _).mpr ⟨other, hother, hotherPlace, rfl⟩)

end

section
variable (hperm : s'.mapMasternodes.entries.Perm s.mapMasternodes.entries)
include hperm

theorem countMasternodes_congr : s'.countMasternodes env = s.countMasternodes env :=
  hperm.countP_eq _

theorem queueForPayment_perm :
    (s'.queueForPayment crypto ledger env nBlockHeight fFilterSigTime).Perm
      (s.queueForPayment crypto ledger env nBlockHeight fFilterSigTime) := by
  have heligible : ∀ f, (s'.eligible crypto ledger env nBlockHeight f).Perm
      (s.eligible crypto ledger env nBlockHeight f) := by
    intro f
    rw [eligible, countMasternodes_congr hperm]
    exact hperm.filter _
  unfold queueForPayment
  rw [(heligible true).length_eq, countMasternodes_congr hperm]
  split_ifs
  · exact heligible false
  · exact heligible fFilterSigTime

end

theorem Keyed.getNext_congr (hkeyed : s.Keyed)
    (hperm : s'.mapMasternodes.entries.Perm s.mapMasternodes.entries)
    {sorting' : LastPaidSorting Addr} :
    getNextMasternodeInQueueForPayment crypto ledger sorting' env s' nBlockHeight fFilterSigTime =
      getNextMasternodeInQueueForPayment crypto ledger sorting env s nBlockHeight
        fFilterSigTime := by
  cases hwinners : env.isWinnersListSynced with
  | false => simp [getNextMasternodeInQueueForPayment, hwinners]
  | true =>
    have hqueue : (s'.queueForPayment crypto ledger env nBlockHeight fFilterSigTime).Perm _ :=
      queueForPayment_perm hperm
    rw [getNext_eq_payOldest hwinners, getNext_eq_payOldest hwinners, payOldest, payOldest,
      (hqueue.map lastPaid).length_eq, countMasternodes_congr hperm,
      sorting'.sort_congr sorting compareLastPaidBlock_iff ?_ (hqueue.map lastPaid)]
    simp only [forall_mem_map]
    intro a ha b hb heq
    refine congrArg lastPaid (hkeyed.eq_of_lastPaidKey_eq ?_ ?_ heq)
    · exact mem_entries_of_mem_queue (hqueue.mem_iff.mp ha)
    · exact mem_entries_of_mem_queue (hqueue.mem_iff.mp hb)

end

/-- With the winners list synced and the block known, the paid masternode has the highest score
of the oldest tenth of the queue, in whatever order the list is kept and sorted. -/
theorem getNextMasternodeInQueueForPayment_highest {Addr : Type} (crypto : MasternodeCrypto Addr)
    (ledger : UInt256 → Option CTransaction) (sorting : LastPaidSorting Addr)
    (env : QueueEnv Addr) (s : CMasternodeMan Addr) (nBlockHeight : ℤ) (fFilterSigTime : Bool)
    (blockHash : UInt256) (hkeyed : s.Keyed) (hwinners : env.isWinnersListSynced)
    (hhash : getBlockHash env (nBlockHeight - 101) = some blockHash)
    (hdistinct : ∀ a ∈ s.mapMasternodes.entries, ∀ b ∈ s.mapMasternodes.entries,
      a.2.calculateScore crypto blockHash = b.2.calculateScore crypto blockHash → a = b)
    (hnonzero : ∀ a ∈ s.mapMasternodes.entries, a.2.calculateScore crypto blockHash ≠ 0) :
    (s.queueForPayment crypto ledger env nBlockHeight fFilterSigTime ≠ [] →
      ∃ mnpair ∈ s.oldestTenth crypto ledger env nBlockHeight fFilterSigTime,
        getNextMasternodeInQueueForPayment crypto ledger sorting env s nBlockHeight
            fFilterSigTime =
          ((s.queueForPayment crypto ledger env nBlockHeight fFilterSigTime).length,
            some mnpair.2) ∧
        ∀ other ∈ s.oldestTenth crypto ledger env nBlockHeight fFilterSigTime, other ≠ mnpair →
          other.2.calculateScore crypto blockHash < mnpair.2.calculateScore crypto blockHash) ∧
    ∀ (sorting' : LastPaidSorting Addr) (s' : CMasternodeMan Addr),
      s'.mapMasternodes.entries.Perm s.mapMasternodes.entries →
        getNextMasternodeInQueueForPayment crypto ledger sorting' env s' nBlockHeight
            fFilterSigTime =
          getNextMasternodeInQueueForPayment crypto ledger sorting env s nBlockHeight
            fFilterSigTime := by
  refine ⟨fun hne => ?_, fun sorting' s' hperm => hkeyed.getNext_congr hperm⟩
  have hmem : ∀ a ∈ s.queueForPayment crypto ledger env nBlockHeight fFilterSigTime,
      a ∈ s.mapMasternodes.entries := fun _ => mem_entries_of_mem_queue
  obtain ⟨mnpair, hmnpair, hplace, heq, hbest⟩ := payOldest_eq hkeyed nodup_queue hmem hhash hne
    fun a ha => hnonzero a (hmem a ha)
  refine ⟨mnpair, ⟨hmnpair, hplace⟩, (getNext_eq_payOldest hwinners).trans heq, ?_⟩
  rintro other ⟨hother, hotherPlace⟩ hdiff
  refine BitVec.lt_of_le_ne (hbest other hother hotherPlace) fun hsame => hdiff ?_
  exact hdistinct other (hmem other hother) mnpair (hmem mnpair hmnpair) hsame

end CMasternodeMan

def queueEnv : QueueEnv ℕ :=
  { listingEnv with
    isWinnersListSynced := true
    requireSentinelFlag := true
    payments := {}
    nCachedBlockHeight := 100
    isTooNew := fun nMnCount sigTime => sigTime + nMnCount * 156 > 1530000000 }

/-- A masternode with the first output of a transaction, whose hash is its score. -/
def queuedMasternode (hash : UInt256) (nProtocolVersion sigTime nBlockLastPaid : ℤ) :
    CMasternode ℕ :=
  { (announcement [1]).mnb.toCMasternode with
    vin := ⟨⟨hash, 0⟩, [], 0xffffffff⟩
    nProtocolVersion := nProtocolVersion
    sigTime := sigTime
    nBlockLastPaid := nBlockLastPaid }

def listOf (masternodes : List (CMasternode ℕ)) : CMasternodeMan ℕ :=
  masternodes.foldl CMasternodeMan.add {}

/-- Twenty masternodes, of which the 15th and then the 16th were paid first. -/
def twentyMasternodes : CMasternodeMan ℕ :=
  listOf ((range 20).map fun i =>
    queuedMasternode (BitVec.ofNat 256 (i + 1)) 70224 1525000000 ((i + 6 : ℤ) % 20))

def upgradingNetwork : CMasternodeMan ℕ :=
  listOf [queuedMasternode 1 70224 1530000000 0, queuedMasternode 2 70000 1525000000 0,
    queuedMasternode 3 70000 1525000000 0]

def insertionByLastPaid : LastPaidSorting ℕ := Sorting.byKey lastPaidKey compareLastPaidBlock_iff

def everyTransaction (_ : UInt256) : Option CTransaction := some (fundingTx [[1]])

namespace CMasternodeMan

theorem getNext_highest_twentyMasternodes :
    ∃ mnpair ∈ twentyMasternodes.oldestTenth (signingOnly [] []) everyTransaction queueEnv 101
        true,
      getNextMasternodeInQueueForPayment (signingOnly [] []) everyTransaction
          insertionByLastPaid queueEnv twentyMasternodes 101 true =
        ((twentyMasternodes.queueForPayment (signingOnly [] []) everyTransaction queueEnv 101
          true).length, some mnpair.2) ∧
      ∀ other ∈ twentyMasternodes.oldestTenth (signingOnly [] []) everyTransaction queueEnv 101
          true, other ≠ mnpair →
        other.2.calculateScore (signingOnly [] []) 1 <
          mnpair.2.calculateScore (signingOnly [] []) 1 := by
  have hscores : ∀ a ∈ twentyMasternodes.mapMasternodes.entries,
      ∀ b ∈ twentyMasternodes.mapMasternodes.entries,
        a.2.calculateScore (signingOnly [] []) 1 = b.2.calculateScore (signingOnly [] []) 1 →
          a.1 = b.1 := by decide +kernel
  refine (getNextMasternodeInQueueForPayment_highest (signingOnly [] []) everyTransaction
    insertionByLastPaid queueEnv twentyMasternodes 101 true 1 ?_ rfl ?_ ?_ ?_).1 ?_
  · unfold Keyed
    decide +kernel
  · decide +kernel
  · intro a ha b hb hsame
    exact twentyMasternodes.mapMasternodes.nodupKeys.eq_of_fst_eq ha hb (hscores a ha b hb hsame)
  · decide +kernel
  · decide +kernel

example : ((getNextMasternodeInQueueForPayment (signingOnly [] []) everyTransaction
      insertionByLastPaid queueEnv twentyMasternodes 101 true).2.map fun mn =>
        mn.vin.prevout.hash) = some 16 := by decide +kernel

/-- Of three masternodes, none passes the filter, and the one that is up to date would without
it; it is not paid, as a third of the masternodes that are up to date is none. -/
theorem upgradingNetwork_pays_none : upgradingNetwork.mapMasternodes.entries.length = 3 ∧
      getBlockHash queueEnv (101 - 101) = some 1 ∧
      (upgradingNetwork.mapMasternodes.entries.map fun mnpair =>
        mnpair.2.calculateScore (signingOnly [] []) 1) = [3, 2, 1] ∧
      (upgradingNetwork.eligible (signingOnly [] []) everyTransaction queueEnv 101
        true).length < 3 / 3 ∧
      (upgradingNetwork.eligible (signingOnly [] []) everyTransaction queueEnv 101 false).map
        Sigma.fst = [⟨1, 0⟩] ∧
      (getNextMasternodeInQueueForPayment (signingOnly [] []) everyTransaction
        insertionByLastPaid queueEnv upgradingNetwork 101 true).2.isNone := by
  decide +kernel

end CMasternodeMan
end ImageCoin
