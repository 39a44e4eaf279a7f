import ImageCoin.ResumableScan
import ImageCoin.Superblock

/-!
# The payments of a superblock

`CSuperblock::IsValid` looks for the scheduled payments in the coinbase, in their order, but
the search for a payment begins at the output of the payment before it and not after it.
-/

namespace ImageCoin

open ResumableScan CGovernancePayment List

def CGovernancePayment.paidBy (payment : CGovernancePayment) (txout : CTxOut) : Prop :=
  payment.script = txout.scriptPubKey ∧ payment.nAmount = txout.nValue

def CGovernancePayment.toOut (payment : CGovernancePayment) : CTxOut where
  nValue := payment.nAmount
  scriptPubKey := payment.script
  imgbase64 := []

variable {payment : CGovernancePayment} {payments : List CGovernancePayment}
  {vout : List CTxOut} {txout : CTxOut}

theorem paidBy_toOut (payment : CGovernancePayment) : payment.paidBy payment.toOut :=
  ⟨rfl, rfl⟩

theorem eq_of_paidBy (payment payment' : CGovernancePayment) (txout : CTxOut)
    (h : payment.paidBy txout) (h' : payment'.paidBy txout) : payment = payment' := by
  obtain ⟨script, nAmount⟩ := payment
  obtain ⟨script', nAmount'⟩ := payment'
  rw [mk.injEq]
  exact ⟨h.1.trans h'.1.symm, h.2.trans h'.2.symm⟩

variable {nVoutIndex j : ℕ}

theorem findPayment_some (hfind : findPayment payment vout nVoutIndex = some j) :
    nVoutIndex ≤ j ∧ ∃ txout, vout[j]? = some txout ∧ payment.paidBy txout := by
  obtain ⟨i, hi, rfl⟩ := Option.map_eq_some_iff.mp hfind
  obtain ⟨hlt, hmatch, -⟩ := findIdx?_eq_some_iff_getElem.mp hi
  rw [Bool.and_eq_true, decide_eq_true_eq, decide_eq_true_eq, getElem_drop] at hmatch
  exact ⟨Nat.le_add_right _ _, _, getElem?_eq_getElem _, hmatch⟩

theorem findPayment_le (hle : nVoutIndex ≤ j) (hout : vout[j]? = some txout)
    (hpays : payment.paidBy txout) : ∃ i ≤ j, findPayment payment vout nVoutIndex = some i := by
  have hdrop : (vout.drop nVoutIndex)[j - nVoutIndex]? = some txout := by
    rw [List.getElem?_drop, Nat.add_sub_cancel' hle, hout]
  obtain ⟨hlt, hget⟩ := List.getElem?_eq_some_iff.mp hdrop
  cases hfind : (vout.drop nVoutIndex).findIdx? fun txout =>
      payment.script = txout.scriptPubKey && payment.nAmount = txout.nValue with
  | none =>
    have hnone := List.findIdx?_eq_none_iff.mp hfind txout (hget ▸ List.getElem_mem hlt)
    simp [hpays.1, hpays.2] at hnone
  | some i =>
    refine ⟨nVoutIndex + i, ?_, by rw [findPayment, hfind, Option.map_some]⟩
    obtain ⟨_, _, hfirst⟩ := List.findIdx?_eq_some_iff_getElem.mp hfind
    by_contra hlater
    have hnot := hfirst (j - nVoutIndex) (by omega)
    rw [hget] at hnot
    simp [hpays.1, hpays.2] at hnot

theorem matchPayments_iff {nVoutIndex : ℕ} : matchPayments vout payments nVoutIndex ↔
    Covers paidBy vout payments nVoutIndex := by
  induction payments generalizing nVoutIndex with
  | nil => exact iff_of_true rfl trivial
  | cons payment payments ih =>
    rw [matchPayments]
    constructor
    · intro hmatch
      cases hfind : findPayment payment vout nVoutIndex with
      | none => simp [hfind] at hmatch
      | some j =>
        obtain ⟨hle, hout⟩ := findPayment_some hfind
        rw [hfind] at hmatch
        exact ⟨j, hle, hout, ih.mp hmatch⟩
    · rintro ⟨j, hle, ⟨txout, hout, hpays⟩, hrest⟩
      obtain ⟨i, hi, hfind⟩ := findPayment_le hle hout hpays
      rw [hfind]
      exact ih.mpr (hrest.of_le hi)

def paymentsSum (payments : List CGovernancePayment) : ℤ :=
  (payments.map fun payment => payment.nAmount.toInt).sum

theorem foldl_nAmount_toInt {start : CAmount} (hstart : 0 ≤ start.toInt)
    (hpos : ∀ payment ∈ payments, 0 ≤ payment.nAmount.toInt)
    (hfits : start.toInt + paymentsSum payments < 2 ^ 63) :
    (payments.foldl (fun total payment => total + payment.nAmount) start).toInt =
      start.toInt + paymentsSum payments := by
  induction payments generalizing start with
  | nil => simp [paymentsSum]
  | cons payment payments ih =>
    obtain ⟨hfirst, hpos⟩ := forall_mem_cons.mp hpos
    have hrest : 0 ≤ paymentsSum payments := by
      refine sum_nonneg fun x hx => ?_
      obtain ⟨other, hother, rfl⟩ := mem_map.mp hx
      exact hpos other hother
    simp only [paymentsSum, map_cons, sum_cons] at hfits hrest ⊢
    have hsum : (start + payment.nAmount).toInt = start.toInt + payment.nAmount.toInt :=
      toInt_add_of_fits (by omega) (by omega)
    rw [foldl_cons, ih (by omega) hpos (by rw [paymentsSum]; omega), paymentsSum]
    omega

theorem getPaymentsTotalAmount_toInt {superblock : CSuperblock}
    (hpos : ∀ payment ∈ superblock.vecPayments, 0 ≤ payment.nAmount.toInt)
    (hfits : paymentsSum superblock.vecPayments < 2 ^ 63) :
    superblock.getPaymentsTotalAmount.toInt = paymentsSum superblock.vecPayments := by
  have hzero : (0 : CAmount).toInt = 0 := rfl
  rw [CSuperblock.getPaymentsTotalAmount,
    foldl_nAmount_toInt le_rfl hpos (by rwa [hzero, zero_add]), hzero, zero_add]

def unmatchedOut (vout : List CTxOut) {n : ℕ} (f : Fin n → Fin vout.length) : ℤ :=
  ∑ j ∈ (Finset.univ.image f)ᶜ, (vout.get j).nValue.toInt

theorem paymentsSum_add_unmatchedOut {f : Fin payments.length → Fin vout.length}
    (hf : Matches paidBy payments vout f) :
    paymentsSum payments + unmatchedOut vout f = totalOut vout := by
  have hmatched : ∑ j ∈ Finset.univ.image f, (vout.get j).nValue.toInt = paymentsSum payments := by
    rw [Finset.sum_image fun i _ i' _ heq => hf.1.injective heq, paymentsSum,
      ← Fin.sum_univ_fun_getElem]
    refine Finset.sum_congr rfl fun i _ => ?_
    exact congrArg Int64.toInt (hf.2 i).2.symm
  rw [← hmatched, unmatchedOut, Finset.sum_add_sum_compl, totalOut, ← Fin.sum_univ_fun_getElem]
  rfl

variable {superblock : CSuperblock} {params : ConsensusParams} {txNew : CTransaction}
  {nBlockHeight : ℕ} {blockReward : CAmount}

theorem isValid_eq_true : superblock.isValid params txNew nBlockHeight blockReward = some true ↔
    isValidBlockHeight params nBlockHeight ∧
      superblock.vecPayments.length ≤ txNew.vout.length ∧
      ¬superblock.getPaymentsTotalAmount > getPaymentsLimit params nBlockHeight ∧
      ∃ nBlockValue, txNew.getValueOut = some nBlockValue ∧
        ¬nBlockValue > blockReward + superblock.getPaymentsTotalAmount ∧
        Covers paidBy txNew.vout superblock.vecPayments 0 := by
  rw [← matchPayments_iff, CSuperblock.isValid]
  by_cases hheight : isValidBlockHeight params nBlockHeight
  · by_cases hfew : txNew.vout.length < superblock.vecPayments.length
    · simp [hfew]
    · by_cases hlimit : superblock.getPaymentsTotalAmount > getPaymentsLimit params nBlockHeight
      · simp [hlimit]
      · cases hvalue : txNew.getValueOut with
        | none => simp [hfew, hlimit]
        | some nBlockValue =>
          by_cases hblock : nBlockValue > blockReward + superblock.getPaymentsTotalAmount
          · simp [hblock]
          · have hle : nBlockValue ≤ blockReward + superblock.getPaymentsTotalAmount :=
              Int64.not_lt.mp hblock
            simp [hheight, hfew, not_lt.mp hfew, hlimit, hblock, hle]
  · simp [hheight]

variable {nBlockValue : CAmount}

theorem matched_le_getValueOut {f : Fin payments.length → Fin txNew.vout.length}
    (hf : Matches paidBy payments txNew.vout f) (hvalue : txNew.getValueOut = some nBlockValue) :
    (∀ payment ∈ payments, moneyRange payment.nAmount) ∧ 0 ≤ unmatchedOut txNew.vout f ∧
      paymentsSum payments + unmatchedOut txNew.vout f = nBlockValue.toInt ∧
      nBlockValue.toInt ≤ maxMoney.toInt := by
  obtain ⟨hrange, hexact⟩ := getValueOut_eq_some hvalue
  have hvalues := moneyRange_of_foldlM hvalue
  refine ⟨fun payment hmem => ?_, Finset.sum_nonneg fun j _ => ?_, ?_, ?_⟩
  · obtain ⟨i, rfl⟩ := get_of_mem hmem
    rw [(hf.2 i).2]
    exact hvalues _ (get_mem _ _)
  · exact (moneyRange_iff.mp (hvalues _ (get_mem _ _))).1
  · rw [paymentsSum_add_unmatchedOut hf, hexact]
  · exact (moneyRange_iff.mp hrange).2

theorem unmatchedOut_le {f : Fin superblock.vecPayments.length → Fin txNew.vout.length}
    (hf : Matches paidBy superblock.vecPayments txNew.vout f)
    (hvalue : txNew.getValueOut = some nBlockValue)
    (hblock : ¬nBlockValue > blockReward + superblock.getPaymentsTotalAmount) :
    unmatchedOut txNew.vout f ≤ blockReward.toInt := by
  obtain ⟨hamounts, hrest, hsplit, hmax⟩ := matched_le_getValueOut hf hvalue
  have hpos : ∀ payment ∈ superblock.vecPayments, 0 ≤ payment.nAmount.toInt :=
    fun payment hmem => (moneyRange_iff.mp (hamounts payment hmem)).1
  have hsum : 0 ≤ paymentsSum superblock.vecPayments := by
    refine sum_nonneg fun x hx => ?_
    obtain ⟨payment, hmem, rfl⟩ := mem_map.mp hx
    exact hpos payment hmem
  have hmoney : maxMoney.toInt < 2 ^ 62 := by decide
  have htotal := getPaymentsTotalAmount_toInt hpos (by omega)
  rw [gt_iff_lt, Int64.lt_iff_toInt_lt] at hblock
  have hadd : (blockReward + superblock.getPaymentsTotalAmount).toInt ≤
      blockReward.toInt + superblock.getPaymentsTotalAmount.toInt := by
    by_cases hreward : 0 ≤ blockReward.toInt
    · exact toInt_add_le_of_nonneg hreward
    · have hlow := blockReward.le_toInt
      exact (toInt_add_of_fits (by omega) (by omega)).le
  omega

/-- Every coinbase that passes pays each scheduled payment with an output of its
own, in order, and leaves at most the reward to the miner. -/
def CSuperblock.ExactlyPaid (superblock : CSuperblock) (params : ConsensusParams)
    (nBlockHeight : ℕ) : Prop :=
  ∀ (txNew : CTransaction) (blockReward : CAmount),
    superblock.isValid params txNew nBlockHeight blockReward = some true →
    ∃ f, Matches paidBy superblock.vecPayments txNew.vout f ∧
      unmatchedOut txNew.vout f ≤ blockReward.toInt

/-- Equal payments in a row, which one output answers, count once. -/
def PayableOnce (payments : List CGovernancePayment) : Prop :=
  (∀ payment ∈ payments.destutter (· ≠ ·), moneyRange payment.nAmount) ∧
    paymentsSum (payments.destutter (· ≠ ·)) ≤ maxMoney.toInt

/-- A coinbase that pays equal neighbours once, with as many other outputs as
there are payments. -/
def payingOnce (payments : List CGovernancePayment) (other : CScript) : CTransaction where
  nVersion := 1
  vin := [⟨⟨0, 0xffffffff⟩, [0x51, 0x51], 0xffffffff⟩]
  vout := (payments.destutter (· ≠ ·)).map toOut ++ replicate payments.length ⟨0, other, [], -10⟩
  nLockTime := 0
  hash := 1

theorem payingOnce_getValueOut (hpayable : PayableOnce payments) (other : CScript) :
    ∃ nValueOut, (payingOnce payments other).getValueOut = some nValueOut := by
  refine getValueOut_of_total (fun txout hmem => ?_) ?_
  · rcases mem_append.mp hmem with hmem | hmem
    · obtain ⟨payment, hpayment, rfl⟩ := mem_map.mp hmem
      exact hpayable.1 payment hpayment
    · rw [eq_of_mem_replicate hmem]
      rfl
  · have htotal := hpayable.2
    simp only [paymentsSum] at htotal
    simpa [totalOut, payingOnce, toOut, Function.comp_def] using htotal

theorem payingOnce_isValid (hheight : isValidBlockHeight params nBlockHeight)
    (hlimit : ¬superblock.getPaymentsTotalAmount > getPaymentsLimit params nBlockHeight)
    (hpayable : PayableOnce superblock.vecPayments) (other : CScript) :
    superblock.isValid params (payingOnce superblock.vecPayments other) nBlockHeight
      (Int64.maxValue - superblock.getPaymentsTotalAmount) = some true := by
  obtain ⟨nBlockValue, hvalue⟩ := payingOnce_getValueOut hpayable other
  refine isValid_eq_true.mpr ⟨hheight, by simp [payingOnce], hlimit, nBlockValue, hvalue, ?_, ?_⟩
  · rw [Int64.sub_add_cancel, gt_iff_lt, Int64.lt_iff_toInt_lt]
    have hmax := nBlockValue.toInt_lt
    rw [Int64.toInt_maxValue]
    omega
  · cases hpayments : superblock.vecPayments with
    | nil => trivial
    | cons payment payments =>
      exact covers_destutter paidBy_toOut [] _ payment payments

/-- The schedule is paid exactly unless it can be paid and has two equal payments
in a row. -/
theorem exactlyPaid_iff (superblock : CSuperblock) (params : ConsensusParams) (nBlockHeight : ℕ) :
    superblock.ExactlyPaid params nBlockHeight ↔ (isValidBlockHeight params nBlockHeight →
        ¬superblock.getPaymentsTotalAmount > getPaymentsLimit params nBlockHeight →
        PayableOnce superblock.vecPayments → superblock.vecPayments.IsChain (· ≠ ·)) := by
  constructor
  · intro hexact hheight hlimit hpayable
    -- A script that the schedule does not pay to makes the other outputs useless.
    obtain ⟨other, hother⟩ := Infinite.exists_notMem_finset
      (superblock.vecPayments.map CGovernancePayment.script).toFinset
    obtain ⟨f, hf, -⟩ := hexact _ _ (payingOnce_isValid hheight hlimit hpayable other)
    have hle := hf.length_le (n := (superblock.vecPayments.destutter (· ≠ ·)).length) (by
      intro txout hmem payment hpayment hpaid
      rw [payingOnce, ← List.length_map CGovernancePayment.toOut, List.drop_left] at hmem
      rw [List.eq_of_mem_replicate hmem] at hpaid
      refine hother (List.mem_toFinset.mpr ?_)
      exact List.mem_map.mpr ⟨payment, hpayment, hpaid.1⟩)
    have hsublist := List.destutter_sublist (· ≠ ·) superblock.vecPayments
    exact (List.destutter_eq_self_iff _ _).mp (hsublist.eq_of_length_le hle)
  · intro hchain txNew blockReward hvalid
    obtain ⟨hheight, -, hlimit, nBlockValue, hvalue, hblock, hcovers⟩ :=
      isValid_eq_true.mp hvalid
    -- Whatever passes shows that the schedule without its repetitions can be paid.
    have hsub := List.destutter_sublist (· ≠ ·) superblock.vecPayments
    have honce := List.isChain_destutter (· ≠ ·) superblock.vecPayments
    obtain ⟨g, hg, -⟩ := Covers.exists_matches eq_of_paidBy honce (hcovers.sublist hsub)
    obtain ⟨hamounts, hrest, hsplit, hmax⟩ := matched_le_getValueOut hg hvalue
    have hequal := hchain hheight hlimit ⟨hamounts, by omega⟩
    obtain ⟨f, hf, -⟩ := Covers.exists_matches eq_of_paidBy hequal hcovers
    exact ⟨f, hf, unmatchedOut_le hf hvalue hblock⟩

def twiceScheduled : CSuperblock where
  nBlockStart := 631408
  pGovObj := some ⟨true, 1⟩
  vecPayments := [⟨[OP_1], coin⟩, ⟨[OP_1], coin⟩]

/-- One payment of the two; the miner takes the other with a reward of one coin. -/
def paidOnce : CTransaction :=
  { coinbasePaying coin with
    vout := [⟨coin, [OP_1], [], -10⟩, ⟨coin + coin, [OP_16], [], -10⟩] }

/-- The coinbase passes although the second payment is missing. -/
theorem twiceScheduled_isValid_paidOnce :
    twiceScheduled.isValid mainParams paidOnce 631408 coin = some true ∧
      ¬∃ f, Matches CGovernancePayment.paidBy twiceScheduled.vecPayments paidOnce.vout f := by
  refine ⟨by decide +kernel, ?_⟩
  rintro ⟨f, hmono, hpaid⟩
  have hplace : ∀ i, f i = ⟨0, by decide⟩ := by
    intro i
    have hscript := (hpaid i).1
    revert hscript
    generalize f i = j
    revert i j
    decide
  have hlt : f ⟨0, by decide⟩ < f ⟨1, by decide⟩ := hmono (by decide)
  rw [hplace, hplace] at hlt
  exact lt_irrefl _ hlt

end ImageCoin
