import ImageCoin.Interpreter
import ImageCoin.SignatureHash

/-!
# Checking the scripts of a transaction

`TransactionSignatureChecker` of `interpreter.cpp`, and `VerifyScript` for one input of a
transaction.
-/

namespace ImageCoin

/-- `CPubKey` and the hash of signatures. -/
structure SignatureOps where
  hash : Bytes → UInt256
  isValid : Bytes → Bool
  /-- of a public key, a hash and a signature -/
  verify : Bytes → UInt256 → Bytes → Bool

def locktimeThreshold : ℤ := 500000000

def sequenceFinal : UInt32 := 0xffffffff

def sequenceLocktimeDisableFlag : UInt32 := 0x80000000

def sequenceLocktimeTypeFlag : UInt32 := 0x400000

def sequenceLocktimeMask : UInt32 := 0xffff

section
variable (ops : SignatureOps) (txTo : CMutableTransaction) (nIn : UInt32)

def checkSig (vchSigIn vchPubKey : Bytes) (scriptCode : CScript) : Bool :=
  if !ops.isValid vchPubKey then false
  else
    match vchSigIn.getLast? with
    | none => false
    | some nHashType =>
      let sighash := signatureHash ops.hash scriptCode txTo nIn (.ofNat nHashType.toNat)
      ops.verify vchPubKey sighash vchSigIn.dropLast

def inputSequence : UInt32 := (txTo.vin[nIn.toNat]?).elim 0 CTxIn.nSequence

def checkLockTime (nLockTime : ℤ) : Bool :=
  let txLockTime : ℤ := txTo.nLockTime.toNat
  if !((txLockTime < locktimeThreshold && nLockTime < locktimeThreshold) ||
      (txLockTime ≥ locktimeThreshold && nLockTime ≥ locktimeThreshold)) then false
  else if nLockTime > txLockTime then false
  else sequenceFinal ≠ inputSequence txTo nIn

def checkSequence (nSequence : ℤ) : Bool :=
  let txToSequence := inputSequence txTo nIn
  if txTo.nVersion.toUInt32 < 2 then false
  else if txToSequence &&& sequenceLocktimeDisableFlag ≠ 0 then false
  else
    -- The operand is an `int64_t`, whose masked value fits 32 bits.
    let nLockTimeMask := sequenceLocktimeTypeFlag ||| sequenceLocktimeMask
    let txToSequenceMasked := txToSequence &&& nLockTimeMask
    let nSequenceMasked := (UInt64.ofInt nSequence).toUInt32 &&& nLockTimeMask
    if !((txToSequenceMasked < sequenceLocktimeTypeFlag &&
          nSequenceMasked < sequenceLocktimeTypeFlag) ||
        (txToSequenceMasked ≥ sequenceLocktimeTypeFlag &&
          nSequenceMasked ≥ sequenceLocktimeTypeFlag)) then false
    else nSequenceMasked ≤ txToSequenceMasked

def transactionSignatureChecker : BaseSignatureChecker where
  checkSig := checkSig ops txTo nIn
  checkLockTime := checkLockTime txTo nIn
  checkSequence := checkSequence txTo nIn

end

def verifyInput (ops : SignatureOps) (crypto : Crypto) (flags : UInt32)
    (txTo : CMutableTransaction) (nIn : ℕ) (scriptSig scriptPubKey : CScript) : Bool :=
  (verifyScript ⟨flags, transactionSignatureChecker ops txTo (.ofNat nIn), crypto⟩
    scriptSig scriptPubKey).isOk

def CTxIn.unsigned (txin : CTxIn) : COutPoint × UInt32 := (txin.prevout, txin.nSequence)

structure SameButScriptSigs (a b : CMutableTransaction) : Prop where
  nVersion : a.nVersion = b.nVersion
  vin : a.vin.map CTxIn.unsigned = b.vin.map CTxIn.unsigned
  vout : a.vout = b.vout
  nLockTime : a.nLockTime = b.nLockTime

section
variable {a b : CMutableTransaction} {ops : SignatureOps} {crypto : Crypto} {flags : UInt32}
  {hashOf : Bytes → UInt256} {scriptCode scriptSig scriptPubKey : CScript} {nHashType : Int32}
  (h : SameButScriptSigs a b)
include h

theorem SameButScriptSigs.getElem? (n : ℕ) :
    (a.vin[n]?).map CTxIn.unsigned = (b.vin[n]?).map CTxIn.unsigned := by
  rw [← List.getElem?_map, h.vin, List.getElem?_map]

theorem SameButScriptSigs.serializeInput {nIn nInput : ℕ} :
    serializeInput scriptCode a nIn nHashType nInput =
      serializeInput scriptCode b nIn nHashType nInput := by
  have hget := h.getElem? (if fAnyoneCanPay nHashType then nIn else nInput)
  simp only [ImageCoin.serializeInput]
  revert hget
  cases a.vin[if fAnyoneCanPay nHashType then nIn else nInput]? <;>
    cases b.vin[if fAnyoneCanPay nHashType then nIn else nInput]? <;>
    simp +contextual [CTxIn.unsigned]

variable {nIn : UInt32}

theorem SameButScriptSigs.signatureHash : signatureHash hashOf scriptCode a nIn nHashType =
    signatureHash hashOf scriptCode b nIn nHashType := by
  have hlength : a.vin.length = b.vin.length := by simpa using congrArg List.length h.vin
  have hinputs : ImageCoin.serializeInput scriptCode a nIn.toNat nHashType =
      ImageCoin.serializeInput scriptCode b nIn.toNat nHashType :=
    funext fun _ => h.serializeInput
  have houtputs : serializeOutput a nIn.toNat nHashType = serializeOutput b nIn.toNat nHashType :=
    funext fun _ => by simp only [serializeOutput, h.vout]
  simp only [ImageCoin.signatureHash, signaturePreimage, signatureSerialize, hlength, hinputs,
    houtputs, h.vout, h.nVersion, h.nLockTime]

theorem SameButScriptSigs.inputSequence : inputSequence a nIn = inputSequence b nIn := by
  have hget := h.getElem? nIn.toNat
  unfold ImageCoin.inputSequence
  revert hget
  cases a.vin[nIn.toNat]? <;> cases b.vin[nIn.toNat]? <;> simp +contextual [CTxIn.unsigned]

theorem SameButScriptSigs.checker :
    transactionSignatureChecker ops a nIn = transactionSignatureChecker ops b nIn := by
  unfold transactionSignatureChecker checkSig checkLockTime checkSequence
  simp only [h.signatureHash, h.inputSequence, h.nVersion, h.nLockTime]

theorem SameButScriptSigs.verifyInput {nIn : ℕ} :
    verifyInput ops crypto flags a nIn scriptSig scriptPubKey =
      verifyInput ops crypto flags b nIn scriptSig scriptPubKey := by
  simp only [ImageCoin.verifyInput, h.checker]

end

def isFinalTx (tx : CMutableTransaction) (nBlockHeight nBlockTime : ℤ) : Bool :=
  let nLockTime : ℤ := tx.nLockTime.toNat
  if nLockTime = 0 then true
  else if nLockTime < (if nLockTime < locktimeThreshold then nBlockHeight else nBlockTime) then true
  else tx.vin.all (·.nSequence = sequenceFinal)

/-- A spend that passed `OP_CHECKLOCKTIMEVERIFY` is in no block before the lock. -/
theorem lockTime_enforced (tx : CMutableTransaction) (nIn : UInt32) (nLockTime nHeight nTime : ℤ)
    (hin : nIn.toNat < tx.vin.length) (hcheck : checkLockTime tx nIn nLockTime)
    (hfinal : isFinalTx tx nHeight nTime) : nLockTime ≤ 0 ∨
      nLockTime < if nLockTime < locktimeThreshold then nHeight else nTime := by
  have hseq : inputSequence tx nIn = tx.vin[nIn.toNat].nSequence := by
    rw [inputSequence, List.getElem?_eq_getElem hin, Option.elim_some]
  simp only [checkLockTime, hseq] at hcheck
  split_ifs at hcheck with hkind hless
  have hall : tx.vin.all (·.nSequence = sequenceFinal) = false := by
    rw [List.all_eq_false]
    exact ⟨_, List.getElem_mem hin, by simpa using Ne.symm (of_decide_eq_true hcheck)⟩
  simp only [isFinalTx, hall] at hfinal
  simp at hkind
  split_ifs at hfinal ⊢ <;> omega

theorem lockTime_enforced_fifty :
    (50 : ℤ) ≤ 0 ∨ (50 : ℤ) < if (50 : ℤ) < locktimeThreshold then 101 else 0 :=
  lockTime_enforced ⟨1, [⟨⟨0, 0⟩, [], 0⟩], [], 100⟩ 0 50 101 0 (by decide) (by decide) (by decide)

end ImageCoin
