import ImageCoin.Interpreter

/-!
# Soft forks only refuse

Adding verification flags never makes a script valid.
-/

namespace ImageCoin

open StateExcept
variable {e : ScriptError} {vch vchSig vchPubKey : Bytes} {env : ScriptEnv}
  {scriptCode script : CScript} {stack stackCopy final : List Bytes}

/-- An environment with fewer flags, none of which discourages the opcodes
that later flags give a meaning to. -/
structure ScriptEnv.Weaker (weak strong : ScriptEnv) : Prop where
  flags : weak.flags &&& strong.flags = weak.flags
  nops : hasFlag weak.flags SCRIPT_VERIFY_DISCOURAGE_UPGRADABLE_NOPS = false
  checker : weak.checker = strong.checker
  crypto : weak.crypto = strong.crypto

theorem hasFlag_of_subset {few many flag : UInt32} (hsub : few &&& many = few)
    (hflag : hasFlag few flag) : hasFlag many flag := by
  simp only [hasFlag, decide_eq_true_eq] at hflag ⊢
  intro hmany
  apply hflag
  rw [← hsub, UInt32.and_assoc, hmany, UInt32.and_zero]

variable {weak strong : ScriptEnv}

section
variable (hle : weak.Weaker strong)
include hle
variable {flag : UInt32}

theorem ScriptEnv.Weaker.hasFlag (hflag : ImageCoin.hasFlag weak.flags flag) :
    ImageCoin.hasFlag strong.flags flag :=
  hasFlag_of_subset hle.flags hflag

omit hle in
theorem succLE_failIf {lax strict : Bool} (hflags : lax → strict) :
    SuccLE (failIf lax e) (failIf strict e) := by
  unfold failIf
  by_cases hstrict : strict
  · rw [if_pos hstrict]
    exact .throw _ e
  · rw [if_neg hstrict, if_neg fun hlax => hstrict (hflags hlax)]
    exact .refl _

theorem succLE_flagCheck {bad : Bool} : SuccLE (failIf (ImageCoin.hasFlag weak.flags flag && bad) e)
    (failIf (ImageCoin.hasFlag strong.flags flag && bad) e) := by
  refine succLE_failIf (fun hlax => ?_)
  simp only [Bool.and_eq_true] at hlax ⊢
  exact ⟨hle.hasFlag hlax.1, hlax.2⟩

theorem succLE_readNum {nMaxNumSize : ℕ} :
    SuccLE (readNum weak vch nMaxNumSize) (readNum strong vch nMaxNumSize) := by
  unfold readNum
  cases hnum : scriptNum vch strong.fRequireMinimal nMaxNumSize with
  | none => exact .throw _ _
  | some n =>
    have hminimal : weak.fRequireMinimal → strong.fRequireMinimal := hle.hasFlag
    rw [scriptNum_of_minimal hminimal hnum]
    exact .refl _

theorem succLE_checkSignatureEncoding :
    SuccLE (checkSignatureEncoding weak vchSig) (checkSignatureEncoding strong vchSig) := by
  unfold checkSignatureEncoding
  rw [hle.crypto]
  refine .ite (fun _ => .refl _) fun _ => ?_
  refine .bind (succLE_flagCheck hle) fun _ => ?_
  refine .bind (succLE_flagCheck hle) fun _ => ?_
  exact succLE_flagCheck hle

theorem succLE_checkPubKeyEncoding :
    SuccLE (checkPubKeyEncoding weak vchPubKey) (checkPubKeyEncoding strong vchPubKey) :=
  succLE_flagCheck hle

theorem evalUpgradableNop_weak : evalUpgradableNop weak = pure () := by
  simp [evalUpgradableNop, failIf, hle.nops]

theorem succLE_evalUpgradableNop : SuccLE (evalUpgradableNop weak) (evalUpgradableNop strong) :=
  succLE_failIf hle.hasFlag

variable (check : ℤ → Bool)

theorem succLE_evalLockOperand :
    SuccLE (evalLockOperand weak check) (evalLockOperand strong check) := by
  refine .bind (.refl _) fun s => ?_
  cases s.stack with
  | nil => exact .refl _
  | cons vch rest =>
    exact .bind (succLE_readNum hle) fun n => .refl _

omit hle in
theorem keepsState_readNum {n : ℕ} : KeepsState (readNum env vch n) := by
  unfold readNum
  split
  · exact .pure _
  · exact .throw _

omit hle in
theorem keepsState_failIf {bad : Bool} : KeepsState (failIf bad e) := by
  unfold failIf
  split_ifs
  · exact .throw _
  · exact .pure _

omit hle in
theorem keepsState_evalLockOperand {check : ℤ → Bool} : KeepsState (evalLockOperand env check) := by
  refine KeepsState.get.bind fun s => ?_
  cases s.stack with
  | nil => exact .throw _
  | cons vch rest =>
    refine keepsState_readNum.bind fun n => ?_
    exact keepsState_failIf.bind fun _ => keepsState_failIf

theorem succLE_flaggedLock : SuccLE (if hasFlag weak.flags flag then evalLockOperand weak check
      else evalUpgradableNop weak)
    (if hasFlag strong.flags flag then evalLockOperand strong check
      else evalUpgradableNop strong) := by
  by_cases hweak : hasFlag weak.flags flag
  · rw [if_pos hweak, if_pos (hle.hasFlag hweak)]
    exact succLE_evalLockOperand hle check
  · rw [if_neg hweak, evalUpgradableNop_weak hle]
    split_ifs
    · exact .pure_of_keepsState keepsState_evalLockOperand
    · rw [← evalUpgradableNop_weak hle]
      exact succLE_evalUpgradableNop hle

theorem succLE_evalCheckLockTimeVerify :
    SuccLE (evalCheckLockTimeVerify weak) (evalCheckLockTimeVerify strong) := by
  unfold evalCheckLockTimeVerify
  rw [hle.checker]
  exact succLE_flaggedLock hle _

theorem succLE_evalCheckSequenceVerify :
    SuccLE (evalCheckSequenceVerify weak) (evalCheckSequenceVerify strong) := by
  unfold evalCheckSequenceVerify
  rw [hle.checker]
  exact succLE_flaggedLock hle _

variable (opcode : UInt8)

theorem succLE_evalPickRoll : SuccLE (evalPickRoll weak opcode) (evalPickRoll strong opcode) := by
  refine .bind (.refl _) fun s => ?_
  split
  · exact .bind (succLE_readNum hle) fun n => .refl _
  · exact .refl _

theorem succLE_evalUnary {f : ℤ → ℤ} : SuccLE (evalUnary weak f) (evalUnary strong f) := by
  refine .bind (.refl _) fun s => ?_
  split
  · exact .bind (succLE_readNum hle) fun n => .refl _
  · exact .refl _

theorem succLE_evalBinary {f : ℤ → ℤ → ℤ} :
    SuccLE (evalBinary weak opcode f) (evalBinary strong opcode f) := by
  refine .bind (.refl _) fun s => ?_
  split
  · refine .bind (succLE_readNum hle) fun bn1 => ?_
    exact .bind (succLE_readNum hle) fun bn2 => .refl _
  · exact .refl _

theorem succLE_evalWithin : SuccLE (evalWithin weak) (evalWithin strong) := by
  refine .bind (.refl _) fun s => ?_
  split
  · refine .bind (succLE_readNum hle) fun bn1 => ?_
    refine .bind (succLE_readNum hle) fun bn2 => ?_
    exact .bind (succLE_readNum hle) fun bn3 => .refl _
  · exact .refl _

theorem succLE_callCheckSig : SuccLE (callCheckSig weak vchSig vchPubKey scriptCode)
    (callCheckSig strong vchSig vchPubKey scriptCode) := by
  unfold callCheckSig
  rw [hle.checker]
  exact .refl _

theorem succLE_evalCheckSig : SuccLE (evalCheckSig weak opcode) (evalCheckSig strong opcode) := by
  refine .bind (.refl _) fun s => ?_
  split
  · refine .bind (succLE_checkSignatureEncoding hle) fun _ => ?_
    refine .bind (succLE_checkPubKeyEncoding hle) fun _ => ?_
    exact .bind (succLE_callCheckSig hle) fun _ => .refl _
  · exact .refl _

theorem succLE_multiSigLoop {keys : List Bytes} :
    ∀ sigs, SuccLE (multiSigLoop weak scriptCode keys sigs)
      (multiSigLoop strong scriptCode keys sigs) := by
  induction keys with
  | nil =>
    intro sigs
    cases sigs <;> exact .refl _
  | cons key keys ih =>
    intro sigs
    cases sigs with
    | nil => exact .refl _
    | cons sig sigs =>
      refine .bind (succLE_checkSignatureEncoding hle) fun _ => ?_
      refine .bind (succLE_checkPubKeyEncoding hle) fun _ => ?_
      refine .bind (succLE_callCheckSig hle) fun fOk => ?_
      exact .ite (fun _ => .refl _) fun _ => ih _

theorem succLE_readCount {limit : ℕ} :
    SuccLE (readCount weak vch limit e) (readCount strong vch limit e) :=
  SuccLE.bind (succLE_readNum hle) fun _ => .refl _

theorem succLE_evalMultiSigKeys {nKeysCount : ℕ} {below : List Bytes} :
    SuccLE (evalMultiSigKeys weak opcode nKeysCount below)
      (evalMultiSigKeys strong opcode nKeysCount below) := by
  refine .bind (.refl _) fun s => ?_
  split
  · exact .refl _
  · refine .bind (succLE_readCount hle) fun nSigsCount => ?_
    refine .bind (.refl _) fun _ => ?_
    refine .bind (succLE_multiSigLoop hle _) fun fSuccess => ?_
    split
    · exact .refl _
    · exact .bind (succLE_flagCheck hle) fun _ => .refl _

theorem succLE_evalCheckMultiSig :
    SuccLE (evalCheckMultiSig weak opcode) (evalCheckMultiSig strong opcode) := by
  refine .bind (.refl _) fun s => ?_
  split
  · exact .refl _
  · refine .bind (succLE_readCount hle) fun nKeysCount => ?_
    refine .bind (.refl _) fun _ => ?_
    refine .bind (.refl _) fun _ => ?_
    refine .bind (.refl _) fun _ => ?_
    exact succLE_evalMultiSigKeys hle _

theorem succLE_execCase {exec : Bool} {selected : SwitchCase} :
    SuccLE (execCase weak opcode exec selected) (execCase strong opcode exec selected) := by
  cases selected with
  | checkLockTimeVerify => exact succLE_evalCheckLockTimeVerify hle
  | checkSequenceVerify => exact succLE_evalCheckSequenceVerify hle
  | upgradableNop => exact succLE_evalUpgradableNop hle
  | pickRoll => exact succLE_evalPickRoll hle opcode
  | unary f => exact succLE_evalUnary hle
  | binary f => exact succLE_evalBinary hle opcode
  | within => exact succLE_evalWithin hle
  | hash f =>
    simp only [execCase, hle.crypto]
    exact .refl _
  | checkSig => exact succLE_evalCheckSig hle opcode
  | checkMultiSig => exact succLE_evalCheckMultiSig hle opcode
  -- The other cases do not read the environment.
  | pushNumber | nop | ifNotIf | «else» | endIf | verify | «return» |
    toAltStack | fromAltStack | stackOnly f | equal | codeSeparator | bad =>
      exact .refl _

theorem succLE_evalInstruction {exec : Bool} {opcode : UInt8} {vchPushValue : Bytes} :
    SuccLE (evalInstruction weak exec opcode vchPushValue)
      (evalInstruction strong exec opcode vchPushValue) := by
  refine .bind (.refl _) fun _ => ?_
  refine .bind (.refl _) fun _ => ?_
  refine .bind (.refl _) fun _ => ?_
  refine .bind ?_ fun _ => .refl _
  refine .ite (fun _ => ?_) fun _ => ?_
  · exact .bind (succLE_flagCheck hle) fun _ => .refl _
  · exact .ite (fun _ => succLE_execCase hle _) fun _ => .refl _

theorem succLE_evalStep : SuccLE (evalStep weak) (evalStep strong) := by
  refine .bind (.refl _) fun s => ?_
  split
  · exact .refl _
  · exact .bind (.refl _) fun _ => succLE_evalInstruction hle

theorem succLE_evalLoop {fuel : ℕ} : SuccLE (evalLoop weak fuel) (evalLoop strong fuel) := by
  induction fuel with
  | zero => exact .refl _
  | succ fuel ih =>
    refine .bind (.refl _) fun s => ?_
    refine .ite (fun _ => .refl _) fun _ => ?_
    exact .bind (succLE_evalStep hle) fun _ => ih

theorem succLE_evalBody : SuccLE (evalBody weak script) (evalBody strong script) := by
  refine .bind (.refl _) fun _ => ?_
  exact .bind (succLE_evalLoop hle) fun _ => .refl _

theorem evalStack_weaker {result : List Bytes} (hrun : evalStack strong stack script = .ok result) :
    evalStack weak stack script = .ok result := by
  unfold evalStack evalScript at hrun ⊢
  cases hstrong : evalBody strong script (EvalState.start stack script) with
  | error e s =>
    rw [hstrong] at hrun
    cases hrun
  | ok u s =>
    rw [succLE_evalBody hle _ u s hstrong]
    rw [hstrong] at hrun
    exact hrun

end

theorem except_bind_eq {α β ε : Type} {x : Except ε α} {a : α}
    (hx : x = .ok a) {k : α → Except ε β} : (x >>= k) = k a := by
  rw [hx]
  rfl

/-- `VerifyScript` asserts this. -/
def CleanStackNeedsP2SH (flags : UInt32) : Prop :=
  hasFlag flags SCRIPT_VERIFY_CLEANSTACK → hasFlag flags SCRIPT_VERIFY_P2SH

theorem checkCleanStack_ok {flags : UInt32} :
    checkCleanStack flags stack = .ok () ↔ (hasFlag flags SCRIPT_VERIFY_CLEANSTACK →
        hasFlag flags SCRIPT_VERIFY_P2SH ∧ stack.length = 1) := by
  unfold checkCleanStack
  split_ifs with hclean hp2sh hlength
  · simp_all
  · simp_all
  · simp_all
  · simp_all

theorem verifyScriptHash_weaker (hle : weak.Weaker strong) {scriptSig : CScript}
    (hrun : verifyScriptHash strong scriptSig stackCopy = .ok final) :
    verifyScriptHash weak scriptSig stackCopy = .ok final := by
  unfold verifyScriptHash at hrun ⊢
  split_ifs at hrun ⊢ with hpush
  cases stackCopy with
  | nil => cases hrun
  | cons pubKeySerialized rest =>
    obtain ⟨stack, heval, hrest⟩ := ok_of_bind_ok hrun
    exact (except_bind_eq (evalStack_weaker hle heval)).trans hrest

variable {scriptSig scriptPubKey : CScript}

theorem finalStack_weaker (hle : weak.Weaker strong) (hp2sh : hasFlag weak.flags SCRIPT_VERIFY_P2SH)
    (hrun : finalStack strong scriptSig scriptPubKey stackCopy stack = .ok final) :
    finalStack weak scriptSig scriptPubKey stackCopy stack = .ok final := by
  have hstrong : hasFlag strong.flags SCRIPT_VERIFY_P2SH :=
    hle.hasFlag hp2sh
  simp only [finalStack, hp2sh, hstrong] at hrun ⊢
  split_ifs at hrun ⊢
  · exact verifyScriptHash_weaker hle hrun
  · exact hrun

theorem verifyScript_weaker (hle : weak.Weaker strong) (hclean : CleanStackNeedsP2SH weak.flags)
    (hrun : verifyScript strong scriptSig scriptPubKey = .ok ()) :
    verifyScript weak scriptSig scriptPubKey = .ok () := by
  unfold verifyScript at hrun ⊢
  split_ifs at hrun with hstrongPush
  have hweakPush : ¬ (hasFlag weak.flags SCRIPT_VERIFY_SIGPUSHONLY &&
      !isPushOnly scriptSig) := by
    simp only [Bool.and_eq_true, not_and] at hstrongPush ⊢
    exact fun hflag => hstrongPush (hle.hasFlag hflag)
  obtain ⟨stackCopy, hsig, hrun⟩ := ok_of_bind_ok hrun
  obtain ⟨stack, hpubkey, hrun⟩ := ok_of_bind_ok hrun
  obtain ⟨u, htop, hrun⟩ := ok_of_bind_ok hrun
  obtain ⟨final, hfinal, hstack⟩ := ok_of_bind_ok hrun
  rw [if_neg hweakPush, except_bind_eq (evalStack_weaker hle hsig),
    except_bind_eq (evalStack_weaker hle hpubkey), except_bind_eq htop]
  by_cases hp2sh : hasFlag weak.flags SCRIPT_VERIFY_P2SH
  · rw [except_bind_eq (finalStack_weaker hle hp2sh hfinal)]
    rw [checkCleanStack_ok] at hstack ⊢
    exact fun hflag => ⟨hp2sh, (hstack (hle.hasFlag hflag)).2⟩
  · -- Without P2SH there is no CLEANSTACK either, so nothing is left to check.
    have hskip : finalStack weak scriptSig scriptPubKey stackCopy stack = .ok stack := by
      simp [finalStack, hp2sh]
    rw [except_bind_eq hskip, checkCleanStack_ok]
    exact fun hflag => absurd (hclean hflag) hp2sh

/-- Soft-fork monotonicity: for flag sets `few` within `many`, where `few`
does not discourage upgradable opcodes and has CLEANSTACK only with P2SH, a
pair of scripts that verifies under `many` verifies under `few`. -/
theorem verifyScript_softFork (checker : BaseSignatureChecker) (crypto : Crypto)
    (scriptSig scriptPubKey : CScript) (few many : UInt32) (hsub : few &&& many = few)
    (hnops : hasFlag few SCRIPT_VERIFY_DISCOURAGE_UPGRADABLE_NOPS = false)
    (hfew : CleanStackNeedsP2SH few)
    (hrun : verifyScript ⟨many, checker, crypto⟩ scriptSig scriptPubKey = .ok ()) :
    verifyScript ⟨few, checker, crypto⟩ scriptSig scriptPubKey = .ok () := by
  have hle : ScriptEnv.Weaker ⟨few, checker, crypto⟩
      ⟨many, checker, crypto⟩ := ⟨hsub, hnops, rfl, rfl⟩
  exact verifyScript_weaker hle hfew hrun

def lockOnlyChecker : BaseSignatureChecker where
  checkSig _ _ _ := false
  checkLockTime _ := true
  checkSequence _ := true

def plainCrypto : Crypto where
  ripemd160 := id
  sha1 := id
  sha256 := id
  checkLowS _ := true

theorem verifyScript_softFork_lockTime :
    verifyScript ⟨SCRIPT_VERIFY_P2SH ||| SCRIPT_VERIFY_CHECKLOCKTIMEVERIFY,
        lockOnlyChecker, plainCrypto⟩ [OP_1] [OP_CHECKLOCKTIMEVERIFY] =
      .ok () ∧
      verifyScript ⟨SCRIPT_VERIFY_P2SH, lockOnlyChecker, plainCrypto⟩ [OP_1]
        [OP_CHECKLOCKTIMEVERIFY] = .ok () := by
  have hstrong : verifyScript ⟨SCRIPT_VERIFY_P2SH ||| SCRIPT_VERIFY_CHECKLOCKTIMEVERIFY,
        lockOnlyChecker, plainCrypto⟩ [OP_1] [OP_CHECKLOCKTIMEVERIFY] =
      .ok () := by decide
  exact ⟨hstrong, verifyScript_softFork lockOnlyChecker plainCrypto [OP_1]
    [OP_CHECKLOCKTIMEVERIFY] SCRIPT_VERIFY_P2SH
    (SCRIPT_VERIFY_P2SH ||| SCRIPT_VERIFY_CHECKLOCKTIMEVERIFY) (by decide)
    (by decide) (fun _ => by decide) hstrong⟩

end ImageCoin
