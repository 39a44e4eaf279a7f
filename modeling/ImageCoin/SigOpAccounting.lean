import ImageCoin.Interpreter

/-!
# Signature-operation accounting

The static count of `GetSigOpCount` against the signature checks that an evaluation makes.
-/

namespace ImageCoin

open StateExcept Nat UInt32
variable {env : ScriptEnv} {opcode : UInt8} {vch : Bytes}

def sigOpSum (fAccurate : Bool) : ℕ → UInt8 → Bytes → ℕ
  | 0, _, _ => 0
  | fuel + 1, lastOpcode, pc =>
    if pc = [] then 0
    else
      match getOp pc with
      | .fail _ => 0
      | .ok opcode _ pc =>
        sigOpWeight fAccurate lastOpcode opcode + sigOpSum fAccurate fuel opcode pc

theorem decodeOpN_le (hlast : opcode ≤ OP_16) : decodeOpN opcode ≤ 16 := by
  unfold decodeOpN
  split_ifs
  · omega
  · have hle : opcode.toNat ≤ 0x60 := hlast
    have hone : OP_1.toNat = 0x51 := rfl
    omega

variable (fAccurate : Bool)

theorem sigOpWeight_le {lastOpcode opcode : UInt8} :
    sigOpWeight fAccurate lastOpcode opcode ≤ sigOpWeight false lastOpcode opcode := by
  unfold sigOpWeight
  split_ifs with hsig hmulti hguess hfalse
  · exact le_rfl
  · exact absurd hfalse.1 (by decide)
  · have := decodeOpN_le hguess.2.2
    simp only [maxPubkeysPerMultisig]
    omega
  all_goals simp_all

theorem sigOpWeight_le_max (lastOpcode opcode : UInt8) :
    sigOpWeight fAccurate lastOpcode opcode ≤ maxPubkeysPerMultisig := by
  refine (sigOpWeight_le fAccurate).trans ?_
  unfold sigOpWeight
  simp only [maxPubkeysPerMultisig]
  split_ifs <;> simp_all

variable (fuel : ℕ)

theorem getSigOpCountLoop_toNat : ∀ (lastOpcode : UInt8) (pc : Bytes) (n : UInt32),
    (getSigOpCountLoop fAccurate fuel lastOpcode pc n).toNat =
      (n.toNat + sigOpSum fAccurate fuel lastOpcode pc) % 2 ^ 32 := by
  induction fuel with
  | zero =>
    intro lastOpcode pc n
    have hn := n.toNat_lt
    simp only [getSigOpCountLoop, sigOpSum]
    omega
  | succ fuel ih =>
    intro lastOpcode pc n
    have hn := n.toNat_lt
    simp only [getSigOpCountLoop, sigOpSum]
    split_ifs
    · omega
    · cases getOp pc with
      | fail next =>
        simp only
        omega
      | ok opcode vch next =>
        have hweight := sigOpWeight_le_max fAccurate lastOpcode opcode
        have hexact : (ofNat (sigOpWeight fAccurate lastOpcode opcode)).toNat =
              sigOpWeight fAccurate lastOpcode opcode := by
          refine toNat_ofNat_of_lt ?_
          exact lt_of_le_of_lt hweight (by decide)
        simp only [ih, UInt32.toNat_add]
        omega

theorem getSigOpCount_toNat {script : CScript} : (getSigOpCount fAccurate script).toNat =
    sigOpSum fAccurate script.length OP_INVALIDOPCODE script % 2 ^ 32 := by
  simp [getSigOpCount, getSigOpCountLoop_toNat]

theorem sigOpSum_le : ∀ (lastOpcode : UInt8) (pc : Bytes),
    sigOpSum true fuel lastOpcode pc ≤ sigOpSum false fuel lastOpcode pc := by
  induction fuel with
  | zero => exact fun _ _ => le_rfl
  | succ fuel ih =>
    intro lastOpcode pc
    simp only [sigOpSum]
    split_ifs
    · exact le_rfl
    · split
      · exact le_rfl
      · exact Nat.add_le_add (sigOpWeight_le true) (ih _ _)

theorem sigOpSum_le_max : ∀ (lastOpcode : UInt8) (pc : Bytes),
    sigOpSum fAccurate fuel lastOpcode pc ≤ 20 * fuel := by
  induction fuel with
  | zero => exact fun _ _ => le_rfl
  | succ fuel ih =>
    intro lastOpcode pc
    simp only [sigOpSum]
    split_ifs
    · omega
    · split
      · omega
      · next opcode vch next hop =>
        have hweight := sigOpWeight_le_max fAccurate lastOpcode opcode
        have hrest := ih opcode next
        simp only [maxPubkeysPerMultisig] at hweight
        omega

/-! ## Calls made by the opcodes -/

variable {α : Type}

/-- The computation stays at its place in the script and makes at most `calls`
signature checks, also when it fails. -/
def Calls (calls : ℕ) (x : EvalM α) : Prop :=
  ∀ made pc, Triple (fun s => s.nCheckSig ≤ made ∧ s.pc = pc) x
    (fun _ s => s.nCheckSig ≤ made + calls ∧ s.pc = pc)
    fun s => s.nCheckSig ≤ made + calls

theorem Calls.pure (a : α) : Calls 0 (pure a : EvalM α) :=
  fun _ _ => .pure fun _ hs => hs

theorem Calls.throw (e : ScriptError) : Calls 0 (throw e : EvalM α) :=
  fun _ _ => .throw fun _ hs => hs.1

theorem Calls.modify {f : EvalState → EvalState}
    (hf : ∀ s, (f s).nCheckSig = s.nCheckSig ∧ (f s).pc = s.pc) :
    Calls 0 (modify f : EvalM Unit) := by
  intro made pc
  refine .modify fun s hs => ?_
  rw [(hf s).1, (hf s).2]
  exact hs

variable {α β : Type} {n m nKeysCount : ℕ} {x : EvalM α} {k : α → EvalM β} {check : ℤ → Bool}
  {vchSig : Bytes} {scriptCode : CScript} {below : List Bytes}

theorem Calls.bind (hx : Calls n x) (hk : ∀ a, Calls m (k a)) : Calls (n + m) (x >>= k) := by
  intro made pc
  have hfirst : Triple (fun s => s.nCheckSig ≤ made ∧ s.pc = pc) x
    (fun _ s => s.nCheckSig ≤ made + n ∧ s.pc = pc) fun s => s.nCheckSig ≤ made + (n + m) :=
    (hx made pc).conseq (fun _ hs => hs) (fun _ _ hs => hs) fun s hs => by omega
  refine hfirst.bind fun a => ?_
  refine (hk a (made + n) pc).conseq (fun _ hs => hs) (fun _ s hs => ?_) fun s hs => ?_
  · exact ⟨by omega, hs.2⟩
  · omega

variable {n : ℕ}

theorem Calls.seq (hx : Calls 0 x) (hk : ∀ a, Calls n (k a)) : Calls n (x >>= k) := by
  have hboth := hx.bind hk
  rwa [zero_add] at hboth

theorem Calls.seq_silent (hx : Calls n x) (hk : ∀ a, Calls 0 (k a)) : Calls n (x >>= k) :=
  hx.bind hk

theorem Calls.get_bind {k : EvalState → EvalM β}
    (hk : ∀ s, Calls n (k s)) : Calls n (MonadState.get >>= k) :=
  fun made pc s hs => hk s made pc s hs

theorem Calls.mono (hx : Calls n x) (hle : n ≤ m) : Calls m x := by
  intro made pc
  refine (hx made pc).conseq (fun _ hs => hs) (fun _ s hs => ?_) fun s hs => ?_
  · exact ⟨by omega, hs.2⟩
  · omega

theorem Calls.ite {p : Prop} [Decidable p] {y : EvalM α} (hthen : Calls n x) (helse : Calls n y) :
    Calls n (if p then x else y) := by
  split_ifs
  · exact hthen
  · exact helse

variable {e : ScriptError}

theorem calls_failIf {bad : Bool} : Calls 0 (failIf bad e) := by
  unfold failIf
  split_ifs
  · exact .throw e
  · exact .pure ()

theorem calls_setStack {stack : List Bytes} : Calls 0 (setStack stack) :=
  Calls.modify fun _ => ⟨rfl, rfl⟩

theorem calls_stackOp {f : List Bytes → Option (List Bytes)} : Calls 0 (stackOp f) := by
  refine .get_bind fun s => ?_
  split
  · exact calls_setStack
  · exact .throw _

theorem calls_readNum : Calls 0 (readNum env vch n) := by
  unfold readNum
  split
  · exact .pure _
  · exact .throw _

theorem calls_verifyTop {isVerify fSuccess : Bool} {rest : List Bytes} : Calls 0 (verifyTop
  isVerify fSuccess rest e) := by
  unfold verifyTop
  split_ifs
  · exact calls_setStack
  · exact .throw e
  · exact .pure ()

theorem calls_evalLockOperand : Calls 0 (evalLockOperand env check) := by
  refine .get_bind fun s => ?_
  split
  · exact .throw _
  · refine calls_readNum.seq fun n => ?_
    exact calls_failIf.seq fun _ => calls_failIf

theorem calls_flaggedLock {flag : UInt32} :
    Calls 0 (if hasFlag env.flags flag then evalLockOperand env check
      else evalUpgradableNop env) := by
  split_ifs
  · exact calls_evalLockOperand
  · exact calls_failIf

theorem calls_evalIfNotIf {fExec : Bool} : Calls 0 (evalIfNotIf opcode fExec) := by
  cases fExec with
  | true =>
    refine .get_bind fun s => ?_
    split
    · exact .throw _
    · exact .modify fun _ => ⟨rfl, rfl⟩
  | false => exact .modify fun _ => ⟨rfl, rfl⟩

theorem calls_evalPickRoll : Calls 0 (evalPickRoll env opcode) := by
  refine .get_bind fun s => ?_
  split
  · refine calls_readNum.seq fun n => ?_
    refine calls_setStack.seq fun _ => ?_
    refine calls_failIf.seq fun _ => ?_
    split
    · exact .throw _
    · exact calls_setStack
  · exact .throw _

theorem calls_evalEqual : Calls 0 (evalEqual opcode) := by
  refine .get_bind fun s => ?_
  split
  · exact calls_setStack.seq fun _ => calls_verifyTop
  · exact .throw _

theorem calls_evalUnary {f : ℤ → ℤ} : Calls 0 (evalUnary env f) := by
  refine .get_bind fun s => ?_
  split
  · exact calls_readNum.seq fun _ => calls_setStack
  · exact .throw _

theorem calls_evalBinary {f : ℤ → ℤ → ℤ} : Calls 0 (evalBinary env opcode f) := by
  refine .get_bind fun s => ?_
  split
  · refine calls_readNum.seq fun bn1 => ?_
    refine calls_readNum.seq fun bn2 => ?_
    exact calls_setStack.seq fun _ => calls_verifyTop
  · exact .throw _

theorem calls_evalWithin : Calls 0 (evalWithin env) := by
  refine .get_bind fun s => ?_
  split
  · refine calls_readNum.seq fun bn1 => ?_
    refine calls_readNum.seq fun bn2 => ?_
    exact calls_readNum.seq fun bn3 => calls_setStack
  · exact .throw _

theorem calls_evalElse : Calls 0 evalElse := by
  refine .get_bind fun s => ?_
  split
  · exact .throw _
  · exact .modify fun _ => ⟨rfl, rfl⟩

theorem calls_evalEndIf : Calls 0 evalEndIf := by
  refine .get_bind fun s => ?_
  split
  · exact .throw _
  · exact .modify fun _ => ⟨rfl, rfl⟩

theorem calls_evalToAltStack : Calls 0 evalToAltStack := by
  refine .get_bind fun s => ?_
  split
  · exact .throw _
  · exact .modify fun _ => ⟨rfl, rfl⟩

theorem calls_evalFromAltStack : Calls 0 evalFromAltStack := by
  refine .get_bind fun s => ?_
  split
  · exact .throw _
  · exact .modify fun _ => ⟨rfl, rfl⟩

theorem calls_evalVerify : Calls 0 evalVerify := by
  refine .get_bind fun s => ?_
  split
  · exact .throw _
  · exact .ite calls_setStack (.throw _)

theorem calls_checkSignatureEncoding : Calls 0 (checkSignatureEncoding env vchSig) := by
  unfold checkSignatureEncoding
  split_ifs
  · exact .pure ()
  · refine calls_failIf.seq fun _ => ?_
    exact calls_failIf.seq fun _ => calls_failIf

theorem calls_callCheckSig {vchPubKey : Bytes} :
    Calls 1 (callCheckSig env vchSig vchPubKey scriptCode) := by
  intro made pc
  refine .bind (.modify ?_) fun _ => .pure fun _ hs => hs
  intro s hs
  exact ⟨Nat.add_le_add_right hs.1 1, hs.2⟩

theorem calls_evalCheckSig : Calls 1 (evalCheckSig env opcode) := by
  refine .get_bind fun s => ?_
  split
  · refine calls_checkSignatureEncoding.seq fun _ => ?_
    refine calls_failIf.seq fun _ => ?_
    refine calls_callCheckSig.seq_silent fun _ => ?_
    exact calls_setStack.seq fun _ => calls_verifyTop
  · exact (Calls.throw _).mono (by omega)

theorem calls_multiSigLoop {keys : List Bytes} :
    ∀ sigs, Calls keys.length (multiSigLoop env scriptCode keys sigs) := by
  induction keys with
  | nil =>
    intro sigs
    cases sigs <;> exact .pure _
  | cons key keys ih =>
    intro sigs
    cases sigs with
    | nil => exact (Calls.pure _).mono (by omega)
    | cons sig sigs =>
      rw [List.length_cons, add_comm]
      refine calls_checkSignatureEncoding.seq fun _ => ?_
      refine calls_failIf.seq fun _ => ?_
      refine calls_callCheckSig.bind fun fOk => ?_
      exact .ite ((Calls.pure _).mono (zero_le _)) (ih _)

theorem calls_readCount {limit : ℕ} : Calls 0 (readCount env vch limit e) := by
  refine calls_readNum.seq fun n => ?_
  exact calls_failIf.seq fun _ => .pure _

theorem calls_evalMultiSigKeys :
    Calls nKeysCount (evalMultiSigKeys env opcode nKeysCount below) := by
  refine .get_bind fun s => ?_
  split
  · exact (Calls.throw _).mono (by omega)
  · refine calls_readCount.seq fun nSigsCount => ?_
    refine calls_failIf.seq fun _ => ?_
    refine .seq_silent ((calls_multiSigLoop _).mono (List.length_take_le _ _)) fun fSuccess => ?_
    split
    · exact .throw _
    · refine calls_failIf.seq fun _ => ?_
      exact calls_setStack.seq fun _ => calls_verifyTop

section
variable {pre err : EvalState → Prop} (herr : ∀ s, pre s → err s)
include herr

theorem triple_failIf (bad : Bool) (e : ScriptError) :
    Triple pre (failIf bad e) (fun _ s => bad = false ∧ pre s) err := by
  cases bad with
  | true => exact .throw herr
  | false => exact .pure fun _ hs => ⟨rfl, hs⟩

theorem triple_readNum {nMaxNumSize : ℕ} : Triple pre (readNum env vch nMaxNumSize)
    (fun n s => scriptNum vch env.fRequireMinimal nMaxNumSize = some n ∧ pre s) err := by
  unfold readNum
  cases scriptNum vch env.fRequireMinimal nMaxNumSize with
  | none => exact .throw herr
  | some n => exact .pure fun _ hs => ⟨rfl, hs⟩

theorem triple_readCount {limit : ℕ} {e : ScriptError} :
    Triple pre (readCount env vch limit e) (fun count s => (count ≤ limit ∧
        scriptNum vch env.fRequireMinimal nDefaultMaxNumSize =
          some (count : ℤ)) ∧ pre s) err := by
  refine (triple_readNum herr).bind fun n => ?_
  refine .of_pure fun hnum => ?_
  refine (triple_failIf herr _ e).bind fun _ => ?_
  refine .of_pure fun hgood => ?_
  have hrange : 0 ≤ n ∧ n ≤ limit := by simpa using hgood
  refine .pure fun s hs => ⟨⟨by omega, ?_⟩, hs⟩
  rw [hnum, Int.toNat_of_nonneg hrange.1]

theorem triple_countOp (hpre : ∀ s n, pre s → pre { s with nOpCount := n }) {opcode : UInt8} :
    Triple pre (countOp opcode) (fun _ => pre) err := by
  unfold countOp
  split_ifs
  · have hcount : Triple pre
        (modify fun s => { s with nOpCount := s.nOpCount + 1 } : EvalM Unit)
        (fun _ => pre) err := Triple.modify fun s hs => hpre s _ hs
    refine hcount.bind fun _ => ?_
    refine .get_bind fun s hs => ?_
    refine (triple_failIf ?_ _ _).conseq (fun _ h => h) ?_ fun _ h => h
    · rintro _ rfl
      exact herr _ hs
    · rintro _ _ ⟨-, rfl⟩
      exact hs
  · exact .pure fun _ hs => hs

end

theorem calls_multiSigRest : Calls nKeysCount (do
    modify fun s => { s with nOpCount := s.nOpCount + nKeysCount }
    failIf ((← get).nOpCount > maxOpsPerScript) .opCount
    evalMultiSigKeys env opcode nKeysCount below) := by
  refine .seq (.modify ?_) fun _ => ?_
  · exact fun _ => ⟨rfl, rfl⟩
  · refine .get_bind fun s => ?_
    exact calls_failIf.seq fun _ => calls_evalMultiSigKeys

variable {stack : List Bytes} {made : ℕ} {pc : Bytes}

theorem triple_evalCheckMultiSig {bound : ℕ}
    (hbound : ∀ vch ∈ stack.head?, ∀ count : ℕ, count ≤ maxPubkeysPerMultisig →
    scriptNum vch env.fRequireMinimal nDefaultMaxNumSize = some (count : ℤ) → count ≤ bound) :
    Triple (fun s => s.stack = stack ∧ s.nCheckSig ≤ made ∧ s.pc = pc)
      (evalCheckMultiSig env opcode)
      (fun _ s => s.nCheckSig ≤ made + bound ∧ s.pc = pc)
      fun s => s.nCheckSig ≤ made + bound := by
  refine .get_bind fun s hs => ?_
  obtain ⟨rfl, hmade⟩ := hs
  cases hstack : s.stack with
  | nil =>
    refine .throw ?_
    rintro _ rfl
    omega
  | cons vchKeysCount below =>
    refine (triple_readCount ?_).bind fun nKeysCount => ?_
    · rintro _ rfl
      omega
    · refine .of_pure fun hcount => ?_
      have hkeys : nKeysCount ≤ bound := by
        refine hbound vchKeysCount ?_ nKeysCount hcount.1 hcount.2
        rw [hstack]
        rfl
      refine .conseq ((calls_multiSigRest.mono hkeys) made pc) ?_ (fun _ _ hs => hs) fun _ hs =>
        hs
      rintro _ rfl
      exact hmade

/-! ## Calls made by one instruction -/

variable {c : SwitchCase}

theorem mem_switchTable (hcase : switchCase opcode = c) (hpush : c ≠ .pushNumber)
    (hbad : c ≠ .bad) : (opcode, c) ∈ switchTable := by
  unfold switchCase at hcase
  split_ifs at hcase
  · exact absurd hcase.symm hpush
  · cases hlookup : switchTable.lookup opcode with
    | none =>
      rw [hlookup] at hcase
      exact absurd hcase.symm hbad
    | some found =>
      rw [hlookup] at hcase
      obtain ⟨before, after, htable, -⟩ := List.lookup_eq_some_iff.mp hlookup
      rw [htable, ← hcase]
      simp

theorem opcode_of_checkSig (hcase : switchCase opcode = .checkSig) :
    opcode = OP_CHECKSIG ∨ opcode = OP_CHECKSIGVERIFY := by
  have hmem := mem_switchTable hcase (by simp) (by simp)
  simpa [switchTable, controlCases] using hmem

theorem opcode_of_checkMultiSig (hcase : switchCase opcode = .checkMultiSig) :
    opcode = OP_CHECKMULTISIG ∨ opcode = OP_CHECKMULTISIGVERIFY := by
  have hmem := mem_switchTable hcase (by simp) (by simp)
  simpa [switchTable, controlCases] using hmem

theorem calls_execCase {exec : Bool} (hsig : c ≠ .checkSig) (hmulti : c ≠ .checkMultiSig) :
    Calls 0 (execCase env opcode exec c) := by
  cases c with
  | pushNumber =>
    unfold execCase
    exact calls_stackOp
  | nop => exact .pure ()
  | checkLockTimeVerify => exact calls_flaggedLock
  | checkSequenceVerify => exact calls_flaggedLock
  | upgradableNop => exact calls_failIf
  | ifNotIf => exact calls_evalIfNotIf
  | «else» => exact calls_evalElse
  | endIf => exact calls_evalEndIf
  | verify => exact calls_evalVerify
  | «return» => exact .throw _
  | toAltStack => exact calls_evalToAltStack
  | fromAltStack => exact calls_evalFromAltStack
  | stackOnly f => exact calls_stackOp
  | pickRoll => exact calls_evalPickRoll
  | equal => exact calls_evalEqual
  | unary f => exact calls_evalUnary
  | binary f => exact calls_evalBinary
  | within => exact calls_evalWithin
  | hash f =>
    unfold execCase
    exact calls_stackOp
  | codeSeparator => exact .modify fun _ => ⟨rfl, rfl⟩
  | checkSig => exact absurd rfl hsig
  | checkMultiSig => exact absurd rfl hmulti
  | bad => exact .throw _

/-- The number that `GetSigOpCount` reads off the last opcode is on top of the stack. -/
def LastPush (lastOpcode : UInt8) (exec : Bool) (stack : List Bytes) : Prop :=
  exec → OP_1 ≤ lastOpcode ∧ lastOpcode ≤ OP_16 →
    stack.head? = some (serializeNum (decodeOpN lastOpcode))

/-- Between two instructions: where the iterator is, what the last instruction
pushed, and the calls made so far. -/
def Between (lastOpcode : UInt8) (made : ℕ) (pc : Bytes) (s : EvalState) : Prop :=
  LastPush lastOpcode (fExec s.vfExec) s.stack ∧ s.nCheckSig ≤ made ∧ s.pc = pc

theorem Calls.triple (hx : Calls n x) (hle : n ≤ m) {pre : EvalState → Prop}
    (hpre : ∀ s, pre s → s.nCheckSig ≤ made ∧ s.pc = pc) :
    Triple pre x (fun _ s => s.nCheckSig ≤ made + m ∧ s.pc = pc)
      fun s => s.nCheckSig ≤ made + m :=
  ((hx.mono hle) made pc).conseq hpre (fun _ _ hs => hs) fun _ hs => hs

variable {lastOpcode opcode : UInt8}

theorem count_le_sigOpWeight (hlast : LastPush lastOpcode true stack)
    (hopcode : opcode = OP_CHECKMULTISIG ∨ opcode = OP_CHECKMULTISIGVERIFY)
    (hvch : vch ∈ stack.head?) {count : ℕ} (hmax : count ≤ maxPubkeysPerMultisig)
    (hnum : scriptNum vch env.fRequireMinimal nDefaultMaxNumSize = some (count : ℤ)) :
    count ≤ sigOpWeight true lastOpcode opcode := by
  have hnot : ¬(opcode = OP_CHECKSIG ∨ opcode = OP_CHECKSIGVERIFY) := by
    rcases hopcode with rfl | rfl <;> decide
  unfold sigOpWeight
  split_ifs with hguess
  · have htop := hlast rfl hguess.2
    rw [Option.mem_def.mp hvch, Option.some_inj] at htop
    rw [htop, scriptNum_serializeNum_small (decodeOpN_le hguess.2.2)] at hnum
    have hcount : ((decodeOpN lastOpcode : ℕ) : ℤ) = count :=
      Option.some_inj.mp hnum
    omega
  · exact hmax

variable {exec : Bool}

theorem triple_execCase (hlast : LastPush lastOpcode true stack) :
    Triple (fun s => s.stack = stack ∧ s.nCheckSig ≤ made ∧ s.pc = pc)
      (execCase env opcode exec (switchCase opcode))
      (fun _ s => s.nCheckSig ≤ made + sigOpWeight true lastOpcode opcode ∧ s.pc = pc)
      fun s => s.nCheckSig ≤ made + sigOpWeight true lastOpcode opcode := by
  by_cases hsig : switchCase opcode = .checkSig
  · have hweight : 1 ≤ sigOpWeight true lastOpcode opcode := by
      rw [sigOpWeight, if_pos (opcode_of_checkSig hsig)]
    rw [hsig]
    exact calls_evalCheckSig.triple hweight fun _ hs => hs.2
  by_cases hmulti : switchCase opcode = .checkMultiSig
  · rw [hmulti]
    exact triple_evalCheckMultiSig (fun vch hvch count hmax hnum =>
      count_le_sigOpWeight hlast (opcode_of_checkMultiSig hmulti) hvch hmax hnum)
  · exact (calls_execCase hsig hmulti).triple (zero_le _) fun _ hs => hs.2

variable (vch : Bytes)

theorem triple_dispatch_calls (hlast : LastPush lastOpcode exec stack) (made : ℕ) (pc : Bytes) :
    Triple (fun s => s.stack = stack ∧ s.nCheckSig ≤ made ∧ s.pc = pc)
      (dispatch env exec opcode vch)
      (fun _ s => s.nCheckSig ≤ made + sigOpWeight true lastOpcode opcode ∧ s.pc = pc)
      fun s => s.nCheckSig ≤ made + sigOpWeight true lastOpcode opcode := by
  unfold dispatch
  split_ifs with hpush hexec
  · have hcalls : Calls 0 (evalPush env opcode vch) :=
      calls_failIf.seq fun _ => calls_stackOp
    exact hcalls.triple (zero_le _) fun _ hs => hs.2
  · cases exec with
    | true => exact triple_execCase hlast
    | false =>
      have hle : opcode ≤ OP_ENDIF := by simp_all
      -- A conditional is not a signature check.
      refine (calls_execCase ?_ ?_).triple (zero_le _) fun _ hs => hs.2
      · intro hcase
        rcases opcode_of_checkSig hcase with rfl | rfl <;>
          exact absurd hle (by decide)
      · intro hcase
        rcases opcode_of_checkMultiSig hcase with rfl | rfl <;>
          exact absurd hle (by decide)
  · exact (Calls.pure ()).triple (zero_le _) fun _ hs => hs.2

theorem triple_dispatch_lastPush {vf : List Bool} (hexec : exec = fExec vf)
    (hnumber : OP_1 ≤ opcode ∧ opcode ≤ OP_16) :
    Triple (fun s => s.vfExec = vf ∧ s.nCheckSig ≤ made ∧ s.pc = pc)
      (dispatch env exec opcode vch)
      (fun _ s => Between opcode made pc s) fun s => s.nCheckSig ≤ made := by
  have hone : 0x51 ≤ opcode.toNat := hnumber.1
  have hsixteen : opcode.toNat ≤ 0x60 := hnumber.2
  have hpush : ¬(opcode ≤ OP_PUSHDATA4) := by
    intro hle
    have hle' : opcode.toNat ≤ 0x4e := hle
    omega
  have hcond : ¬(OP_IF ≤ opcode) := by
    intro hle
    have hle' : 0x63 ≤ opcode.toNat := hle
    omega
  have hcase : switchCase opcode = .pushNumber := if_pos (.inr hnumber)
  have hzero : opcode ≠ OP_0 := by
    rintro rfl
    exact absurd hone (by decide)
  have hvalue : (opcode.toNat : ℤ) - (OP_1.toNat - 1) = decodeOpN opcode := by
    have hbase : OP_1.toNat = 0x51 := rfl
    rw [decodeOpN, if_neg hzero]
    omega
  cases exec with
  | true =>
    have hdispatch : dispatch env true opcode vch = stackOp fun stack =>
          some (serializeNum (decodeOpN opcode) :: stack) := by
      simp [dispatch, hpush, hcase, execCase, hvalue]
    rw [hdispatch]
    intro s hs
    exact ⟨fun _ _ => rfl, hs.2⟩
  | false =>
    have hdispatch : dispatch env false opcode vch = pure () := by
      simp [dispatch, hcond]
    rw [hdispatch]
    refine .pure fun s hs => ⟨fun hexec' => ?_, hs.2⟩
    rw [hs.1, ← hexec] at hexec'
    exact absurd hexec' (by decide)

variable {vf : List Bool}

theorem triple_dispatch (hlast : LastPush lastOpcode (fExec vf) stack) :
    Triple (fun s => s.stack = stack ∧ s.vfExec = vf ∧ s.nCheckSig ≤ made ∧ s.pc = pc)
      (dispatch env (fExec vf) opcode vch)
      (fun _ => Between opcode (made + sigOpWeight true lastOpcode opcode) pc)
      fun s => s.nCheckSig ≤ made + sigOpWeight true lastOpcode opcode := by
  by_cases hnumber : OP_1 ≤ opcode ∧ opcode ≤ OP_16
  · refine (triple_dispatch_lastPush vch rfl hnumber).conseq ?_ (fun _ _ hs => hs) fun _ hs => hs
    rintro s ⟨-, hvf, hmade, hpc⟩
    exact ⟨hvf, by omega, hpc⟩
  · refine (triple_dispatch_calls vch hlast made pc).conseq ?_ ?_ fun _ hs => hs
    · rintro s ⟨hstack, -, hmade⟩
      exact ⟨hstack, hmade⟩
    · exact fun _ s hs => ⟨fun _ hnumber' => absurd hnumber' hnumber, hs⟩

theorem triple_evalInstruction (hlast : LastPush lastOpcode (fExec vf) stack) :
    Triple (fun s => s.stack = stack ∧ s.vfExec = vf ∧ s.nCheckSig ≤ made ∧ s.pc = pc)
      (evalInstruction env (fExec vf) opcode vch)
      (fun _ => Between opcode (made + sigOpWeight true lastOpcode opcode) pc)
      fun s => s.nCheckSig ≤ made + sigOpWeight true lastOpcode opcode := by
  have herr : ∀ s : EvalState, (s.stack = stack ∧ s.vfExec = vf ∧ s.nCheckSig ≤ made ∧ s.pc = pc) →
    s.nCheckSig ≤ made + sigOpWeight true lastOpcode opcode :=
    fun s hs => by omega
  refine (triple_failIf herr _ _).bind fun _ => .of_pure fun _ => ?_
  refine (triple_countOp herr (fun _ _ hs => hs)).bind fun _ => ?_
  refine (triple_failIf herr _ _).bind fun _ => .of_pure fun _ => ?_
  refine (triple_dispatch vch hlast).bind fun _ => ?_
  refine .get_bind fun s hs => ?_
  refine (triple_failIf ?_ _ _).conseq (fun _ hs => hs) ?_ fun _ hs => hs
  · rintro _ rfl
    exact hs.2.1
  · rintro _ _ ⟨-, rfl⟩
    exact hs

/-! ## Calls made by a run -/

theorem triple_evalStep_fail (env : ScriptEnv) (lastOpcode : UInt8)
    {pc next : Bytes} (hop : getOp pc = .fail next) (made : ℕ) :
    Triple (Between lastOpcode made pc) (evalStep env) (fun _ _ => False)
      fun s => s.nCheckSig ≤ made := by
  refine .get_bind fun s hs => ?_
  simp only [hs.2.2, hop]
  refine .throw ?_
  rintro _ rfl
  exact hs.2.1

theorem triple_evalStep {vch pc next : Bytes} (hop : getOp pc = .ok opcode vch next) :
    Triple (Between lastOpcode made pc) (evalStep env)
      (fun _ => Between opcode (made + sigOpWeight true lastOpcode opcode) next)
      fun s => s.nCheckSig ≤ made + sigOpWeight true lastOpcode opcode := by
  refine .get_bind fun s hs => ?_
  obtain ⟨hlast, hmade, hpc⟩ := hs
  simp only [hpc, hop]
  refine .bind (.modify ?_) fun _ =>
    triple_evalInstruction vch hlast
  rintro _ rfl
  exact ⟨rfl, rfl, hmade, rfl⟩

theorem triple_evalLoop (env : ScriptEnv) (fuel : ℕ) :
    ∀ (lastOpcode : UInt8) (made : ℕ) (pc : Bytes),
      Triple (Between lastOpcode made pc) (evalLoop env fuel)
        (fun _ s => s.nCheckSig ≤ made + sigOpSum true fuel lastOpcode pc)
        fun s => s.nCheckSig ≤ made + sigOpSum true fuel lastOpcode pc := by
  -- One instruction of the run is one instruction of the scan.
  induction fuel with
  | zero => exact fun _ _ _ => .pure fun _ hs => hs.2.1
  | succ fuel ih =>
    intro lastOpcode made pc
    refine .get_bind fun s hs => ?_
    rw [sigOpSum, hs.2.2]
    split_ifs with hend
    · refine .pure ?_
      rintro _ rfl
      exact hs.2.1
    cases hop : getOp pc with
    | fail rest =>
      refine .bind ((triple_evalStep_fail env lastOpcode hop
        made).conseq ?_ (fun _ _ hs => hs) fun _ hs => hs) fun _ _ hfalse => hfalse.elim
      rintro _ rfl
      exact hs
    | ok opcode vch next =>
      have hrest := ih opcode (made + sigOpWeight true lastOpcode opcode)
        next
      simp only [add_assoc] at hrest
      refine .bind ((triple_evalStep hop).conseq ?_
        (fun _ _ hs => hs) fun s hs => ?_) fun _ => hrest
      · rintro _ rfl
        exact hs
      · simp only
        omega

def checkSigCalls (env : ScriptEnv) (stack : List Bytes) (script : CScript) : ℕ :=
  match evalScript env stack script with
  | .ok _ s => s.nCheckSig
  | .error _ s => s.nCheckSig

theorem triple_evalBody (env : ScriptEnv) (stack : List Bytes) (script : CScript) :
    Triple (· = EvalState.start stack script) (evalBody env script)
      (fun _ s => s.nCheckSig ≤ (getSigOpCount true script).toNat)
      fun s => s.nCheckSig ≤ (getSigOpCount true script).toNat := by
  refine (triple_failIf ?_ _ _).bind fun _ => .of_pure fun hsize => ?_
  · rintro _ rfl
    exact zero_le _
  have hlength : script.length ≤ 10000 := by
    simpa [maxScriptSize] using hsize
  have hsum := sigOpSum_le_max true script.length OP_INVALIDOPCODE script
  have hexact : (getSigOpCount true script).toNat =
      sigOpSum true script.length OP_INVALIDOPCODE script := by
    rw [getSigOpCount_toNat]
    omega
  have hloop := triple_evalLoop env script.length OP_INVALIDOPCODE 0 script
  rw [zero_add, ← hexact] at hloop
  refine .bind (hloop.conseq ?_ (fun _ _ hs => hs) fun _ hs => hs) fun _ => ?_
  · rintro _ rfl
    exact ⟨fun _ hnumber => absurd hnumber (by decide), le_rfl, rfl⟩
  · refine .get_bind fun s hs => ?_
    refine (triple_failIf ?_ _ _).conseq (fun _ hs => hs) ?_ fun _ hs => hs
    · rintro _ rfl
      exact hs
    · rintro _ _ ⟨-, rfl⟩
      exact hs

/-- An evaluation makes at most as many signature checks as the accurate count
says, which is at most the flat count as long as the flat count fits in its
`unsigned int`. -/
theorem checkSigCalls_le_getSigOpCount (env : ScriptEnv) (stack : List Bytes) (script : CScript) :
    checkSigCalls env stack script ≤ (getSigOpCount true script).toNat ∧
      (maxPubkeysPerMultisig * script.length < 2 ^ 32 →
        getSigOpCount true script ≤ getSigOpCount false script) := by
  constructor
  · have hbody := triple_evalBody env stack script _ rfl
    unfold checkSigCalls evalScript
    revert hbody
    cases evalBody env script (EvalState.start stack script) with
    | ok _ s => exact id
    | error e s => exact id
  · intro hfits
    have hmax : maxPubkeysPerMultisig = 20 := rfl
    rw [hmax] at hfits
    rw [le_iff_toNat_le, getSigOpCount_toNat, getSigOpCount_toNat]
    have hle := sigOpSum_le script.length OP_INVALIDOPCODE script
    have hflat := sigOpSum_le_max false script.length OP_INVALIDOPCODE script
    rw [mod_eq_of_lt (by omega), mod_eq_of_lt (by omega)]
    exact hle

def lenientEnv : ScriptEnv where
  flags := 0
  checker := ⟨fun _ _ _ => true, fun _ => true, fun _ => true⟩
  crypto := ⟨id, id, id, fun _ => true⟩

theorem checkSigCalls_le_getSigOpCount_oneKey :
    checkSigCalls lenientEnv [[2], [1], [3], []] [OP_1, OP_CHECKMULTISIG] = 1 ∧
      1 ≤ (getSigOpCount true [OP_1, OP_CHECKMULTISIG]).toNat ∧
      getSigOpCount true [OP_1, OP_CHECKMULTISIG] ≤
        getSigOpCount false [OP_1, OP_CHECKMULTISIG] := by
  have hcalls : checkSigCalls lenientEnv [[2], [1], [3], []]
      [OP_1, OP_CHECKMULTISIG] = 1 := by decide
  obtain ⟨hbound, hflat⟩ := checkSigCalls_le_getSigOpCount lenientEnv
    [[2], [1], [3], []] [OP_1, OP_CHECKMULTISIG]
  exact ⟨hcalls, hbound, hflat (by decide)⟩

def oneKeyMultisigs (n : ℕ) : CScript :=
  (List.replicate n [OP_1, OP_CHECKMULTISIG]).flatten

theorem sigOpSum_oneKeyMultisigs :
    ∀ lastOpcode, sigOpSum fAccurate (2 * n) lastOpcode (oneKeyMultisigs n) =
      n * if fAccurate then 1 else maxPubkeysPerMultisig := by
  induction n with
  | zero =>
    intro lastOpcode
    simp [sigOpSum]
  | succ n ih =>
    intro lastOpcode
    have hscript : oneKeyMultisigs (n + 1) = OP_1 :: OP_CHECKMULTISIG :: oneKeyMultisigs n := by
      simp [oneKeyMultisigs, List.replicate_succ]
    have hone : getOp (OP_1 :: OP_CHECKMULTISIG :: oneKeyMultisigs n) =
      .ok OP_1 [] (OP_CHECKMULTISIG :: oneKeyMultisigs n) := rfl
    have hmulti : getOp (OP_CHECKMULTISIG :: oneKeyMultisigs n) =
      .ok OP_CHECKMULTISIG [] (oneKeyMultisigs n) := rfl
    have hpush : sigOpWeight fAccurate lastOpcode OP_1 = 0 := rfl
    have hweight : sigOpWeight fAccurate OP_1 OP_CHECKMULTISIG =
        if fAccurate then 1 else maxPubkeysPerMultisig := by
      cases fAccurate <;> rfl
    rw [hscript, mul_succ, sigOpSum, hone]
    simp only [sigOpSum, hmulti, hpush, hweight, ih, reduceCtorEq, if_false, zero_add]
    rw [succ_mul, add_comm]

theorem getSigOpCount_oneKeyMultisigs (n : ℕ) :
    (getSigOpCount fAccurate (oneKeyMultisigs n)).toNat =
      (n * if fAccurate then 1 else maxPubkeysPerMultisig) % 2 ^ 32 := by
  have hlength : (oneKeyMultisigs n).length = 2 * n := by
    simp [oneKeyMultisigs, mul_comm]
  rw [getSigOpCount_toNat, hlength, sigOpSum_oneKeyMultisigs]

/-- The flat count of a long script wraps around: 214748365 multisigs of one
key count as that many when counted accurately, and as four otherwise. -/
theorem flatCount_wraps_oneKeyMultisigs :
    (getSigOpCount true (oneKeyMultisigs 214748365)).toNat = 214748365 ∧
      (getSigOpCount false (oneKeyMultisigs 214748365)).toNat = 4 ∧
      ¬getSigOpCount true (oneKeyMultisigs 214748365) ≤
        getSigOpCount false (oneKeyMultisigs 214748365) := by
  have htrue := getSigOpCount_oneKeyMultisigs true 214748365
  have hfalse := getSigOpCount_oneKeyMultisigs false 214748365
  norm_num at htrue hfalse
  refine ⟨htrue, hfalse, ?_⟩
  rw [le_iff_toNat_le, htrue, hfalse]
  decide

end ImageCoin
