import ImageCoin.ScriptNum

/-!
# The script interpreter

`EvalScript` and `VerifyScript` of `script/interpreter.cpp`.  The interpreter is a state
machine over the two stacks, the conditional stack and the position in the script.
-/

namespace ImageCoin

inductive ScriptError where
  | unknownError
  | evalFalse
  | opReturn
  | scriptSize
  | pushSize
  | opCount
  | stackSize
  | sigCount
  | pubkeyCount
  | verify
  | equalVerify
  | checkMultiSigVerify
  | checkSigVerify
  | numEqualVerify
  | badOpcode
  | disabledOpcode
  | invalidStackOperation
  | invalidAltstackOperation
  | unbalancedConditional
  | negativeLocktime
  | unsatisfiedLocktime
  | sigHashtype
  | sigDer
  | minimalData
  | sigPushOnly
  | sigHighS
  | sigNullDummy
  | pubkeyType
  | cleanStack
  | discourageUpgradableNops
  | assertionFailed
  deriving DecidableEq, Repr

def SCRIPT_VERIFY_P2SH : UInt32 := 0x1
def SCRIPT_VERIFY_STRICTENC : UInt32 := 0x2
def SCRIPT_VERIFY_DERSIG : UInt32 := 0x4
def SCRIPT_VERIFY_LOW_S : UInt32 := 0x8
def SCRIPT_VERIFY_NULLDUMMY : UInt32 := 0x10
def SCRIPT_VERIFY_SIGPUSHONLY : UInt32 := 0x20
def SCRIPT_VERIFY_MINIMALDATA : UInt32 := 0x40
def SCRIPT_VERIFY_DISCOURAGE_UPGRADABLE_NOPS : UInt32 := 0x80
def SCRIPT_VERIFY_CLEANSTACK : UInt32 := 0x100
def SCRIPT_VERIFY_CHECKLOCKTIMEVERIFY : UInt32 := 0x200
def SCRIPT_VERIFY_CHECKSEQUENCEVERIFY : UInt32 := 0x400

def hasFlag (flags flag : UInt32) : Bool := flags &&& flag ≠ 0

structure BaseSignatureChecker where
  checkSig : Bytes → Bytes → CScript → Bool
  checkLockTime : ℤ → Bool
  checkSequence : ℤ → Bool

structure Crypto where
  ripemd160 : Bytes → Bytes
  sha1 : Bytes → Bytes
  sha256 : Bytes → Bytes
  checkLowS : Bytes → Bool

/-- What an evaluation reads besides its script and stack. -/
structure ScriptEnv where
  flags : UInt32
  checker : BaseSignatureChecker
  crypto : Crypto

variable (env : ScriptEnv)

def ScriptEnv.fRequireMinimal : Bool :=
  hasFlag env.flags SCRIPT_VERIFY_MINIMALDATA

/-- The local variables of `EvalScript`; the head of a stack is its top. -/
structure EvalState where
  stack : List Bytes
  altstack : List Bytes
  vfExec : List Bool
  pc : Bytes
  pbegincodehash : Bytes
  nOpCount : ℕ
  nCheckSig : ℕ
  deriving DecidableEq

abbrev EvalM := EStateM ScriptError EvalState

def failIf (bad : Bool) (e : ScriptError) : EvalM Unit :=
  if bad then throw e else pure ()

def setStack (stack : List Bytes) : EvalM Unit :=
  modify fun s => { s with stack }

def stackOp (f : List Bytes → Option (List Bytes)) : EvalM Unit := do
  match f (← get).stack with
  | some stack => setStack stack
  | none => throw .invalidStackOperation

def vchTrue : Bytes := [1]

def vchFalse : Bytes := []

def boolBytes (b : Bool) : Bytes := if b then vchTrue else vchFalse

def castToBool : Bytes → Bool
  | [] => false
  | [byte] => byte ≠ 0 && byte ≠ 0x80
  | byte :: rest => byte ≠ 0 || castToBool rest

variable (vchPubKey : Bytes)

def isCompressedOrUncompressedPubKey : Bool :=
  if vchPubKey.length < 33 then false
  else if byteAt vchPubKey 0 = 0x04 then vchPubKey.length = 65
  else if byteAt vchPubKey 0 = 0x02 || byteAt vchPubKey 0 = 0x03 then
    vchPubKey.length = 33
  else false

/-- Zero bytes at the start of an integer of `len` bytes at `pos` are only
allowed before a byte with its highest bit set. -/
def excessivelyPadded (sig : Bytes) (pos len : ℕ) : Bool :=
  len > 1 && byteAt sig pos = 0 && byteAt sig (pos + 1) &&& 0x80 = 0

def isValidSignatureEncoding (sig : Bytes) : Bool :=
  let lenR := (byteAt sig 3).toNat
  let lenS := (byteAt sig (5 + lenR)).toNat
  sig.length ≥ 9 && sig.length ≤ 73 && byteAt sig 0 = 0x30 &&
    (byteAt sig 1).toNat = sig.length - 3 && 5 + lenR < sig.length &&
    lenR + lenS + 7 = sig.length &&
    byteAt sig 2 = 0x02 && lenR ≠ 0 && byteAt sig 4 &&& 0x80 = 0 &&
    !excessivelyPadded sig 4 lenR &&
    byteAt sig (lenR + 4) = 0x02 && lenS ≠ 0 &&
    byteAt sig (lenR + 6) &&& 0x80 = 0 && !excessivelyPadded sig (lenR + 6) lenS

variable (vchSig : Bytes)

def isDefinedHashtypeSignature : Bool :=
  vchSig ≠ [] && (let nHashType := vchSig.getLastD 0 &&& 0x7f
     1 ≤ nHashType && nHashType ≤ 3)

def checkSignatureEncoding : EvalM Unit :=
  if vchSig = [] then pure ()
  else do
    failIf (hasFlag env.flags (SCRIPT_VERIFY_DERSIG ||| SCRIPT_VERIFY_LOW_S |||
      SCRIPT_VERIFY_STRICTENC) && !isValidSignatureEncoding vchSig) .sigDer
    -- `IsLowDERSignature` repeats the encoding check, which has just passed.
    failIf (hasFlag env.flags SCRIPT_VERIFY_LOW_S &&
      !env.crypto.checkLowS vchSig.dropLast) .sigHighS
    failIf (hasFlag env.flags SCRIPT_VERIFY_STRICTENC &&
      !isDefinedHashtypeSignature vchSig) .sigHashtype

def checkPubKeyEncoding : EvalM Unit :=
  failIf (hasFlag env.flags SCRIPT_VERIFY_STRICTENC &&
    !isCompressedOrUncompressedPubKey vchPubKey) .pubkeyType

def checkMinimalPush (data : Bytes) (opcode : UInt8) : Bool :=
  if data.length = 0 then opcode = OP_0
  else if data.length = 1 && byteAt data 0 ≥ 1 && byteAt data 0 ≤ 16 then
    opcode = OP_1 + (byteAt data 0 - 1)
  else if data.length = 1 && byteAt data 0 = 0x81 then opcode = OP_1NEGATE
  else if data.length ≤ 75 then opcode.toNat = data.length
  else if data.length ≤ 255 then opcode = OP_PUSHDATA1
  else if data.length ≤ 65535 then opcode = OP_PUSHDATA2
  else true

/-! ## The switch over opcodes -/

inductive SwitchCase where
  | pushNumber
  | nop
  | checkLockTimeVerify
  | checkSequenceVerify
  | upgradableNop
  | ifNotIf
  | else
  | endIf
  | verify
  | return
  | toAltStack
  | fromAltStack
  | stackOnly (f : List Bytes → Option (List Bytes))
  | pickRoll
  | equal
  | unary (f : ℤ → ℤ)
  | binary (f : ℤ → ℤ → ℤ)
  | within
  | hash (f : Crypto → Bytes → Bytes)
  | codeSeparator
  | checkSig
  | checkMultiSig
  | bad

def boolNum (b : Bool) : ℤ := if b then 1 else 0

def stackCases : List (UInt8 × (List Bytes → Option (List Bytes))) :=
  [ (OP_2DROP, fun
      | _ :: _ :: rest => some rest
      | _ => none),
    (OP_2DUP, fun
      | x2 :: x1 :: rest => some (x2 :: x1 :: x2 :: x1 :: rest)
      | _ => none),
    (OP_3DUP, fun
      | x3 :: x2 :: x1 :: rest =>
        some (x3 :: x2 :: x1 :: x3 :: x2 :: x1 :: rest)
      | _ => none),
    (OP_2OVER, fun
      | x4 :: x3 :: x2 :: x1 :: rest =>
        some (x2 :: x1 :: x4 :: x3 :: x2 :: x1 :: rest)
      | _ => none),
    (OP_2ROT, fun
      | x6 :: x5 :: x4 :: x3 :: x2 :: x1 :: rest =>
        some (x2 :: x1 :: x6 :: x5 :: x4 :: x3 :: rest)
      | _ => none),
    (OP_2SWAP, fun
      | x4 :: x3 :: x2 :: x1 :: rest => some (x2 :: x1 :: x4 :: x3 :: rest)
      | _ => none),
    (OP_IFDUP, fun
      | x :: rest => some (if castToBool x then x :: x :: rest else x :: rest)
      | _ => none),
    (OP_DEPTH, fun stack => some (serializeNum stack.length :: stack)),
    (OP_DROP, fun
      | _ :: rest => some rest
      | _ => none),
    (OP_DUP, fun
      | x :: rest => some (x :: x :: rest)
      | _ => none),
    (OP_NIP, fun
      | x2 :: _ :: rest => some (x2 :: rest)
      | _ => none),
    (OP_OVER, fun
      | x2 :: x1 :: rest => some (x1 :: x2 :: x1 :: rest)
      | _ => none),
    (OP_ROT, fun
      | x3 :: x2 :: x1 :: rest => some (x1 :: x3 :: x2 :: rest)
      | _ => none),
    (OP_SWAP, fun
      | x2 :: x1 :: rest => some (x1 :: x2 :: rest)
      | _ => none),
    (OP_TUCK, fun
      | x2 :: x1 :: rest => some (x2 :: x1 :: x2 :: rest)
      | _ => none),
    (OP_SIZE, fun
      | x :: rest => some (serializeNum x.length :: x :: rest)
      | _ => none) ]

def unaryCases : List (UInt8 × (ℤ → ℤ)) :=
  [ (OP_1ADD, fun bn => bn + 1), (OP_1SUB, fun bn => bn - 1), (OP_NEGATE, fun bn => -bn),
    (OP_ABS, fun bn => if bn < 0 then -bn else bn),
    (OP_NOT, fun bn => boolNum (bn = 0)),
    (OP_0NOTEQUAL, fun bn => boolNum (bn ≠ 0)) ]

def binaryCases : List (UInt8 × (ℤ → ℤ → ℤ)) :=
  [ (OP_ADD, fun bn1 bn2 => bn1 + bn2), (OP_SUB, fun bn1 bn2 => bn1 - bn2),
    (OP_BOOLAND, fun bn1 bn2 => boolNum (bn1 ≠ 0 && bn2 ≠ 0)),
    (OP_BOOLOR, fun bn1 bn2 => boolNum (bn1 ≠ 0 || bn2 ≠ 0)),
    (OP_NUMEQUAL, fun bn1 bn2 => boolNum (bn1 = bn2)),
    (OP_NUMEQUALVERIFY, fun bn1 bn2 => boolNum (bn1 = bn2)),
    (OP_NUMNOTEQUAL, fun bn1 bn2 => boolNum (bn1 ≠ bn2)),
    (OP_LESSTHAN, fun bn1 bn2 => boolNum (bn1 < bn2)),
    (OP_GREATERTHAN, fun bn1 bn2 => boolNum (bn1 > bn2)),
    (OP_LESSTHANOREQUAL, fun bn1 bn2 => boolNum (bn1 ≤ bn2)),
    (OP_GREATERTHANOREQUAL, fun bn1 bn2 => boolNum (bn1 ≥ bn2)),
    (OP_MIN, fun bn1 bn2 => if bn1 < bn2 then bn1 else bn2),
    (OP_MAX, fun bn1 bn2 => if bn1 > bn2 then bn1 else bn2) ]

def hashCases : List (UInt8 × (Crypto → Bytes → Bytes)) :=
  [ (OP_RIPEMD160, fun crypto => crypto.ripemd160), (OP_SHA1, fun crypto => crypto.sha1),
    (OP_SHA256, fun crypto => crypto.sha256),
    (OP_HASH160, fun crypto vch => crypto.ripemd160 (crypto.sha256 vch)),
    (OP_HASH256, fun crypto vch => crypto.sha256 (crypto.sha256 vch)) ]

def upgradableNops : List UInt8 :=
  [OP_NOP1, OP_NOP4, 0xb4, 0xb5, 0xb6, 0xb7, 0xb8, OP_NOP10]

def controlCases : List (UInt8 × SwitchCase) :=
  [ (OP_NOP, .nop), (OP_CHECKLOCKTIMEVERIFY, .checkLockTimeVerify),
    (OP_CHECKSEQUENCEVERIFY, .checkSequenceVerify),
    (OP_IF, .ifNotIf), (OP_NOTIF, .ifNotIf),
    (OP_ELSE, .else), (OP_ENDIF, .endIf),
    (OP_VERIFY, .verify), (OP_RETURN, .return),
    (OP_TOALTSTACK, .toAltStack), (OP_FROMALTSTACK, .fromAltStack),
    (OP_PICK, .pickRoll), (OP_ROLL, .pickRoll),
    (OP_EQUAL, .equal), (OP_EQUALVERIFY, .equal),
    (OP_WITHIN, .within),
    (OP_CODESEPARATOR, .codeSeparator),
    (OP_CHECKSIG, .checkSig), (OP_CHECKSIGVERIFY, .checkSig),
    (OP_CHECKMULTISIG, .checkMultiSig),
    (OP_CHECKMULTISIGVERIFY, .checkMultiSig) ]

def switchTable : List (UInt8 × SwitchCase) :=
  controlCases ++ (upgradableNops.map fun opcode => (opcode, SwitchCase.upgradableNop)) ++
    (stackCases.map fun entry => (entry.1, SwitchCase.stackOnly entry.2)) ++
    (unaryCases.map fun entry => (entry.1, SwitchCase.unary entry.2)) ++
    (binaryCases.map fun entry => (entry.1, SwitchCase.binary entry.2)) ++
    (hashCases.map fun entry => (entry.1, SwitchCase.hash entry.2))

variable (opcode : UInt8)

def switchCase : SwitchCase :=
  if opcode = OP_1NEGATE ∨ (OP_1 ≤ opcode ∧ opcode ≤ OP_16) then .pushNumber
  else (switchTable.lookup opcode).getD .bad

def disabledOpcodes : List UInt8 :=
  [OP_CAT, OP_SUBSTR, OP_LEFT, OP_RIGHT, OP_INVERT, OP_AND, OP_OR, OP_XOR,
    OP_2MUL, OP_2DIV, OP_MUL, OP_DIV, OP_MOD, OP_LSHIFT, OP_RSHIFT]

def readNum (vch : Bytes) (nMaxNumSize : ℕ) : EvalM ℤ :=
  match scriptNum vch env.fRequireMinimal nMaxNumSize with
  | some n => pure n
  | none => throw .unknownError

def verifyTop (isVerify fSuccess : Bool) (rest : List Bytes) (e : ScriptError) : EvalM Unit :=
  if isVerify then
    if fSuccess then setStack rest else throw e
  else pure ()

def evalUpgradableNop : EvalM Unit :=
  failIf (hasFlag env.flags SCRIPT_VERIFY_DISCOURAGE_UPGRADABLE_NOPS) .discourageUpgradableNops

/-- The part that `OP_CHECKLOCKTIMEVERIFY` and `OP_CHECKSEQUENCEVERIFY` share
once they are enabled. -/
def evalLockOperand (check : ℤ → Bool) : EvalM Unit := do
  match (← get).stack with
  | [] => throw .invalidStackOperation
  | vch :: _ =>
    let n ← readNum env vch 5
    failIf (n < 0) .negativeLocktime
    failIf (!check n) .unsatisfiedLocktime

def evalCheckLockTimeVerify : EvalM Unit :=
  if hasFlag env.flags SCRIPT_VERIFY_CHECKLOCKTIMEVERIFY then
    evalLockOperand env env.checker.checkLockTime
  else evalUpgradableNop env

def evalCheckSequenceVerify : EvalM Unit :=
  if hasFlag env.flags SCRIPT_VERIFY_CHECKSEQUENCEVERIFY then
    -- With the disable flag (bit 31) in the operand it is a no-operation.
    evalLockOperand env fun nSequence =>
      nSequence.toNat.testBit 31 || env.checker.checkSequence nSequence
  else evalUpgradableNop env

def evalIfNotIf (fExec : Bool) : EvalM Unit :=
  if fExec then do
    match (← get).stack with
    | [] => throw .unbalancedConditional
    | vch :: rest =>
      let fValue := if opcode = OP_NOTIF then !castToBool vch
        else castToBool vch
      modify fun s => { s with stack := rest, vfExec := fValue :: s.vfExec }
  else modify fun s => { s with vfExec := false :: s.vfExec }

def evalElse : EvalM Unit := do
  match (← get).vfExec with
  | [] => throw .unbalancedConditional
  | back :: rest => modify fun s => { s with vfExec := (!back) :: rest }

def evalEndIf : EvalM Unit := do
  match (← get).vfExec with
  | [] => throw .unbalancedConditional
  | _ :: rest => modify fun s => { s with vfExec := rest }

def evalVerify : EvalM Unit := do
  match (← get).stack with
  | [] => throw .invalidStackOperation
  | vch :: rest => if castToBool vch then setStack rest else throw .verify

def evalToAltStack : EvalM Unit := do
  match (← get).stack with
  | [] => throw .invalidStackOperation
  | vch :: rest =>
    modify fun s => { s with stack := rest, altstack := vch :: s.altstack }

def evalFromAltStack : EvalM Unit := do
  match (← get).altstack with
  | [] => throw .invalidAltstackOperation
  | vch :: rest =>
    modify fun s => { s with stack := vch :: s.stack, altstack := rest }

def evalPickRoll : EvalM Unit := do
  match (← get).stack with
  | top :: second :: below =>
    let n ← readNum env top nDefaultMaxNumSize
    let rest := second :: below
    setStack rest
    failIf (n < 0) .invalidStackOperation
    match rest[n.toNat]? with
    | none => throw .invalidStackOperation
    | some vch =>
      setStack (vch ::
        if opcode = OP_ROLL then rest.eraseIdx n.toNat else rest)
  | _ => throw .invalidStackOperation

def evalEqual : EvalM Unit := do
  match (← get).stack with
  | vch2 :: vch1 :: rest =>
    let fEqual := decide (vch1 = vch2)
    setStack (boolBytes fEqual :: rest)
    verifyTop (opcode = OP_EQUALVERIFY) fEqual rest .equalVerify
  | _ => throw .invalidStackOperation

def evalUnary (f : ℤ → ℤ) : EvalM Unit := do
  match (← get).stack with
  | vch :: rest =>
    let bn ← readNum env vch nDefaultMaxNumSize
    setStack (serializeNum (f bn) :: rest)
  | _ => throw .invalidStackOperation

def evalBinary (f : ℤ → ℤ → ℤ) : EvalM Unit := do
  match (← get).stack with
  | vch2 :: vch1 :: rest =>
    let bn1 ← readNum env vch1 nDefaultMaxNumSize
    let bn2 ← readNum env vch2 nDefaultMaxNumSize
    let vch := serializeNum (f bn1 bn2)
    setStack (vch :: rest)
    verifyTop (opcode = OP_NUMEQUALVERIFY) (castToBool vch) rest .numEqualVerify
  | _ => throw .invalidStackOperation

def evalWithin : EvalM Unit := do
  match (← get).stack with
  | vch3 :: vch2 :: vch1 :: rest =>
    let bn1 ← readNum env vch1 nDefaultMaxNumSize
    let bn2 ← readNum env vch2 nDefaultMaxNumSize
    let bn3 ← readNum env vch3 nDefaultMaxNumSize
    setStack (boolBytes (bn2 ≤ bn1 && bn1 < bn3) :: rest)
  | _ => throw .invalidStackOperation

/-! ### Signatures -/

def callCheckSig (vchSig vchPubKey : Bytes) (scriptCode : CScript) : EvalM Bool := do
  modify fun s => { s with nCheckSig := s.nCheckSig + 1 }
  pure (env.checker.checkSig vchSig vchPubKey scriptCode)

def dropSignature (scriptCode : CScript) (vchSig : Bytes) : CScript :=
  (findAndDelete scriptCode (pushBytes vchSig)).1

def evalCheckSig : EvalM Unit := do
  let s ← get
  match s.stack with
  | vchPubKey :: vchSig :: rest =>
    let scriptCode := dropSignature s.pbegincodehash vchSig
    checkSignatureEncoding env vchSig
    checkPubKeyEncoding env vchPubKey
    let fSuccess ← callCheckSig env vchSig vchPubKey scriptCode
    setStack (boolBytes fSuccess :: rest)
    verifyTop (opcode = OP_CHECKSIGVERIFY) fSuccess rest .checkSigVerify
  | _ => throw .invalidStackOperation

/-- The matching loop of `OP_CHECKMULTISIG` over the keys and signatures that
are left, in order.  It ends when more signatures than keys are left. -/
def multiSigLoop (env : ScriptEnv) (scriptCode : CScript) : List Bytes → List Bytes → EvalM Bool
  | _, [] => pure true
  | [], _ :: _ => pure false
  | vchPubKey :: keys, vchSig :: sigs => do
      checkSignatureEncoding env vchSig
      checkPubKeyEncoding env vchPubKey
      let fOk ← callCheckSig env vchSig vchPubKey scriptCode
      let left := if fOk then sigs else vchSig :: sigs
      if left.length > keys.length then pure false
      else multiSigLoop env scriptCode keys left

def readCount (vch : Bytes) (limit : ℕ) (e : ScriptError) : EvalM ℕ := do
  let n ← readNum env vch nDefaultMaxNumSize
  failIf (n < 0 || n > limit) e
  pure n.toNat

/-- `OP_CHECKMULTISIG` after the number of keys: the arguments are the stack
below that number. -/
def evalMultiSigKeys (nKeysCount : ℕ) (below : List Bytes) : EvalM Unit := do
  let s ← get
  match below.drop nKeysCount with
  | [] => throw .invalidStackOperation
  | vchSigsCount :: args =>
    let nSigsCount ← readCount env vchSigsCount nKeysCount .sigCount
    -- One more item than the signatures must be there, see below.
    failIf (args.length < nSigsCount + 1) .invalidStackOperation
    let sigs := args.take nSigsCount
    let scriptCode := sigs.foldl dropSignature s.pbegincodehash
    let fSuccess ← multiSigLoop env scriptCode (below.take nKeysCount) sigs
    -- The opcode consumes an extra item, which NULLDUMMY wants empty.
    match args.drop nSigsCount with
    | [] => throw .invalidStackOperation
    | dummy :: rest =>
      failIf (hasFlag env.flags SCRIPT_VERIFY_NULLDUMMY && dummy ≠ []) .sigNullDummy
      setStack (boolBytes fSuccess :: rest)
      verifyTop (opcode = OP_CHECKMULTISIGVERIFY) fSuccess rest .checkMultiSigVerify

def evalCheckMultiSig : EvalM Unit := do
  match (← get).stack with
  | [] => throw .invalidStackOperation
  | vchKeysCount :: below =>
    let nKeysCount ← readCount env vchKeysCount maxPubkeysPerMultisig
      .pubkeyCount
    modify fun s => { s with nOpCount := s.nOpCount + nKeysCount }
    failIf ((← get).nOpCount > maxOpsPerScript) .opCount
    evalMultiSigKeys env opcode nKeysCount below

def execCase (fExec : Bool) : SwitchCase → EvalM Unit
  | .pushNumber => stackOp fun stack =>
    some (serializeNum ((opcode.toNat : ℤ) - (OP_1.toNat - 1)) :: stack)
  | .nop => pure ()
  | .checkLockTimeVerify => evalCheckLockTimeVerify env
  | .checkSequenceVerify => evalCheckSequenceVerify env
  | .upgradableNop => evalUpgradableNop env
  | .ifNotIf => evalIfNotIf opcode fExec
  | .else => evalElse
  | .endIf => evalEndIf
  | .verify => evalVerify
  | .return => throw .opReturn
  | .toAltStack => evalToAltStack
  | .fromAltStack => evalFromAltStack
  | .stackOnly f => stackOp f
  | .pickRoll => evalPickRoll env opcode
  | .equal => evalEqual opcode
  | .unary f => evalUnary env f
  | .binary f => evalBinary env opcode f
  | .within => evalWithin env
  | .hash f => stackOp fun
      | vch :: rest => some (f env.crypto vch :: rest)
      | [] => none
  | .codeSeparator => modify fun s => { s with pbegincodehash := s.pc }
  | .checkSig => evalCheckSig env opcode
  | .checkMultiSig => evalCheckMultiSig env opcode
  | .bad => throw .badOpcode

def fExec (vfExec : List Bool) : Bool := vfExec.all id

/-- Operations above `OP_16` count towards the limit, also when they are not
executed. -/
def countOp : EvalM Unit :=
  if opcode > OP_16 then do
    modify fun s => { s with nOpCount := s.nOpCount + 1 }
    failIf ((← get).nOpCount > maxOpsPerScript) .opCount
  else pure ()

def evalPush (vchPushValue : Bytes) : EvalM Unit := do
  failIf (env.fRequireMinimal && !checkMinimalPush vchPushValue opcode) .minimalData
  stackOp fun stack => some (vchPushValue :: stack)

/-- The dispatch on an instruction; inside a branch that is not executed only
the conditionals are. -/
def dispatch (exec : Bool) (opcode : UInt8) (vchPushValue : Bytes) : EvalM Unit :=
  if exec && opcode ≤ OP_PUSHDATA4 then evalPush env opcode vchPushValue
  else if exec || (OP_IF ≤ opcode && opcode ≤ OP_ENDIF) then
    execCase env opcode exec (switchCase opcode)
  else pure ()

def evalInstruction (exec : Bool) (opcode : UInt8) (vchPushValue : Bytes) : EvalM Unit := do
  failIf (vchPushValue.length > maxScriptElementSize) .pushSize
  countOp opcode
  failIf (opcode ∈ disabledOpcodes) .disabledOpcode
  dispatch env exec opcode vchPushValue
  let s ← get
  failIf (s.stack.length + s.altstack.length > 1000) .stackSize

def evalStep : EvalM Unit := do
  let s ← get
  match getOp s.pc with
  | .fail _ => throw .badOpcode
  | .ok opcode vchPushValue pc =>
    modify fun s => { s with pc }
    evalInstruction env (fExec s.vfExec) opcode vchPushValue

def evalLoop (env : ScriptEnv) : ℕ → EvalM Unit
  | 0 => pure ()
  | fuel + 1 => do
      if (← get).pc = [] then pure ()
      else
        evalStep env
        evalLoop env fuel

variable (stack : List Bytes) (script : CScript)

def EvalState.start : EvalState where
  stack := stack
  altstack := []
  vfExec := []
  pc := script
  pbegincodehash := script
  nOpCount := 0
  nCheckSig := 0

def evalBody : EvalM Unit := do
  failIf (script.length > maxScriptSize) .scriptSize
  evalLoop env script.length
  failIf ((← get).vfExec ≠ []) .unbalancedConditional

def evalScript : EStateM.Result ScriptError EvalState Unit :=
  evalBody env script (EvalState.start stack script)

def evalStack : Except ScriptError (List Bytes) :=
  match evalScript env stack script with
  | .ok _ s => .ok s.stack
  | .error e _ => .error e

def checkTop : List Bytes → Except ScriptError Unit
  | [] => .error .evalFalse
  | vch :: _ => if castToBool vch then .ok () else .error .evalFalse

/-- The evaluation of the serialized script that a pay-to-script-hash input
left on the stack. -/
def verifyScriptHash (scriptSig : CScript)
    (stackCopy : List Bytes) : Except ScriptError (List Bytes) :=
  if !isPushOnly scriptSig then .error .sigPushOnly
  else
    match stackCopy with
    | [] => .error .assertionFailed
    | pubKeySerialized :: rest => do
        let stack ← evalStack env rest pubKeySerialized
        checkTop stack
        pure stack

variable (scriptSig scriptPubKey : CScript)

/-- The stack that the verdict is about: pay-to-script-hash restores the one
that the scriptSig left and evaluates once more. -/
def finalStack (stackCopy stack : List Bytes) : Except ScriptError (List Bytes) :=
  if hasFlag env.flags SCRIPT_VERIFY_P2SH && isPayToScriptHash scriptPubKey
  then verifyScriptHash env scriptSig stackCopy
  else .ok stack

def checkCleanStack (flags : UInt32) (stack : List Bytes) : Except ScriptError Unit :=
  if hasFlag flags SCRIPT_VERIFY_CLEANSTACK then
    if !hasFlag flags SCRIPT_VERIFY_P2SH then .error .assertionFailed
    else if stack.length ≠ 1 then .error .cleanStack
    else .ok ()
  else .ok ()

def verifyScript : Except ScriptError Unit :=
  if hasFlag env.flags SCRIPT_VERIFY_SIGPUSHONLY && !isPushOnly scriptSig then
    .error .sigPushOnly
  else do
    let stackCopy ← evalStack env [] scriptSig
    let stack ← evalStack env stackCopy scriptPubKey
    checkTop stack
    let stack ← finalStack env scriptSig scriptPubKey stackCopy stack
    checkCleanStack env.flags stack

end ImageCoin
