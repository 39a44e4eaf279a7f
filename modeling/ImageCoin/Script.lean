import ImageCoin.Serialize

/-!
# Scripts

The byte-level part of `script.h` and `script.cpp`: opcodes, the instruction decoder `GetOp`,
the shape tests used by validation, signature-operation counting and `FindAndDelete`.
-/

namespace ImageCoin

open ByteStream

abbrev CScript := Bytes

def maxScriptElementSize : ℕ := 520

def maxOpsPerScript : ℕ := 201

def maxPubkeysPerMultisig : ℕ := 20

def maxScriptSize : ℕ := 10000

def OP_0 : UInt8 := 0x00
def OP_PUSHDATA1 : UInt8 := 0x4c
def OP_PUSHDATA2 : UInt8 := 0x4d
def OP_PUSHDATA4 : UInt8 := 0x4e
def OP_1NEGATE : UInt8 := 0x4f
def OP_1 : UInt8 := 0x51
def OP_16 : UInt8 := 0x60
def OP_NOP : UInt8 := 0x61
def OP_IF : UInt8 := 0x63
def OP_NOTIF : UInt8 := 0x64
def OP_ELSE : UInt8 := 0x67
def OP_ENDIF : UInt8 := 0x68
def OP_VERIFY : UInt8 := 0x69
def OP_RETURN : UInt8 := 0x6a
def OP_TOALTSTACK : UInt8 := 0x6b
def OP_FROMALTSTACK : UInt8 := 0x6c
def OP_2DROP : UInt8 := 0x6d
def OP_2DUP : UInt8 := 0x6e
def OP_3DUP : UInt8 := 0x6f
def OP_2OVER : UInt8 := 0x70
def OP_2ROT : UInt8 := 0x71
def OP_2SWAP : UInt8 := 0x72
def OP_IFDUP : UInt8 := 0x73
def OP_DEPTH : UInt8 := 0x74
def OP_DROP : UInt8 := 0x75
def OP_DUP : UInt8 := 0x76
def OP_NIP : UInt8 := 0x77
def OP_OVER : UInt8 := 0x78
def OP_PICK : UInt8 := 0x79
def OP_ROLL : UInt8 := 0x7a
def OP_ROT : UInt8 := 0x7b
def OP_SWAP : UInt8 := 0x7c
def OP_TUCK : UInt8 := 0x7d
def OP_CAT : UInt8 := 0x7e
def OP_SUBSTR : UInt8 := 0x7f
def OP_LEFT : UInt8 := 0x80
def OP_RIGHT : UInt8 := 0x81
def OP_SIZE : UInt8 := 0x82
def OP_INVERT : UInt8 := 0x83
def OP_AND : UInt8 := 0x84
def OP_OR : UInt8 := 0x85
def OP_XOR : UInt8 := 0x86
def OP_EQUAL : UInt8 := 0x87
def OP_EQUALVERIFY : UInt8 := 0x88
def OP_1ADD : UInt8 := 0x8b
def OP_1SUB : UInt8 := 0x8c
def OP_2MUL : UInt8 := 0x8d
def OP_2DIV : UInt8 := 0x8e
def OP_NEGATE : UInt8 := 0x8f
def OP_ABS : UInt8 := 0x90
def OP_NOT : UInt8 := 0x91
def OP_0NOTEQUAL : UInt8 := 0x92
def OP_ADD : UInt8 := 0x93
def OP_SUB : UInt8 := 0x94
def OP_MUL : UInt8 := 0x95
def OP_DIV : UInt8 := 0x96
def OP_MOD : UInt8 := 0x97
def OP_LSHIFT : UInt8 := 0x98
def OP_RSHIFT : UInt8 := 0x99
def OP_BOOLAND : UInt8 := 0x9a
def OP_BOOLOR : UInt8 := 0x9b
def OP_NUMEQUAL : UInt8 := 0x9c
def OP_NUMEQUALVERIFY : UInt8 := 0x9d
def OP_NUMNOTEQUAL : UInt8 := 0x9e
def OP_LESSTHAN : UInt8 := 0x9f
def OP_GREATERTHAN : UInt8 := 0xa0
def OP_LESSTHANOREQUAL : UInt8 := 0xa1
def OP_GREATERTHANOREQUAL : UInt8 := 0xa2
def OP_MIN : UInt8 := 0xa3
def OP_MAX : UInt8 := 0xa4
def OP_WITHIN : UInt8 := 0xa5
def OP_RIPEMD160 : UInt8 := 0xa6
def OP_SHA1 : UInt8 := 0xa7
def OP_SHA256 : UInt8 := 0xa8
def OP_HASH160 : UInt8 := 0xa9
def OP_HASH256 : UInt8 := 0xaa
def OP_CODESEPARATOR : UInt8 := 0xab
def OP_CHECKSIG : UInt8 := 0xac
def OP_CHECKSIGVERIFY : UInt8 := 0xad
def OP_CHECKMULTISIG : UInt8 := 0xae
def OP_CHECKMULTISIGVERIFY : UInt8 := 0xaf
def OP_NOP1 : UInt8 := 0xb0
def OP_CHECKLOCKTIMEVERIFY : UInt8 := 0xb1
def OP_CHECKSEQUENCEVERIFY : UInt8 := 0xb2
def OP_NOP4 : UInt8 := 0xb3
def OP_NOP10 : UInt8 := 0xb9
def OP_INVALIDOPCODE : UInt8 := 0xff

/-- Outcome of `GetOp2`.  A failed decode has already moved the iterator past
what it read. -/
inductive GetOpResult where
  | ok (opcode : UInt8) (vch : Bytes) (pc : Bytes)
  | fail (pc : Bytes)
  deriving DecidableEq, Repr

variable (opcode : UInt8)

def sizeBytes : ℕ :=
  if opcode = OP_PUSHDATA1 then 1
  else if opcode = OP_PUSHDATA2 then 2
  else if opcode = OP_PUSHDATA4 then 4
  else 0

def operandSize (pc : Bytes) : ℕ :=
  if opcode < OP_PUSHDATA1 then opcode.toNat
  else leNat (pc.take (sizeBytes opcode))

def getOp : Bytes → GetOpResult
  | [] => .fail []
  | opcode :: pc =>
    -- Immediate operand
    if opcode ≤ OP_PUSHDATA4 then
      if pc.length < sizeBytes opcode then .fail pc
      else
        let nSize := operandSize opcode pc
        let pc := pc.drop (sizeBytes opcode)
        if pc.length < nSize then .fail pc
        else .ok opcode (pc.take nSize) (pc.drop nSize)
    else .ok opcode [] pc

theorem getOp_ok {script pc : Bytes} {opcode : UInt8} {vch : Bytes}
    (hop : getOp script = .ok opcode vch pc) : ∃ operand, script = opcode :: (operand ++ pc) := by
  cases script with
  | nil => simp [getOp] at hop
  | cons first rest =>
    simp only [getOp] at hop
    split_ifs at hop with hpush hsize hdata
    · simp only [GetOpResult.ok.injEq] at hop
      obtain ⟨rfl, -, rfl⟩ := hop
      refine ⟨rest.take (sizeBytes first) ++
        (rest.drop (sizeBytes first)).take (operandSize first rest), ?_⟩
      rw [List.append_assoc, List.take_append_drop, List.take_append_drop]
    · simp only [GetOpResult.ok.injEq] at hop
      obtain ⟨rfl, -, rfl⟩ := hop
      exact ⟨[], rfl⟩

def decodeOpN : ℕ :=
  if opcode = OP_0 then 0 else opcode.toNat - (OP_1.toNat - 1)

variable (script : CScript)

def byteAt (i : ℕ) : UInt8 := script.getD i 0

def isPayToPublicKeyHash : Bool :=
  script.length = 25 && byteAt script 0 = OP_DUP &&
    byteAt script 1 = OP_HASH160 && byteAt script 2 = 0x14 &&
    byteAt script 23 = OP_EQUALVERIFY && byteAt script 24 = OP_CHECKSIG

def isPayToScriptHash : Bool :=
  script.length = 23 && byteAt script 0 = OP_HASH160 &&
    byteAt script 1 = 0x14 && byteAt script 22 = OP_EQUAL

def isUnspendable : Bool :=
  (script.length > 0 && byteAt script 0 = OP_RETURN) || script.length > maxScriptSize

def isPushOnlyLoop : ℕ → Bytes → Bool
  | 0, _ => true
  | fuel + 1, pc =>
    if pc = [] then true
    else
      match getOp pc with
      | .fail _ => false
      | .ok opcode _ pc =>
        if opcode > OP_16 then false else isPushOnlyLoop fuel pc

def isPushOnly : Bool :=
  isPushOnlyLoop script.length script

variable (fAccurate : Bool)

def sigOpWeight (lastOpcode opcode : UInt8) : ℕ :=
  if opcode = OP_CHECKSIG ∨ opcode = OP_CHECKSIGVERIFY then 1
  else if opcode = OP_CHECKMULTISIG ∨ opcode = OP_CHECKMULTISIGVERIFY then
    if fAccurate ∧ OP_1 ≤ lastOpcode ∧ lastOpcode ≤ OP_16 then
      decodeOpN lastOpcode
    else maxPubkeysPerMultisig
  else 0

def getSigOpCountLoop (fAccurate : Bool) : ℕ → UInt8 → Bytes → UInt32 → UInt32
  | 0, _, _, n => n
  | fuel + 1, lastOpcode, pc, n =>
    if pc = [] then n
    else
      match getOp pc with
      | .fail _ => n
      | .ok opcode _ pc =>
        getSigOpCountLoop fAccurate fuel opcode pc
          (n + UInt32.ofNat (sigOpWeight fAccurate lastOpcode opcode))

def getSigOpCount (script : CScript) : UInt32 :=
  getSigOpCountLoop fAccurate script.length OP_INVALIDOPCODE script 0

/-- The last item a push-only scriptSig leaves, or nothing when it is not
push-only. -/
def lastPushLoop : ℕ → Bytes → Bytes → Option Bytes
  | 0, _, data => some data
  | fuel + 1, pc, data =>
    if pc = [] then some data
    else
      match getOp pc with
      | .fail _ => none
      | .ok opcode data pc =>
        if opcode > OP_16 then none else lastPushLoop fuel pc data

def getP2SHSigOps (script scriptSig : CScript) : UInt32 :=
  if isPayToScriptHash script then
    match lastPushLoop scriptSig.length scriptSig [] with
    | none => 0
    | some data => getSigOpCount true data
  else getSigOpCount true script

def pushBytes (b : Bytes) : CScript :=
  if b.length < OP_PUSHDATA1.toNat then UInt8.ofNat b.length :: b
  else if b.length ≤ 0xff then OP_PUSHDATA1 :: UInt8.ofNat b.length :: b
  else if b.length ≤ 0xffff then OP_PUSHDATA2 :: leBytes 2 b.length ++ b
  else OP_PUSHDATA4 :: leBytes 4 b.length ++ b

def skipMatches (b : CScript) : ℕ → Bytes → ℕ → Bytes × ℕ
  | 0, pc, nFound => (pc, nFound)
  | fuel + 1, pc, nFound =>
    if b.isPrefixOf pc then
      skipMatches b fuel (pc.drop b.length) (nFound + 1)
    else (pc, nFound)

/-- The outer loop of `FindAndDelete`; `pc2` is where the bytes not yet copied
to `result` start. -/
def findAndDeleteLoop (b : CScript) : ℕ → Bytes → Bytes → Bytes → ℕ → Bytes × ℕ
  | 0, result, pc2, _, nFound => (result ++ pc2, nFound)
  | fuel + 1, result, pc2, pc, nFound =>
    let result := result ++ pc2.take (pc2.length - pc.length)
    let (pc, nFound) := skipMatches b pc.length pc nFound
    let pc2 := pc
    match getOp pc with
    | .fail _ => (result ++ pc2, nFound)
    | .ok _ _ pc => findAndDeleteLoop b fuel result pc2 pc nFound

def findAndDelete (script b : CScript) : CScript × ℕ :=
  if b = [] then (script, 0)
  else
    let (result, nFound) :=
      findAndDeleteLoop b (script.length + 1) [] script script 0
    if nFound > 0 then (result, nFound) else (script, nFound)

end ImageCoin
