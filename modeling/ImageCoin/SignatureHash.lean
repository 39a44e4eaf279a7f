import ImageCoin.TransactionWire

/-!
# Signature hashes

`CTransactionSignatureSerializer` and `SignatureHash` of `interpreter.cpp`.  The serializer
streams the parts of a transaction that a signature commits to.
-/

namespace ImageCoin

open ByteStream List CMutableTransaction

def SIGHASH_ALL : Int32 := 1
def SIGHASH_NONE : Int32 := 2
def SIGHASH_SINGLE : Int32 := 3
def SIGHASH_ANYONECANPAY : Int32 := 0x80

def fAnyoneCanPay (nHashType : Int32) : Bool :=
  nHashType &&& SIGHASH_ANYONECANPAY ≠ 0

def fHashSingle (nHashType : Int32) : Bool :=
  nHashType &&& 0x1f = SIGHASH_SINGLE

def fHashNone (nHashType : Int32) : Bool :=
  nHashType &&& 0x1f = SIGHASH_NONE

def countCodeSeparators : ℕ → Bytes → ℕ → ℕ
  | 0, _, nCodeSeparators => nCodeSeparators
  | fuel + 1, it, nCodeSeparators =>
    match getOp it with
    | .fail _ => nCodeSeparators
    | .ok opcode _ it =>
      if opcode = OP_CODESEPARATOR then
        countCodeSeparators fuel it (nCodeSeparators + 1)
      else countCodeSeparators fuel it nCodeSeparators

def bytesBetween (first last : Bytes) : Bytes :=
  first.take (first.length - last.length)

/-- The second loop of `SerializeScriptCode`, which writes the stretches
between separators, and the final write up to where the iterator stopped. -/
def writeSegments : ℕ → Bytes → Bytes → Bytes
  | 0, itBegin, it => bytesBetween itBegin it
  | fuel + 1, itBegin, it =>
    match getOp it with
    | .fail it => bytesBetween itBegin it
    | .ok opcode _ it =>
      if opcode = OP_CODESEPARATOR then
        (bytesBetween itBegin it).dropLast ++ writeSegments fuel it it
      else writeSegments fuel itBegin it

def serializeScriptCode (scriptCode : CScript) : Bytes :=
  writeCompactSize (scriptCode.length - countCodeSeparators scriptCode.length scriptCode 0) ++
    writeSegments scriptCode.length scriptCode scriptCode

def serializeInput (scriptCode : CScript) (txTo : CMutableTransaction)
    (nIn : ℕ) (nHashType : Int32) (nInput : ℕ) : Bytes :=
  -- With ANYONECANPAY only the input being signed is serialized.
  let nInput := if fAnyoneCanPay nHashType then nIn else nInput
  match txTo.vin[nInput]? with
  | none => []
  | some txin =>
    txin.prevout.serialize ++ ((if nInput ≠ nIn then writeBlob []
        else serializeScriptCode scriptCode) ++
        (if nInput ≠ nIn ∧ (fHashSingle nHashType ∨ fHashNone nHashType) then
          serializeInt32 0
        else serializeUInt32 txin.nSequence))

def serializeOutput (txTo : CMutableTransaction) (nIn : ℕ) (nHashType : Int32)
    (nOutput : ℕ) : Bytes :=
  match txTo.vout[nOutput]? with
  | none => []
  | some txout =>
    if fHashSingle nHashType ∧ nOutput ≠ nIn then CTxOut.null.serialize
    else txout.serialize

/-- `CTransactionSignatureSerializer::Serialize`; the numbers of inputs and
outputs are kept in an `unsigned int`. -/
def signatureSerialize (scriptCode : CScript) (txTo : CMutableTransaction)
    (nIn : ℕ) (nHashType : Int32) : Bytes :=
  let nInputs :=
    (if fAnyoneCanPay nHashType then 1 else txTo.vin.length) % 2 ^ 32
  let nOutputs :=
    (if fHashNone nHashType then 0
      else if fHashSingle nHashType then nIn + 1
      else txTo.vout.length) % 2 ^ 32
  serializeInt32 txTo.nVersion ++ (writeCompactSize nInputs ++ ((range nInputs).flatMap
          (serializeInput scriptCode txTo nIn nHashType) ++
        (writeCompactSize nOutputs ++ ((range nOutputs).flatMap
              (serializeOutput txTo nIn nHashType) ++
            serializeUInt32 txTo.nLockTime))))

def signaturePreimage (scriptCode : CScript) (txTo : CMutableTransaction)
    (nIn : UInt32) (nHashType : Int32) : Bytes :=
  signatureSerialize scriptCode txTo nIn.toNat nHashType ++ serializeInt32 nHashType

def signatureHash (hashOf : Bytes → UInt256) (scriptCode : CScript)
    (txTo : CMutableTransaction) (nIn : UInt32) (nHashType : Int32) :
    UInt256 :=
  if nIn.toNat ≥ txTo.vin.length then 1
  else if fHashSingle nHashType ∧ nIn.toNat ≥ txTo.vout.length then 1
  else hashOf (signaturePreimage scriptCode txTo nIn nHashType)

/-- The instructions of a script that decodes to its end, each as its
bytes. -/
def instructionsLoop : ℕ → Bytes → Option (List Bytes)
  | 0, pc => if pc = [] then some [] else none
  | fuel + 1, pc =>
    if pc = [] then some []
    else
      match getOp pc with
      | .fail _ => none
      | .ok _ _ next =>
        (instructionsLoop fuel next).map (bytesBetween pc next :: ·)

variable (script : CScript)

def instructions : Option (List Bytes) :=
  instructionsLoop script.length script

def parseable : Bool := (instructions script).isSome

def dropSeparators (parts : List Bytes) : List Bytes :=
  parts.filter (· ≠ [OP_CODESEPARATOR])

def removeCodeSeparators : CScript :=
  match instructions script with
  | some parts => (dropSeparators parts).flatten
  | none => script

theorem bytesBetween_append {front back : Bytes} : bytesBetween (front ++ back) back = front := by
  simp [bytesBetween]

variable {parts : List Bytes} {fuel : ℕ} {pc : Bytes}

theorem instructionsLoop_cons
    (hparts : instructionsLoop (fuel + 1) pc = some parts) (hpc : pc ≠ []) :
    ∃ opcode vch operand next tail,
      getOp pc = .ok opcode vch next ∧ pc = (opcode :: operand) ++ next ∧
        instructionsLoop fuel next = some tail ∧
        parts = (opcode :: operand) :: tail := by
  rw [instructionsLoop, if_neg hpc] at hparts
  cases hop : getOp pc with
  | fail next => simp [hop] at hparts
  | ok opcode vch next =>
    obtain ⟨operand, hsplit⟩ := getOp_ok hop
    have hpart : bytesBetween pc next = opcode :: operand := by
      rw [hsplit, ← cons_append]
      exact bytesBetween_append
    simp only [hop, Option.map_eq_some_iff, hpart] at hparts
    obtain ⟨tail, htail, rfl⟩ := hparts
    exact ⟨opcode, vch, operand, next, tail, rfl, by simpa using hsplit,
      htail, rfl⟩

theorem instruction_eq_separator {pc operand next vch : Bytes} {opcode : UInt8}
    (hop : getOp pc = .ok opcode vch next) (hpc : pc = (opcode :: operand) ++ next) :
    opcode :: operand = [OP_CODESEPARATOR] ↔ opcode = OP_CODESEPARATOR := by
  refine ⟨fun hpart => (cons.inj hpart).1, ?_⟩
  rintro rfl
  have hnext : getOp (OP_CODESEPARATOR :: (operand ++ next)) =
      .ok OP_CODESEPARATOR [] (operand ++ next) := rfl
  rw [hpc, cons_append, hnext] at hop
  simp only [GetOpResult.ok.injEq] at hop
  have hlength := congrArg length hop.2.2
  rw [length_append] at hlength
  have hnil : operand = [] := length_eq_zero_iff.mp (by omega)
  rw [hnil]

theorem instructionsLoop_induction {motive : ℕ → Bytes → List Bytes → Prop}
    (hnil : ∀ fuel, motive fuel [] []) (hcons : ∀ fuel pc opcode vch operand next tail,
    getOp pc = .ok opcode vch next → pc = (opcode :: operand) ++ next → motive fuel next tail →
    motive (fuel + 1) pc ((opcode :: operand) :: tail))
    (hparts : instructionsLoop fuel pc = some parts) : motive fuel pc parts := by
  induction fuel generalizing pc parts with
  | zero =>
    simp only [instructionsLoop] at hparts
    split_ifs at hparts with hpc
    cases hparts
    exact hpc ▸ hnil 0
  | succ fuel ih =>
    by_cases hpc : pc = []
    · subst hpc
      cases hparts
      exact hnil (fuel + 1)
    · obtain ⟨opcode, vch, operand, next, tail, hop, hsplit, htail, rfl⟩ :=
        instructionsLoop_cons hparts hpc
      exact hcons fuel pc opcode vch operand next tail hop hsplit (ih htail)

/-! ## Script codes that do not decode to their end -/

/-- The script code without the separators that decoding meets; what follows the
place where it stops is kept. -/
def withoutSeparators : ℕ → Bytes → Bytes
  | 0, pc => pc
  | fuel + 1, pc =>
    match getOp pc with
    | .fail _ => pc
    | .ok opcode _ next =>
      if opcode = OP_CODESEPARATOR then withoutSeparators fuel next
      else bytesBetween pc next ++ withoutSeparators fuel next

/-- What the iterator has not passed when decoding stops. -/
def unreadBytes : ℕ → Bytes → Bytes
  | 0, pc => pc
  | fuel + 1, pc =>
    match getOp pc with
    | .fail rest => rest
    | .ok _ _ next => unreadBytes fuel next

theorem getOp_fail {script rest : Bytes} (hop : getOp script = .fail rest) :
    ∃ front, script = front ++ rest := by
  cases script with
  | nil =>
    cases hop
    exact ⟨[], rfl⟩
  | cons opcode pc =>
    simp only [getOp] at hop
    split_ifs at hop with hpush hsize hdata
    · cases hop
      exact ⟨[opcode], rfl⟩
    · cases hop
      exact ⟨opcode :: pc.take (sizeBytes opcode), by simp⟩

theorem getOp_separator {pc vch next : Bytes} (hop : getOp pc = .ok OP_CODESEPARATOR vch next) :
    pc = OP_CODESEPARATOR :: next := by
  obtain ⟨operand, hpc⟩ := getOp_ok hop
  rw [← cons_append] at hpc
  rw [hpc, (instruction_eq_separator hop hpc).mpr rfl]
  rfl

theorem countCodeSeparators_add_length (fuel : ℕ) : ∀ pc n,
    countCodeSeparators fuel pc n + (withoutSeparators fuel pc).length = n + pc.length := by
  induction fuel with
  | zero => exact fun _ _ => rfl
  | succ fuel ih =>
    intro pc n
    simp only [countCodeSeparators, withoutSeparators]
    cases hop : getOp pc with
    | fail rest => rfl
    | ok opcode vch next =>
      simp only
      split_ifs with hopcode
      · subst hopcode
        rw [ih, getOp_separator hop, length_cons]
        omega
      · obtain ⟨operand, hpc⟩ := getOp_ok hop
        have hcount := ih next n
        rw [← cons_append] at hpc
        rw [hpc, bytesBetween_append, length_append, length_append]
        omega

theorem writeSegments_append_unread (fuel : ℕ) : ∀ kept pc,
    writeSegments fuel (kept ++ pc) pc ++ unreadBytes fuel pc =
      kept ++ withoutSeparators fuel pc := by
  induction fuel with
  | zero =>
    intro kept pc
    rw [writeSegments, bytesBetween_append, unreadBytes, withoutSeparators]
  | succ fuel ih =>
    intro kept pc
    simp only [writeSegments, unreadBytes, withoutSeparators]
    cases hop : getOp pc with
    | fail rest =>
      obtain ⟨front, rfl⟩ := getOp_fail hop
      simp only
      rw [← append_assoc, bytesBetween_append]
    | ok opcode vch next =>
      simp only
      split_ifs with hopcode
      · subst hopcode
        have hnext := ih [] next
        rw [nil_append, nil_append] at hnext
        rw [getOp_separator hop, append_cons, bytesBetween_append, dropLast_concat,
          append_assoc, hnext]
      · obtain ⟨operand, hpc⟩ := getOp_ok hop
        rw [← cons_append] at hpc
        rw [hpc, bytesBetween_append, ← append_assoc, ih, append_assoc]

theorem serializeScriptCode_append_unread (scriptCode : CScript) :
    serializeScriptCode scriptCode ++ unreadBytes scriptCode.length scriptCode =
      writeBlob (withoutSeparators scriptCode.length scriptCode) := by
  have hcount := countCodeSeparators_add_length scriptCode.length scriptCode 0
  have hsize : scriptCode.length - countCodeSeparators scriptCode.length scriptCode 0 =
      (withoutSeparators scriptCode.length scriptCode).length := by omega
  have hwrite := writeSegments_append_unread scriptCode.length [] scriptCode
  rw [nil_append, nil_append] at hwrite
  rw [serializeScriptCode, writeBlob, hsize, append_assoc, hwrite]

/-- The prefix is the length of what should follow; the bytes past the iterator are not
written. -/
theorem serializeScriptCode_exact_iff (scriptCode : CScript) : serializeScriptCode scriptCode =
        writeBlob (withoutSeparators scriptCode.length scriptCode) ↔
      unreadBytes scriptCode.length scriptCode = [] := by
  rw [← serializeScriptCode_append_unread, List.self_eq_append_right]

/-- A push of five bytes with one byte left: the prefix says two and one byte follows. -/
theorem serializeScriptCode_truncated_push : serializeScriptCode [0x05, 0x01] = [2, 0x05] ∧
      withoutSeparators 2 [0x05, 0x01] = [0x05, 0x01] := by decide

theorem withoutSeparators_eq (hparts : instructionsLoop fuel pc = some parts) :
    withoutSeparators fuel pc = (dropSeparators parts).flatten ∧ unreadBytes fuel pc = [] := by
  refine instructionsLoop_induction (motive := fun fuel pc parts =>
    withoutSeparators fuel pc = (dropSeparators parts).flatten ∧
      unreadBytes fuel pc = []) ?nil ?cons hparts
  case nil =>
    intro fuel
    cases fuel <;> exact ⟨rfl, rfl⟩
  case cons =>
    intro fuel pc opcode vch operand next tail hop hsplit ih
    have hsep := instruction_eq_separator hop hsplit
    have hpart : bytesBetween pc next = opcode :: operand := by
      rw [hsplit, bytesBetween_append]
    simp only [withoutSeparators, unreadBytes, hop, hpart, ih]
    split_ifs with hopcode
    · simp [dropSeparators, hsep.mpr hopcode]
    · simp [dropSeparators, mt hsep.mp hopcode]

variable {scriptCode : CScript}

section
variable (hparse : parseable scriptCode)
include hparse

theorem removeCodeSeparators_eq :
    removeCodeSeparators scriptCode = withoutSeparators scriptCode.length scriptCode ∧
      unreadBytes scriptCode.length scriptCode = [] := by
  obtain ⟨parts, hparts⟩ := Option.isSome_iff_exists.mp hparse
  rw [removeCodeSeparators, hparts]
  exact (withoutSeparators_eq hparts).imp_left Eq.symm

theorem serializeScriptCode_eq :
    serializeScriptCode scriptCode = writeBlob (removeCodeSeparators scriptCode) := by
  have hall := serializeScriptCode_append_unread scriptCode
  obtain ⟨hremove, hunread⟩ := removeCodeSeparators_eq hparse
  rwa [hunread, append_nil, ← hremove] at hall

theorem removeCodeSeparators_length_le :
    (removeCodeSeparators scriptCode).length ≤ scriptCode.length := by
  have hcount := countCodeSeparators_add_length scriptCode.length scriptCode 0
  rw [(removeCodeSeparators_eq hparse).1]
  omega

end

/-! ## The edited copy -/

def signingCopy (scriptCode : CScript) (txTo : CMutableTransaction) (nIn : ℕ)
    (nHashType : Int32) : CMutableTransaction where
  nVersion := txTo.nVersion
  vin :=
    let vin := txTo.vin.mapIdx fun nInput txin =>
      if nInput = nIn then
        { txin with scriptSig := removeCodeSeparators scriptCode }
      else
        { txin with
          scriptSig := []
          nSequence :=
            if fHashSingle nHashType ∨ fHashNone nHashType then 0
            else txin.nSequence }
    if fAnyoneCanPay nHashType then vin[nIn]?.toList else vin
  vout :=
    if fHashNone nHashType then []
    else if fHashSingle nHashType then
      (txTo.vout.take (nIn + 1)).mapIdx fun nOutput txout =>
        if nOutput = nIn then txout else CTxOut.null
    else txTo.vout
  nLockTime := txTo.nLockTime

theorem flatMap_range_getElem? {α β : Type} (l : List α) (f : ℕ → List β) (g : ℕ → α → List β)
    (hread : ∀ i x, l[i]? = some x → f i = g i x) :
    (range l.length).flatMap f = (l.mapIdx g).flatten := by
  induction l generalizing f g with
  | nil => rfl
  | cons first rest ih =>
    have hrest := ih (fun i => f (i + 1)) (fun i => g (i + 1))
      fun i x hx => hread (i + 1) x (by simpa using hx)
    rw [length_cons, range_succ_eq_map, flatMap_cons,
      flatMap_map, mapIdx_cons, flatten_cons, ← hrest, hread 0 first rfl]

theorem flatten_mapIdx {α β γ : Type} {l : List α} {f : ℕ → α → β} {write : β → List γ} :
    (l.mapIdx fun i x => write (f i x)).flatten = (l.mapIdx f).flatMap write := by
  simp [flatMap_def, mapIdx_eq_zipIdx_map, Function.comp_def]

variable {nHashType : Int32} {txTo : CMutableTransaction} {nIn : ℕ}

section
variable (hparse : parseable scriptCode)
include hparse

theorem serializeInput_eq {nInput : ℕ} {txin : CTxIn}
    (hindex : fAnyoneCanPay nHashType → nInput = nIn)
    (htxin : txTo.vin[nInput]? = some txin) :
    serializeInput scriptCode txTo nIn nHashType nInput = (if nInput = nIn then
        { txin with scriptSig := removeCodeSeparators scriptCode }
      else
        { txin with
          scriptSig := []
          nSequence :=
            if fHashSingle nHashType ∨ fHashNone nHashType then 0
            else txin.nSequence } : CTxIn).serialize := by
  have hsame : (if fAnyoneCanPay nHashType then nIn else nInput) = nInput := by
    split_ifs with hany
    · exact (hindex hany).symm
    · rfl
  simp only [serializeInput, hsame, htxin, serializeScriptCode_eq hparse]
  by_cases hsigned : nInput = nIn
  · simp [hsigned, CTxIn.serialize]
  · simp [hsigned]
    split_ifs <;> rfl

theorem serializeInputs_eq (hnIn : nIn < txTo.vin.length) (hvin : txTo.vin.length < 2 ^ 32) :
    writeVector CTxIn.serialize (signingCopy scriptCode txTo nIn nHashType).vin = writeCompactSize
          ((if fAnyoneCanPay nHashType then 1 else txTo.vin.length) % 2 ^ 32) ++
        (range ((if fAnyoneCanPay nHashType then 1 else txTo.vin.length) %
            2 ^ 32)).flatMap (serializeInput scriptCode txTo nIn nHashType) := by
  by_cases hany : fAnyoneCanPay nHashType
  · have htxin : txTo.vin[nIn]? = some (txTo.vin[nIn]) :=
      getElem?_eq_getElem hnIn
    have hfirst : serializeInput scriptCode txTo nIn nHashType 0 =
        serializeInput scriptCode txTo nIn nHashType nIn := by
      simp [serializeInput, hany]
    rw [if_pos hany, Nat.mod_eq_of_lt (by omega), range_one, flatMap_singleton, hfirst,
      serializeInput_eq hparse (fun _ => rfl) htxin]
    simp [signingCopy, hany, writeVector, htxin]
  · have hfalse : ∀ nInput, fAnyoneCanPay nHashType → nInput = nIn :=
      fun _ htrue => absurd htrue hany
    rw [if_neg hany, Nat.mod_eq_of_lt hvin,
      flatMap_range_getElem? txTo.vin _ _ fun nInput txin htxin =>
        serializeInput_eq hparse (hfalse nInput) htxin,
      flatten_mapIdx]
    simp [signingCopy, hany, writeVector]

omit hparse in
theorem serializeOutputs_eq {scriptCode : CScript}
    (hsingle : fHashSingle nHashType → nIn < txTo.vout.length)
    (hvout : txTo.vout.length < 2 ^ 32) :
    writeVector CTxOut.serialize (signingCopy scriptCode txTo nIn nHashType).vout =
      writeCompactSize ((if fHashNone nHashType then 0
            else if fHashSingle nHashType then nIn + 1
            else txTo.vout.length) % 2 ^ 32) ++
        (List.range ((if fHashNone nHashType then 0
            else if fHashSingle nHashType then nIn + 1
            else txTo.vout.length) % 2 ^ 32)).flatMap
          (serializeOutput txTo nIn nHashType) := by
  by_cases hnone : fHashNone nHashType
  · simp [signingCopy, hnone, writeVector]
  by_cases hone : fHashSingle nHashType
  · have hlt := hsingle hone
    have htake : (txTo.vout.take (nIn + 1)).length = nIn + 1 := by
      simp
      omega
    have hread : ∀ i x, (txTo.vout.take (nIn + 1))[i]? = some x →
        serializeOutput txTo nIn nHashType i =
          (if i = nIn then x else CTxOut.null).serialize := by
      intro i x hx
      have hi : i < nIn + 1 := by
        have := (List.getElem?_eq_some_iff.mp hx).1
        omega
      rw [List.getElem?_take_of_lt hi] at hx
      simp only [serializeOutput, hx, hone, true_and, ne_eq, ite_not]
      split_ifs <;> rfl
    have hloop := flatMap_range_getElem? _ _ _ hread
    rw [htake] at hloop
    rw [if_neg hnone, if_pos hone, Nat.mod_eq_of_lt (by omega), hloop, flatten_mapIdx]
    simp [signingCopy, if_neg hnone, if_pos hone, writeVector, htake]
  · have hread : ∀ i x, txTo.vout[i]? = some x →
        serializeOutput txTo nIn nHashType i = x.serialize := by
      intro i x hx
      simp [serializeOutput, hx, hone]
    have hself : txTo.vout.mapIdx (fun _ txout => txout) = txTo.vout := by
      simp [List.mapIdx_eq_zipIdx_map]
    rw [if_neg hnone, if_neg hone, Nat.mod_eq_of_lt hvout,
      flatMap_range_getElem? _ _ _ hread, flatten_mapIdx, hself]
    simp [signingCopy, if_neg hnone, if_neg hone, writeVector]

theorem signatureSerialize_eq (hnIn : nIn < txTo.vin.length)
    (hsingle : fHashSingle nHashType → nIn < txTo.vout.length)
    (hvin : txTo.vin.length < 2 ^ 32) (hvout : txTo.vout.length < 2 ^ 32) :
    signatureSerialize scriptCode txTo nIn nHashType =
      (signingCopy scriptCode txTo nIn nHashType).serialize := by
  rw [serialize, serializeInputs_eq hparse hnIn hvin, serializeOutputs_eq hsingle hvout]
  simp only [append_assoc]
  rfl

end

theorem CTxIn.prefixInjective_serialize : PrefixInjective CTxIn.serialize fun txin =>
    txin.scriptSig.length < 2 ^ 64 := by
  have houtpoint := PrefixInjective.of_reads_total COutPoint.reads_unserialize
  have hsequence := PrefixInjective.of_reads_total reads_unserializeUInt32
  have hfields := houtpoint.append (prefixInjective_writeBlob.append hsequence)
  intro a b ha hb x y heq
  obtain ⟨hsame, hrest⟩ := hfields (a.prevout, a.scriptSig, a.nSequence)
    (b.prevout, b.scriptSig, b.nSequence) ⟨trivial, ha, trivial⟩ ⟨trivial, hb, trivial⟩ x y heq
  refine ⟨?_, hrest⟩
  cases a
  cases b
  simpa using hsame

def writeWireFields (fields : CAmount × CScript × Bytes) : Bytes :=
  serializeAmount fields.1 ++ (writeBlob fields.2.1 ++ writeBlob fields.2.2)

theorem prefixInjective_writeWireFields : PrefixInjective writeWireFields fun fields =>
    True ∧ fields.2.1.length < 2 ^ 64 ∧ fields.2.2.length < 2 ^ 64 :=
  (PrefixInjective.of_reads_total reads_unserializeAmount).append
    (prefixInjective_writeBlob.append prefixInjective_writeBlob)

theorem writeVector_serialize_eq {vout : List CTxOut} : writeVector CTxOut.serialize vout =
    writeVector writeWireFields (vout.map CTxOut.wireFields) := by
  simp only [writeVector, flatMap_map, length_map]
  rfl

structure CMutableTransaction.FitsSizes (tx : CMutableTransaction) : Prop where
  vin : tx.vin.length < 2 ^ 64
  scriptSigs : ∀ txin ∈ tx.vin, txin.scriptSig.length < 2 ^ 64
  vout : tx.vout.length < 2 ^ 64
  scripts : ∀ txout ∈ tx.vout, txout.scriptPubKey.length < 2 ^ 64
  images : ∀ txout ∈ tx.vout, txout.imgbase64.length < 2 ^ 64

theorem CMutableTransaction.serialize_injective {a b : CMutableTransaction} (ha : a.FitsSizes)
    (hb : b.FitsSizes) {x y : Bytes} (heq : a.serialize ++ x = b.serialize ++ y) :
    a.nVersion = b.nVersion ∧ a.vin = b.vin ∧
      a.vout.map CTxOut.wireFields = b.vout.map CTxOut.wireFields ∧
      a.nLockTime = b.nLockTime ∧ x = y := by
  have hversion := PrefixInjective.of_reads_total reads_unserializeInt32
  have hlocktime := PrefixInjective.of_reads_total reads_unserializeUInt32
  have hvin := prefixInjective_writeVector CTxIn.prefixInjective_serialize
  have hvout := prefixInjective_writeVector prefixInjective_writeWireFields
  have hfields : ∀ {tx : CMutableTransaction}, tx.FitsSizes →
      (tx.vout.map CTxOut.wireFields).length < 2 ^ 64 ∧ ∀ fields ∈ tx.vout.map CTxOut.wireFields,
          True ∧ fields.2.1.length < 2 ^ 64 ∧ fields.2.2.length < 2 ^ 64 := by
    intro tx htx
    refine ⟨by simpa using htx.vout, ?_⟩
    intro fields hmem
    obtain ⟨txout, htxout, rfl⟩ := mem_map.mp hmem
    exact ⟨trivial, htx.scripts txout htxout, htx.images txout htxout⟩
  simp only [serialize, writeVector_serialize_eq] at heq
  obtain ⟨hsame, hrest⟩ :=
    (hversion.append (hvin.append (hvout.append hlocktime))) (a.nVersion, a.vin,
      a.vout.map CTxOut.wireFields, a.nLockTime) (b.nVersion, b.vin, b.vout.map CTxOut.wireFields,
      b.nLockTime) ⟨trivial, ⟨ha.vin, ha.scriptSigs⟩, hfields ha, trivial⟩
      ⟨trivial, ⟨hb.vin, hb.scriptSigs⟩, hfields hb, trivial⟩ x y heq
  simp only [Prod.mk.injEq] at hsame
  exact ⟨hsame.1, hsame.2.1, hsame.2.2.1, hsame.2.2.2, hrest⟩

/-! ## What a signature commits to -/

/-- The sizes that the serializer keeps in machine integers fit them: the
numbers of inputs and outputs an `unsigned int`, byte lengths a `size_t`. -/
structure SignatureSizes (scriptCode : CScript) (txTo : CMutableTransaction) : Prop where
  scriptCode : scriptCode.length < 2 ^ 64
  vin : txTo.vin.length < 2 ^ 32
  vout : txTo.vout.length < 2 ^ 32
  scripts : ∀ txout ∈ txTo.vout, txout.scriptPubKey.length < 2 ^ 64
  images : ∀ txout ∈ txTo.vout, txout.imgbase64.length < 2 ^ 64

/-- The hash type covers all inputs and outputs. -/
structure SignsAll (nHashType : Int32) : Prop where
  all : nHashType &&& 0x1f = SIGHASH_ALL
  notAnyone : fAnyoneCanPay nHashType = false

section
variable (hall : SignsAll nHashType)
include hall

theorem SignsAll.not_single : fHashSingle nHashType = false := by
  simp [fHashSingle, hall.all, SIGHASH_ALL, SIGHASH_SINGLE]

theorem SignsAll.not_none : fHashNone nHashType = false := by
  simp [fHashNone, hall.all, SIGHASH_ALL, SIGHASH_NONE]

theorem SignsAll.signatureHash_eq (hashOf : Bytes → UInt256) {nIn : UInt32}
    (hnIn : nIn.toNat < txTo.vin.length) :
    signatureHash hashOf scriptCode txTo nIn nHashType =
      hashOf (signaturePreimage scriptCode txTo nIn nHashType) := by
  rw [signatureHash, if_neg (by omega), if_neg (by simp [hall.not_single])]

theorem SignsAll.signingCopy_eq : signingCopy scriptCode txTo nIn nHashType = { txTo with
    vin := txTo.vin.mapIdx fun nInput txin =>
      { txin with
        scriptSig :=
              if nInput = nIn then removeCodeSeparators scriptCode else [] } } := by
  simp only [signingCopy, hall.notAnyone, hall.not_none, hall.not_single,
    Bool.false_eq_true, or_self, if_false]
  congr 1
  refine ext_getElem? fun i => ?_
  simp only [getElem?_mapIdx]
  split_ifs <;> rfl

theorem SignsAll.signingCopy_fits (hparse : parseable scriptCode)
    (hsizes : SignatureSizes scriptCode txTo) :
    (signingCopy scriptCode txTo nIn nHashType).FitsSizes := by
  have hscript := removeCodeSeparators_length_le hparse
  have hcode := hsizes.scriptCode
  have hvin := hsizes.vin
  have hvout := hsizes.vout
  rw [hall.signingCopy_eq]
  refine ⟨by simp; omega, ?_, by simp; omega, hsizes.scripts, hsizes.images⟩
  intro txin hmem
  obtain ⟨i, hi, rfl⟩ := mem_mapIdx.mp hmem
  simp only
  split_ifs
  · omega
  · simp

theorem SignsAll.signingCopy_field {α : Type} {field : CTxIn → α}
    (hfield : ∀ txin script, field { txin with scriptSig := script } = field txin) :
    (signingCopy scriptCode txTo nIn nHashType).vin.map field = txTo.vin.map field := by
  rw [hall.signingCopy_eq]
  refine ext_getElem? fun i => ?_
  simp [Function.comp_def, hfield]

theorem SignsAll.signingCopy_signedScript (hnIn : nIn < txTo.vin.length) :
    ((signingCopy scriptCode txTo nIn nHashType).vin.map CTxIn.scriptSig)[nIn]? =
      some (removeCodeSeparators scriptCode) := by
  rw [hall.signingCopy_eq]
  simp [getElem?_eq_getElem hnIn]

end

/-- Without a collision on the two messages, equal signature hashes over all inputs and outputs
mean equal transactions up to scripts, and script codes that agree up to code separators. -/
theorem signatureHash_commits (hashOf : Bytes → UInt256)
    (scriptCode scriptCode' : CScript) (txTo txTo' : CMutableTransaction)
    (nIn : UInt32) (nHashType : Int32) (hall : SignsAll nHashType)
    (hnIn : nIn.toNat < txTo.vin.length) (hnIn' : nIn.toNat < txTo'.vin.length)
    (hparse : parseable scriptCode) (hparse' : parseable scriptCode')
    (hsizes : SignatureSizes scriptCode txTo) (hsizes' : SignatureSizes scriptCode' txTo')
    (hfree : Set.InjOn hashOf {signaturePreimage scriptCode txTo nIn nHashType,
    signaturePreimage scriptCode' txTo' nIn nHashType})
    (hhash : signatureHash hashOf scriptCode txTo nIn nHashType =
    signatureHash hashOf scriptCode' txTo' nIn nHashType) :
    txTo.nVersion = txTo'.nVersion ∧ txTo.nLockTime = txTo'.nLockTime ∧
      txTo.vin.map CTxIn.prevout = txTo'.vin.map CTxIn.prevout ∧
      txTo.vin.map CTxIn.nSequence = txTo'.vin.map CTxIn.nSequence ∧
      removeCodeSeparators scriptCode = removeCodeSeparators scriptCode' ∧
      txTo.vout.map CTxOut.wireFields = txTo'.vout.map CTxOut.wireFields := by
  have hsingle : ∀ tx : CMutableTransaction,
      fHashSingle nHashType → nIn.toNat < tx.vout.length := by
    simp [hall.not_single]
  rw [hall.signatureHash_eq hashOf hnIn, hall.signatureHash_eq hashOf hnIn'] at hhash
  have hpreimage := hfree (Set.mem_insert _ _) (Set.mem_insert_of_mem _ rfl) hhash
  rw [signaturePreimage, signaturePreimage,
    signatureSerialize_eq hparse hnIn (hsingle _) hsizes.vin hsizes.vout,
    signatureSerialize_eq hparse' hnIn' (hsingle _) hsizes'.vin hsizes'.vout] at hpreimage
  obtain ⟨hversion, hvin, hvout, hlocktime, -⟩ :=
    CMutableTransaction.serialize_injective (hall.signingCopy_fits hparse hsizes)
      (hall.signingCopy_fits hparse' hsizes') hpreimage
  have hscript := congrArg (fun vin => (vin.map CTxIn.scriptSig)[nIn.toNat]?) hvin
  simp only [hall.signingCopy_signedScript hnIn,
    hall.signingCopy_signedScript hnIn', Option.some.injEq] at hscript
  have hprevouts := congrArg (List.map CTxIn.prevout) hvin
  have hsequences := congrArg (List.map CTxIn.nSequence) hvin
  rw [hall.signingCopy_field fun _ _ => rfl,
    hall.signingCopy_field fun _ _ => rfl] at hprevouts hsequences
  rw [hall.signingCopy_eq, hall.signingCopy_eq] at hvout
  exact ⟨hversion, hlocktime, hprevouts, hsequences, hscript, hvout⟩

/-- A transaction that spends the given outpoints to one output with an
image. -/
def spendingTransaction (prevouts : List COutPoint) : CMutableTransaction where
  nVersion := 1
  vin := prevouts.map fun prevout => ⟨prevout, [], 0xffffffff⟩
  vout := [{ nValue := 5, scriptPubKey := [OP_1], imgbase64 := [0x41] }]
  nLockTime := 0

theorem signatureHash_commits_codeSeparator : signatureHash (fun _ => 0) [OP_CODESEPARATOR, OP_1]
        (spendingTransaction [⟨7, 0⟩]) 0 SIGHASH_ALL =
      signatureHash (fun _ => 0) [OP_1] (spendingTransaction [⟨7, 0⟩]) 0 SIGHASH_ALL ∧
      removeCodeSeparators [OP_CODESEPARATOR, OP_1] = removeCodeSeparators [OP_1] := by
  have hsizes : ∀ scriptCode : CScript, scriptCode.length < 2 ^ 64 →
      SignatureSizes scriptCode (spendingTransaction [⟨7, 0⟩]) :=
    fun scriptCode hlength =>
      ⟨hlength, by decide, by decide, by decide, by decide⟩
  have hsame : signaturePreimage [OP_CODESEPARATOR, OP_1]
        (spendingTransaction [⟨7, 0⟩]) 0 SIGHASH_ALL =
      signaturePreimage [OP_1] (spendingTransaction [⟨7, 0⟩]) 0
        SIGHASH_ALL := by
    decide +kernel
  have hcommits := signatureHash_commits (fun _ => 0) [OP_CODESEPARATOR, OP_1]
    [OP_1] (spendingTransaction [⟨7, 0⟩]) (spendingTransaction [⟨7, 0⟩]) 0
    SIGHASH_ALL ⟨by decide, by decide⟩ (by decide) (by decide) (by decide)
    (by decide) (hsizes _ (by decide)) (hsizes _ (by decide))
    (by rw [hsame, Set.pair_eq_singleton]; exact Set.injOn_singleton _ _) rfl
  exact ⟨rfl, hcommits.2.2.2.2.1⟩

theorem signaturePreimage_wrap {rest : List COutPoint}
    (hrest : rest.length = 2 ^ 32) {first : COutPoint} :
    signaturePreimage scriptCode (spendingTransaction (first :: rest)) 0 SIGHASH_ALL =
      signaturePreimage scriptCode (spendingTransaction [first]) 0
        SIGHASH_ALL := by
  have hinput : ∀ later : List COutPoint,
      serializeInput scriptCode (spendingTransaction (first :: later)) 0 SIGHASH_ALL 0 =
        first.serialize ++ (serializeScriptCode scriptCode ++ serializeUInt32 0xffffffff) := by
    intro later
    simp [serializeInput, spendingTransaction]
  have hcount : (spendingTransaction (first :: rest)).vin.length % 2 ^ 32 = 1 := by
    simp [spendingTransaction, hrest]
  have hone : (spendingTransaction [first]).vin.length % 2 ^ 32 = 1 := rfl
  have hany : fAnyoneCanPay SIGHASH_ALL = false := by decide
  simp only [signaturePreimage, signatureSerialize, hany, Bool.false_eq_true, if_false, hcount,
    hone]
  rfl

/-- Two transactions that spend different outpoints but have the same
signature hash, whatever the hash function: the serializer counts inputs in
32 bits. -/
theorem signatureHash_wrap_same : ∃ (scriptCode : CScript) (txTo txTo' : CMutableTransaction),
      parseable scriptCode ∧ 0 < txTo.vin.length ∧ 0 < txTo'.vin.length ∧
        (∀ hashOf : Bytes → UInt256, signatureHash hashOf scriptCode txTo 0 SIGHASH_ALL =
            signatureHash hashOf scriptCode txTo' 0 SIGHASH_ALL) ∧
        txTo.vin.map CTxIn.prevout ≠ txTo'.vin.map CTxIn.prevout := by
  -- The number of further inputs stays a variable so that nothing unfolds it.
  obtain ⟨count, hcount⟩ : ∃ count, count = 2 ^ 32 := ⟨2 ^ 32, rfl⟩
  have hpositive : 0 < count := by omega
  refine ⟨[OP_1], spendingTransaction (⟨7, 0⟩ :: List.replicate count ⟨8, 0⟩),
    spendingTransaction (⟨7, 0⟩ :: List.replicate count ⟨9, 0⟩),
    by decide, by simp [spendingTransaction], by simp [spendingTransaction],
    ?_, ?_⟩
  · intro hashOf
    have hall : SignsAll SIGHASH_ALL := ⟨by decide, by decide⟩
    have hlength : ∀ o : COutPoint, (List.replicate count o).length = 2 ^ 32 :=
      fun o => by rw [List.length_replicate, hcount]
    rw [hall.signatureHash_eq hashOf (by simp [spendingTransaction]),
      hall.signatureHash_eq hashOf (by simp [spendingTransaction]),
      signaturePreimage_wrap (hlength _), signaturePreimage_wrap (hlength _)]
  · intro hsame
    have hsecond := congrArg (fun prevouts => prevouts[1]?) hsame
    simp [spendingTransaction, hpositive] at hsecond

end ImageCoin
