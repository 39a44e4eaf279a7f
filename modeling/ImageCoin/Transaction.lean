import ImageCoin.Amount
import ImageCoin.Script

/-!
# Transactions

The transaction types of `primitives/transaction.h`, their network serialization, and the
context-free checks of `CheckTransaction`.
-/

namespace ImageCoin

open ByteStream List Option

structure COutPoint where
  hash : UInt256
  n : UInt32
  deriving DecidableEq, Repr

def COutPoint.isNull (o : COutPoint) : Bool :=
  o.hash = 0 && o.n = 0xffffffff

structure CTxIn where
  prevout : COutPoint
  scriptSig : CScript
  nSequence : UInt32
  deriving DecidableEq, Repr

/-- An output; `nRounds` is never serialized and starts at its default. -/
structure CTxOut where
  nValue : CAmount
  scriptPubKey : CScript
  imgbase64 : Bytes
  nRounds : Int32 := -10
  deriving DecidableEq

def CTxOut.null : CTxOut :=
  { nValue := -1, scriptPubKey := [], imgbase64 := [] }

def CTxOut.isNull (out : CTxOut) : Bool := out.nValue = -1

structure CMutableTransaction where
  nVersion : Int32
  vin : List CTxIn
  vout : List CTxOut
  nLockTime : UInt32
  deriving DecidableEq

structure CTransaction extends CMutableTransaction where
  hash : UInt256
  deriving DecidableEq

variable (tx : CTransaction)

def CTransaction.isCoinBase : Bool :=
  match tx.vin with
  | [txin] => txin.prevout.isNull
  | _ => false

def serializeUInt256 (h : UInt256) : Bytes := leBytes 32 h.toNat

def serializeUInt32 (n : UInt32) : Bytes := leBytes 4 n.toNat

def serializeInt32 (n : Int32) : Bytes := serializeUInt32 n.toUInt32

def serializeAmount (n : CAmount) : Bytes := leBytes 8 n.toUInt64.toNat

def COutPoint.serialize (o : COutPoint) : Bytes :=
  serializeUInt256 o.hash ++ serializeUInt32 o.n

def CTxIn.serialize (txin : CTxIn) : Bytes :=
  txin.prevout.serialize ++ (writeBlob txin.scriptSig ++ serializeUInt32 txin.nSequence)

def CTxOut.serialize (txout : CTxOut) : Bytes :=
  serializeAmount txout.nValue ++ (writeBlob txout.scriptPubKey ++ writeBlob txout.imgbase64)

def CMutableTransaction.serialize (tx : CMutableTransaction) : Bytes :=
  serializeInt32 tx.nVersion ++ (writeVector CTxIn.serialize tx.vin ++
      (writeVector CTxOut.serialize tx.vout ++ serializeUInt32 tx.nLockTime))

/-- The constructor from a `CMutableTransaction`, which caches the hash of the
serialization. -/
def CTransaction.ofMutable (hashOf : Bytes → UInt256) (tx : CMutableTransaction) : CTransaction :=
  { tx with hash := hashOf tx.serialize }

def CMutableTransaction.getSerializeSize (tx : CMutableTransaction) : ℕ :=
  tx.serialize.length % 2 ^ 32

def addInRange (nValueOut nValue : CAmount) : Option CAmount :=
  if moneyRange nValue && moneyRange (nValueOut + nValue) then
    some (nValueOut + nValue)
  else none

/-- `CTransaction::GetValueOut`, which throws when a value or a partial sum
is out of range. -/
def CMutableTransaction.getValueOut (tx : CMutableTransaction) : Option CAmount :=
  tx.vout.foldlM (fun nValueOut txout => addInRange nValueOut txout.nValue) 0

def totalOut (vout : List CTxOut) : ℤ :=
  (vout.map fun txout => txout.nValue.toInt).sum

theorem addInRange_eq_some {nValueOut nValue sum : CAmount} (hstart : moneyRange nValueOut)
    (hadd : addInRange nValueOut nValue = some sum) :
    moneyRange sum ∧ sum.toInt = nValueOut.toInt + nValue.toInt := by
  simp only [addInRange, Bool.and_eq_true] at hadd
  split_ifs at hadd with hrange
  cases hadd
  exact ⟨hrange.2, toInt_add_of_moneyRange hstart hrange.1⟩

variable {vout : List CTxOut} {start sum : CAmount}

theorem foldlM_addInRange_eq_some (hstart : moneyRange start)
    (hfold : vout.foldlM (fun nValueOut txout => addInRange nValueOut txout.nValue) start =
    some sum) : moneyRange sum ∧ sum.toInt = start.toInt + totalOut vout := by
  induction vout generalizing start with
  | nil =>
    cases hfold
    simpa [totalOut] using hstart
  | cons txout vout ih =>
    rw [foldlM_cons, bind_eq_bind, bind_eq_some_iff] at hfold
    obtain ⟨next, hnext, hrest⟩ := hfold
    obtain ⟨hrange, hexact⟩ := addInRange_eq_some hstart hnext
    obtain ⟨hsum, htotal⟩ := ih hrange hrest
    refine ⟨hsum, ?_⟩
    rw [htotal, hexact]
    simp only [totalOut, map_cons, sum_cons]
    ring

variable {nValueOut : CAmount}

theorem getValueOut_eq_some {tx : CMutableTransaction} (hout : tx.getValueOut = some nValueOut) :
    moneyRange nValueOut ∧ nValueOut.toInt = totalOut tx.vout := by
  simpa using foldlM_addInRange_eq_some (by decide) hout

theorem foldlM_addInRange_of_total {start : CAmount} (hstart : moneyRange start)
    (hvalues : ∀ txout ∈ vout, moneyRange txout.nValue)
    (htotal : start.toInt + totalOut vout ≤ maxMoney.toInt) :
    ∃ sum, vout.foldlM
      (fun nValueOut txout => addInRange nValueOut txout.nValue) start = some sum := by
  induction vout generalizing start with
  | nil => exact ⟨start, rfl⟩
  | cons txout vout ih =>
    obtain ⟨hvalue, hvalues⟩ := forall_mem_cons.mp hvalues
    have hrest : 0 ≤ totalOut vout := by
      refine sum_nonneg fun x hx => ?_
      obtain ⟨other, hother, rfl⟩ := mem_map.mp hx
      exact (moneyRange_iff.mp (hvalues other hother)).1
    have hsum := toInt_add_of_moneyRange hstart hvalue
    simp only [totalOut, map_cons, sum_cons] at htotal hrest
    rw [maxMoney_toInt] at htotal
    have hnext : moneyRange (start + txout.nValue) := by
      rw [moneyRange_iff] at hstart hvalue ⊢
      omega
    obtain ⟨sum, hfold⟩ := ih hnext hvalues (by rw [maxMoney_toInt, totalOut]; omega)
    refine ⟨sum, ?_⟩
    rw [foldlM_cons, bind_eq_bind, addInRange, if_pos (by simp [hvalue, hnext]), bind_some, hfold]

theorem getValueOut_of_total {tx : CMutableTransaction}
    (hvalues : ∀ txout ∈ tx.vout, moneyRange txout.nValue)
    (htotal : totalOut tx.vout ≤ maxMoney.toInt) : ∃ nValueOut, tx.getValueOut = some nValueOut :=
  foldlM_addInRange_of_total (by decide) hvalues (by simpa using htotal)

theorem moneyRange_of_foldlM (hfold : vout.foldlM
      (fun nValueOut txout => addInRange nValueOut txout.nValue) start = some sum) :
    ∀ txout ∈ vout, moneyRange txout.nValue := by
  induction vout generalizing start with
  | nil => exact fun _ hmem => nomatch hmem
  | cons txout vout ih =>
    rw [foldlM_cons, bind_eq_bind, bind_eq_some_iff] at hfold
    obtain ⟨next, hnext, hrest⟩ := hfold
    simp only [addInRange, Bool.and_eq_true] at hnext
    split_ifs at hnext with hrange
    exact forall_mem_cons.mpr ⟨hrange.1, ih hrest⟩

/-- What `CValidationState::DoS` records. -/
structure DoS where
  level : ℕ
  chRejectCode : ℕ
  strRejectReason : String
  deriving DecidableEq, Repr

def rejectInvalid : ℕ := 0x10

def maxLegacyBlockSize : ℕ := 50000000

def checkOutputs : List CTxOut → CAmount → Except DoS Unit
  | [], _ => .ok ()
  | txout :: vout, nValueOut =>
    if txout.nValue < 0 then
      .error ⟨100, rejectInvalid, "bad-txns-vout-negative"⟩
    else if txout.nValue > maxMoney then
      .error ⟨100, rejectInvalid, "bad-txns-vout-toolarge"⟩
    else if !moneyRange (nValueOut + txout.nValue) then
      .error ⟨100, rejectInvalid, "bad-txns-txouttotal-toolarge"⟩
    else checkOutputs vout (nValueOut + txout.nValue)

def checkDuplicateInputs : List CTxIn → List COutPoint → Except DoS Unit
  | [], _ => .ok ()
  | txin :: vin, vInOutPoints =>
    if txin.prevout ∈ vInOutPoints then
      .error ⟨100, rejectInvalid, "bad-txns-inputs-duplicate"⟩
    else checkDuplicateInputs vin (txin.prevout :: vInOutPoints)

/-- The last part of `CheckTransaction`: the script of a coinbase input has a
length limit, and no other transaction has a null input. -/
def checkPrevouts : Except DoS Unit :=
  if tx.isCoinBase then
    let size := (tx.vin.map fun txin => txin.scriptSig.length).headD 0
    if size < 2 ∨ size > 100 then
      .error ⟨100, rejectInvalid, "bad-cb-length"⟩
    else .ok ()
  else if tx.vin.any fun txin => txin.prevout.isNull then
    .error ⟨10, rejectInvalid, "bad-txns-prevout-null"⟩
  else .ok ()

def checkTransaction : Except DoS Unit := do
  if tx.vin = [] then
    throw ⟨10, rejectInvalid, "bad-txns-vin-empty"⟩
  if tx.vout = [] then
    throw ⟨10, rejectInvalid, "bad-txns-vout-empty"⟩
  if tx.getSerializeSize > maxLegacyBlockSize then
    throw ⟨100, rejectInvalid, "bad-txns-oversize"⟩
  checkOutputs tx.vout 0
  checkDuplicateInputs tx.vin []
  checkPrevouts tx

theorem checkOutputs_ok (hstart : moneyRange nValueOut)
    (hcheck : checkOutputs vout nValueOut = .ok ()) :
    (∀ txout ∈ vout, moneyRange txout.nValue) ∧
      nValueOut.toInt + totalOut vout ≤ maxMoney.toInt := by
  induction vout generalizing nValueOut with
  | nil =>
    rw [moneyRange_iff] at hstart
    simpa [totalOut, maxMoney_toInt] using hstart.2
  | cons txout vout ih =>
    simp only [checkOutputs] at hcheck
    split_ifs at hcheck with hneg hlarge hsum
    have hvalue : moneyRange txout.nValue := by
      simp only [Int64.lt_iff_toInt_lt, maxMoney_toInt, Int64.toInt_zero] at hneg hlarge
      rw [moneyRange_iff]
      omega
    have hnext : moneyRange (nValueOut + txout.nValue) := by
      simpa using hsum
    obtain ⟨hvalues, htotal⟩ := ih hnext hcheck
    rw [toInt_add_of_moneyRange hstart hvalue] at htotal
    refine ⟨?_, ?_⟩
    · intro other hmem
      rcases mem_cons.mp hmem with rfl | hmem
      · exact hvalue
      · exact hvalues other hmem
    · simp only [totalOut, map_cons, sum_cons] at htotal ⊢
      omega

theorem checkDuplicateInputs_ok {vin : List CTxIn} {seen : List COutPoint}
    (hcheck : checkDuplicateInputs vin seen = .ok ()) :
    (vin.map CTxIn.prevout).Nodup ∧ ∀ txin ∈ vin, txin.prevout ∉ seen := by
  induction vin generalizing seen with
  | nil => simp
  | cons txin vin ih =>
    simp only [checkDuplicateInputs] at hcheck
    split_ifs at hcheck with hseen
    obtain ⟨hnodup, hfresh⟩ := ih hcheck
    refine ⟨?_, ?_⟩
    · rw [map_cons, nodup_cons]
      refine ⟨?_, hnodup⟩
      intro hmem
      obtain ⟨other, hother, heq⟩ := mem_map.mp hmem
      exact hfresh other hother (by simp [heq])
    · intro other hmem
      rcases mem_cons.mp hmem with rfl | hmem
      · exact hseen
      · exact fun hold => hfresh other hmem (mem_cons_of_mem _ hold)

/-- What acceptance by `CheckTransaction` says about a transaction. -/
structure CTransaction.WellFormed (tx : CTransaction) : Prop where
  vin_ne_nil : tx.vin ≠ []
  vout_ne_nil : tx.vout ≠ []
  size : tx.getSerializeSize ≤ maxLegacyBlockSize
  values : ∀ txout ∈ tx.vout, moneyRange txout.nValue
  total : totalOut tx.vout ≤ maxMoney.toInt
  nodup : (tx.vin.map CTxIn.prevout).Nodup
  prevouts : checkPrevouts tx = .ok ()

theorem checkTransaction_ok {tx : CTransaction}
    (hcheck : checkTransaction tx = .ok ()) : tx.WellFormed := by
  simp only [checkTransaction, bind, Except.bind, throw, throwThe, MonadExceptOf.throw] at hcheck
  split_ifs at hcheck with hvin hvout hsize
  cases houts : checkOutputs tx.vout 0 with
  | error e => simp [houts] at hcheck
  | ok =>
    cases hdup : checkDuplicateInputs tx.vin [] with
    | error e => simp [houts, hdup] at hcheck
    | ok =>
      obtain ⟨hvalues, htotal⟩ := checkOutputs_ok (by decide) houts
      exact {
        vin_ne_nil := hvin
        vout_ne_nil := hvout
        size := Nat.le_of_not_lt hsize
        values := hvalues
        total := by simpa using htotal
        nodup := (checkDuplicateInputs_ok hdup).1
        prevouts := by simpa [houts, hdup] using hcheck }

end ImageCoin
