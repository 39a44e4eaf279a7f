import ImageCoin.Transaction

/-!
# Reading transactions

The readers that `READWRITE` derives for the transaction types, and the round trip through the
network serialization.
-/

namespace ImageCoin

open ByteStream CTransaction List

def unserializeUInt256 : Reader UInt256 := BitVec.ofNat 256 <$> readLE 32

def unserializeUInt32 : Reader UInt32 := UInt32.ofNat <$> readLE 4

def unserializeInt32 : Reader Int32 := UInt32.toInt32 <$> unserializeUInt32

def unserializeAmount : Reader CAmount :=
  (fun n => (UInt64.ofNat n).toInt64) <$> readLE 8

def COutPoint.unserialize : Reader COutPoint := do
  let hash ← unserializeUInt256
  let n ← unserializeUInt32
  pure ⟨hash, n⟩

def CTxIn.unserialize : Reader CTxIn := do
  let prevout ← COutPoint.unserialize
  let scriptSig ← readBlob
  let nSequence ← unserializeUInt32
  pure ⟨prevout, scriptSig, nSequence⟩

/-- Reading into a default-constructed output leaves `nRounds` at its
default. -/
def CTxOut.unserialize : Reader CTxOut := do
  let nValue ← unserializeAmount
  let scriptPubKey ← readBlob
  let imgbase64 ← readString
  pure { nValue, scriptPubKey, imgbase64 }

def sizeOfCTxIn : ℕ := 72

def sizeOfCTxOut : ℕ := 80

def CMutableTransaction.unserialize : Reader CMutableTransaction := do
  let nVersion ← unserializeInt32
  let vin ← readVector sizeOfCTxIn CTxIn.unserialize
  let vout ← readVector sizeOfCTxOut CTxOut.unserialize
  let nLockTime ← unserializeUInt32
  pure ⟨nVersion, vin, vout, nLockTime⟩

def CTransaction.unserialize (hashOf : Bytes → UInt256) : Reader CTransaction :=
  ofMutable hashOf <$> CMutableTransaction.unserialize

theorem reads_unserializeUInt256 (h : UInt256) :
    Reads unserializeUInt256 (serializeUInt256 h) h := by
  have hread : Reads (readLE 32) (serializeUInt256 h) h.toNat :=
    reads_readLE (by have := h.isLt; omega)
  simpa [unserializeUInt256] using hread.map (BitVec.ofNat 256)

theorem reads_unserializeUInt32 (n : UInt32) : Reads unserializeUInt32 (serializeUInt32 n) n := by
  have hread : Reads (readLE 4) (serializeUInt32 n) n.toNat :=
    reads_readLE (by have := n.toNat_lt; omega)
  simpa [unserializeUInt32] using hread.map UInt32.ofNat

theorem reads_unserializeInt32 (n : Int32) : Reads unserializeInt32 (serializeInt32 n) n := by
  simpa [unserializeInt32, serializeInt32] using
    (reads_unserializeUInt32 n.toUInt32).map UInt32.toInt32

theorem reads_unserializeAmount (n : CAmount) : Reads unserializeAmount (serializeAmount n) n := by
  have hread : Reads (readLE 8) (serializeAmount n) n.toUInt64.toNat :=
    reads_readLE (by have := n.toUInt64.toNat_lt; omega)
  simpa [unserializeAmount] using hread.map fun n => (UInt64.ofNat n).toInt64

theorem COutPoint.reads_unserialize (o : COutPoint) :
    Reads COutPoint.unserialize o.serialize o := by
  refine .bind rfl (reads_unserializeUInt256 o.hash) ?_
  exact .bind (append_nil _).symm (reads_unserializeUInt32 o.n) (.pure _)

theorem CTxIn.reads_unserialize {txin : CTxIn} (hscript : txin.scriptSig.length ≤ maxSize) :
    Reads CTxIn.unserialize txin.serialize txin := by
  refine .bind rfl (COutPoint.reads_unserialize txin.prevout) ?_
  refine .bind rfl (reads_readBlob hscript) ?_
  exact .bind (append_nil _).symm (reads_unserializeUInt32 txin.nSequence) (.pure _)

variable (txout : CTxOut)

def CTxOut.fromWire : CTxOut :=
  { txout with nRounds := CTxOut.null.nRounds }

@[simp] theorem CTxOut.fromWire_serialize : txout.fromWire.serialize = txout.serialize := rfl

/-- The lengths of an output that the reader bounds. -/
structure CTxOut.WithinMaxSize (txout : CTxOut) : Prop where
  scriptPubKey : txout.scriptPubKey.length ≤ maxSize
  imgbase64 : txout.imgbase64.length ≤ maxSize

theorem CTxOut.reads_unserialize {txout : CTxOut} (hlimits : txout.WithinMaxSize) :
    Reads CTxOut.unserialize txout.serialize txout.fromWire := by
  refine .bind rfl (reads_unserializeAmount txout.nValue) ?_
  refine .bind rfl (reads_readBlob hlimits.scriptPubKey) ?_
  exact .bind (append_nil _).symm (reads_readString hlimits.imgbase64) (.pure _)

def CMutableTransaction.fromWire (tx : CMutableTransaction) : CMutableTransaction :=
  { tx with vout := tx.vout.map CTxOut.fromWire }

@[simp] theorem CMutableTransaction.fromWire_serialize
    (tx : CMutableTransaction) : tx.fromWire.serialize = tx.serialize := by
  simp [CMutableTransaction.serialize, CMutableTransaction.fromWire, writeVector, flatMap_map]

/-- Every length in the serialization is at most `MAX_SIZE`. -/
structure CMutableTransaction.WithinMaxSize (tx : CMutableTransaction) : Prop where
  vin : tx.vin.length ≤ maxSize
  scriptSigs : ∀ txin ∈ tx.vin, txin.scriptSig.length ≤ maxSize
  vout : tx.vout.length ≤ maxSize
  outputs : ∀ txout ∈ tx.vout, txout.WithinMaxSize

theorem reads_vout {vout : List CTxOut} (hsize : vout.length ≤ maxSize)
    (houts : ∀ txout ∈ vout, txout.WithinMaxSize) :
    Reads (readVector sizeOfCTxOut CTxOut.unserialize)
      (writeVector CTxOut.serialize vout) (vout.map CTxOut.fromWire) := by
  have hwire : ∀ txout ∈ vout.map CTxOut.fromWire,
      Reads CTxOut.unserialize txout.serialize txout := by
    intro txout hmem
    obtain ⟨source, hsource, rfl⟩ := mem_map.mp hmem
    have hread := CTxOut.reads_unserialize (houts source hsource)
    simpa using hread
  have hread : Reads (readVector sizeOfCTxOut CTxOut.unserialize)
      (writeVector CTxOut.serialize (vout.map CTxOut.fromWire)) _ :=
    reads_readVector (by decide) (by simpa using hsize) hwire
  simpa [writeVector, flatMap_map] using hread

variable {tx : CMutableTransaction}

theorem CTransaction.reads_unserialize (hashOf : Bytes → UInt256) (hlimits : tx.WithinMaxSize) :
    Reads (unserialize hashOf) tx.serialize (ofMutable hashOf tx.fromWire) := by
  refine .map ?_ (ofMutable hashOf)
  refine .bind rfl (reads_unserializeInt32 tx.nVersion) ?_
  refine .bind rfl (reads_readVector (by decide) hlimits.vin
    fun txin hmem => CTxIn.reads_unserialize (hlimits.scriptSigs txin hmem)) ?_
  refine .bind rfl (reads_vout hlimits.vout hlimits.outputs) ?_
  exact .bind (append_nil _).symm (reads_unserializeUInt32 tx.nLockTime) (.pure _)

theorem CTxIn.ensures_unserialize :
    Ensures CTxIn.unserialize fun txin => txin.scriptSig.length ≤ maxSize := by
  refine .skip fun prevout => ?_
  refine .bind ensures_readBlob fun scriptSig hscript => ?_
  exact .skip fun nSequence => .pure hscript

theorem CTxOut.ensures_unserialize : Ensures CTxOut.unserialize CTxOut.WithinMaxSize := by
  refine .skip fun nValue => ?_
  refine .bind ensures_readBlob fun scriptPubKey hscript => ?_
  refine .bind ensures_readString fun imgbase64 himg => ?_
  exact .pure ⟨hscript, himg⟩

theorem CMutableTransaction.ensures_unserialize : Ensures CMutableTransaction.unserialize
    CMutableTransaction.WithinMaxSize := by
  refine .skip fun nVersion => ?_
  refine .bind (ensures_readVector CTxIn.ensures_unserialize) fun vin hvin => ?_
  refine .bind (ensures_readVector CTxOut.ensures_unserialize) fun vout hvout => ?_
  exact .skip fun nLockTime =>
    Ensures.pure ⟨hvin.1, hvin.2, hvout.1, hvout.2⟩

def CTxOut.wireFields : CAmount × CScript × Bytes :=
  (txout.nValue, txout.scriptPubKey, txout.imgbase64)

/-- Reading the serialization back succeeds, uses all of it and gives the
same transaction. -/
def RoundTrips (hashOf : Bytes → UInt256) (tx : CMutableTransaction) : Prop :=
  ∃ read : CTransaction, unserialize hashOf tx.serialize = .ok (read, []) ∧
      read.nVersion = tx.nVersion ∧ read.vin = tx.vin ∧
      read.vout.map CTxOut.wireFields = tx.vout.map CTxOut.wireFields ∧
      read.nLockTime = tx.nLockTime ∧
      read.hash = (ofMutable hashOf tx).hash

theorem WithinMaxSize.of_wireFields {vout other : List CTxOut}
    (hfields : vout.map CTxOut.wireFields = other.map CTxOut.wireFields)
    (houts : ∀ txout ∈ vout, txout.WithinMaxSize) : ∀ txout ∈ other, txout.WithinMaxSize := by
  intro txout hmem
  have hsame : txout.wireFields ∈ vout.map CTxOut.wireFields := by
    rw [hfields]
    exact mem_map_of_mem hmem
  obtain ⟨source, hsource, heq⟩ := mem_map.mp hsame
  simp only [CTxOut.wireFields, Prod.mk.injEq] at heq
  have hsize := houts source hsource
  exact ⟨heq.2.1 ▸ hsize.scriptPubKey, heq.2.2 ▸ hsize.imgbase64⟩

theorem RoundTrips.withinMaxSize {hashOf : Bytes → UInt256} (htrip : RoundTrips hashOf tx) :
    tx.WithinMaxSize := by
  obtain ⟨read, hread, -, hvin, hvout, -, -⟩ := htrip
  have hlimits : Ensures (unserialize hashOf) fun tx =>
      tx.toCMutableTransaction.WithinMaxSize := by
    rw [unserialize, map_eq_pure_bind]
    exact CMutableTransaction.ensures_unserialize.bind fun tx htx => .pure htx
  have hsize := hlimits _ _ _ hread
  have hlength : read.vout.length = tx.vout.length := by
    simpa using congrArg length hvout
  exact {
    vin := hvin ▸ hsize.vin
    scriptSigs := hvin ▸ hsize.scriptSigs
    vout := hlength ▸ hsize.vout
    outputs := WithinMaxSize.of_wireFields hvout hsize.outputs }

theorem CMutableTransaction.WithinMaxSize.roundTrips (hlimits : tx.WithinMaxSize)
    (hashOf : Bytes → UInt256) : RoundTrips hashOf tx := by
  have hread := reads_unserialize hashOf hlimits []
  rw [append_nil] at hread
  refine ⟨_, hread, rfl, rfl, ?_, rfl, ?_⟩
  · simp [ofMutable, CMutableTransaction.fromWire, CTxOut.wireFields, CTxOut.fromWire]
  · simp [ofMutable]

/-- A transaction survives the wire exactly when all its lengths are at most
`MAX_SIZE`. -/
theorem roundTrips_iff_withinMaxSize (hashOf : Bytes → UInt256) (tx : CMutableTransaction) :
    RoundTrips hashOf tx ↔ tx.WithinMaxSize :=
  ⟨RoundTrips.withinMaxSize, fun hlimits => hlimits.roundTrips hashOf⟩

/-- A coinbase transaction with one output that carries an image of the given
length. -/
def imageTransaction (length : ℕ) : CMutableTransaction where
  nVersion := 1
  vin := [⟨⟨0, 0xffffffff⟩, [0x51, 0x51], 0xffffffff⟩]
  vout := [{ nValue := 0, scriptPubKey := [OP_1]
             imgbase64 := replicate length 0x41 }]
  nLockTime := 0

theorem imageTransaction_serialize_length {length : ℕ} (hlow : 0xffff < length)
    (hhigh : length ≤ 0xffffffff) : (imageTransaction length).serialize.length = length + 68 := by
  simp [imageTransaction, CMutableTransaction.serialize, writeVector,
    CTxIn.serialize, CTxOut.serialize, COutPoint.serialize, serializeInt32, serializeUInt32,
    serializeUInt256, serializeAmount, writeBlob, writeCompactSize, show ¬ length < 253 by omega,
    show ¬ length ≤ 65535 by omega, show length ≤ 4294967295 by omega]
  omega

theorem imageTransaction_accepted {length : ℕ}
    (hlow : 0xffff < length) (hhigh : length + 68 ≤ maxLegacyBlockSize) (hashOf : Bytes → UInt256) :
    checkTransaction (ofMutable hashOf (imageTransaction length)) = .ok () := by
  have hlimit : length + 68 ≤ 50000000 := hhigh
  have hsize : (imageTransaction length).getSerializeSize = length + 68 := by
    rw [CMutableTransaction.getSerializeSize, imageTransaction_serialize_length hlow (by omega)]
    exact Nat.mod_eq_of_lt (by omega)
  have houts : checkOutputs (imageTransaction length).vout 0 = .ok () := by
    simp [imageTransaction, checkOutputs, moneyRange, maxMoney, coin]
  have hvin : checkDuplicateInputs (imageTransaction length).vin [] = .ok () := by
    simp [imageTransaction, checkDuplicateInputs]
  have hprevouts : checkPrevouts (ofMutable hashOf (imageTransaction length)) = .ok () := by
    simp [checkPrevouts, isCoinBase, ofMutable, imageTransaction]
  simp only [checkTransaction, ofMutable, hvin]
  rw [if_neg (by simp [imageTransaction]), if_neg (by simp [imageTransaction]), if_neg (by omega)]
  exact hprevouts

/-- `CheckTransaction` accepts an image one byte longer than the reader
does. -/
theorem imageTransaction_accepted_not_roundTrips :
    ∃ tx : CMutableTransaction, ∀ hashOf : Bytes → UInt256,
      checkTransaction (CTransaction.ofMutable hashOf tx) = .ok () ∧ ¬ RoundTrips hashOf tx := by
  refine ⟨imageTransaction (maxSize + 1), fun hashOf => ⟨?_, ?_⟩⟩
  · exact imageTransaction_accepted (by decide) (by decide) hashOf
  · intro htrip
    have himg := (htrip.withinMaxSize.outputs _ List.mem_cons_self).imgbase64
    simp at himg

end ImageCoin
