import ImageCoin.Sorting
import ImageCoin.Transaction

/-!
# The order of inputs and outputs

`CompareInputBIP69` and `CompareOutputBIP69` of `primitives/transaction.h`.  Hashes are
compared from their last byte, as numbers.  Scripts are compared as `prevector` does it, by
their sizes first.
-/

namespace ImageCoin

open List ByteStream UInt8

def compareInputBIP69 (a b : CTxIn) : Bool :=
  if a.prevout.hash = b.prevout.hash then a.prevout.n < b.prevout.n
  else a.prevout.hash < b.prevout.hash

def bytesLess : Bytes → Bytes → Bool
  | b1 :: rest1, b2 :: rest2 =>
    if b1 < b2 then true else if b2 < b1 then false else bytesLess rest1 rest2
  | _, _ => false

variable (a b : CScript)

def scriptLess : Bool :=
  if a.length < b.length then true else if a.length > b.length then false else bytesLess a b

def compareOutputBIP69 (a b : CTxOut) : Bool :=
  a.nValue < b.nValue || (a.nValue == b.nValue && scriptLess a.scriptPubKey b.scriptPubKey)

def inputKey (txin : CTxIn) : ℕ ×ₗ ℕ :=
  toLex (txin.prevout.hash.toNat, txin.prevout.n.toNat)

def scriptKey (script : CScript) : ℕ ×ₗ List ℕ :=
  toLex (script.length, script.map toNat)

def outputKey (out : CTxOut) : ℤ ×ₗ (ℕ ×ₗ List ℕ) :=
  toLex (out.nValue.toInt, scriptKey out.scriptPubKey)

theorem compareInputBIP69_iff (a b : CTxIn) : compareInputBIP69 a b ↔ inputKey a < inputKey b := by
  rw [compareInputBIP69, inputKey, inputKey, Prod.Lex.toLex_lt_toLex]
  split
  next heq => simp [heq, UInt32.lt_iff_toNat_lt]
  next hne =>
    have hne' : a.prevout.hash.toNat ≠ b.prevout.hash.toNat := fun h => hne (BitVec.eq_of_toNat_eq
      h)
    simp [BitVec.lt_def, hne']

theorem bytesLess_iff {a b : Bytes} (hlength : a.length = b.length) :
    bytesLess a b ↔ a.map toNat < b.map toNat := by
  induction a generalizing b with
  | nil =>
    obtain rfl := eq_nil_of_length_eq_zero hlength.symm
    simp [bytesLess]
  | cons b1 rest1 ih =>
    cases b with
    | nil => simp at hlength
    | cons b2 rest2 =>
      have hih := ih (b := rest2) (by simpa using hlength)
      rw [map_cons, map_cons, cons_lt_cons_iff, bytesLess, ← hih]
      simp only [lt_iff_toNat_lt]
      split
      next hlt => simp [hlt]
      next hge =>
        split
        next hgt => simp [hge, hgt.ne']
        next hle => simp [show b1.toNat = b2.toNat by omega]

theorem scriptLess_iff : scriptLess a b ↔ scriptKey a < scriptKey b := by
  rw [scriptLess, scriptKey, scriptKey, Prod.Lex.toLex_lt_toLex]
  split
  next hlt => simp [hlt]
  next hge =>
    split
    next hgt => simp [hge, hgt.ne']
    next hle =>
      have heq : a.length = b.length := by omega
      simp [heq, bytesLess_iff heq]

theorem compareOutputBIP69_iff (a b : CTxOut) :
    compareOutputBIP69 a b ↔ outputKey a < outputKey b := by
  rw [outputKey, outputKey, Prod.Lex.toLex_lt_toLex]
  simp [compareOutputBIP69, scriptLess_iff, Int64.lt_iff_toInt_lt, Int64.toInt_inj]

def insertInputs : Sorting compareInputBIP69 := .byKey inputKey compareInputBIP69_iff

def insertOutputs : Sorting compareOutputBIP69 := .byKey outputKey compareOutputBIP69_iff

def bip69InputKey (txin : CTxIn) : List ℕ ×ₗ ℕ :=
  toLex ((serializeUInt256 txin.prevout.hash).reverse.map toNat, txin.prevout.n.toNat)

def bip69OutputKey (out : CTxOut) : ℤ ×ₗ List ℕ :=
  toLex (out.nValue.toInt, out.scriptPubKey.map toNat)

theorem concat_lt_concat_iff {x y : List ℕ} {m n : ℕ} (hlength : x.length = y.length) :
    x ++ [m] < y ++ [n] ↔ x < y ∨ x = y ∧ m < n := by
  induction x generalizing y with
  | nil =>
    obtain rfl := eq_nil_of_length_eq_zero hlength.symm
    simp [cons_lt_cons_iff]
  | cons a x ih =>
    cases y with
    | nil => simp at hlength
    | cons b y =>
      rw [cons_append, cons_append, cons_lt_cons_iff, ih (by simpa using hlength),
        cons_lt_cons_iff, cons.injEq]
      tauto

/-- Numbers are compared as their bytes are from the last one on. -/
theorem leNat_lt_iff {x y : Bytes} (hlength : x.length = y.length) :
    leNat x < leNat y ↔ x.reverse.map toNat < y.reverse.map toNat := by
  induction x generalizing y with
  | nil =>
    obtain rfl := eq_nil_of_length_eq_zero hlength.symm
    simp
  | cons a x ih =>
    cases y with
    | nil => simp at hlength
    | cons b y =>
      have hrest : x.length = y.length := by simpa using hlength
      have hsame : x.reverse.map toNat = y.reverse.map toNat ↔ leNat x = leNat y := by
        rw [(map_injective_iff.mpr fun _ _ => UInt8.toNat_inj.mp).eq_iff, reverse_inj]
        refine ⟨congrArg leNat, fun h => ?_⟩
        rw [← (leBytes_leNat x).1, ← (leBytes_leNat y).1, hrest, h]
      rw [reverse_cons, reverse_cons, map_append, map_append, map_singleton, map_singleton,
        concat_lt_concat_iff (by simpa using hrest), ← ih hrest, hsame, leNat, leNat]
      have ha := a.toNat_lt
      have hb := b.toNat_lt
      omega

/-- Scripts of different sizes are ordered by size, which the prescribed order does not do. -/
theorem compareBIP69_iff (a b : CTxOut) :
    (IsStrictWeakOrder CTxIn fun x y => compareInputBIP69 x y) ∧
      (IsStrictWeakOrder CTxOut fun x y => compareOutputBIP69 x y) ∧
      (∀ x y, compareInputBIP69 x y ↔ bip69InputKey x < bip69InputKey y) ∧
      ((compareOutputBIP69 a b ↔ bip69OutputKey a < bip69OutputKey b) ↔
        (a.nValue = b.nValue → a.scriptPubKey.length ≠ b.scriptPubKey.length →
          (a.scriptPubKey.length < b.scriptPubKey.length ↔
            a.scriptPubKey.map toNat < b.scriptPubKey.map toNat))) := by
  refine ⟨Sorting.isStrictWeakOrder compareInputBIP69_iff,
    Sorting.isStrictWeakOrder compareOutputBIP69_iff, fun x y => ?_, ?_⟩
  · have hbytes : ∀ h h' : UInt256, (serializeUInt256 h).reverse.map toNat <
        (serializeUInt256 h').reverse.map toNat ↔ h.toNat < h'.toNat := by
      intro h h'
      rw [← leNat_lt_iff (by simp [serializeUInt256]), serializeUInt256, serializeUInt256,
        leNat_leBytes (h.isLt.trans_eq (by decide)), leNat_leBytes (h'.isLt.trans_eq (by decide))]
    rw [compareInputBIP69_iff, inputKey, inputKey, bip69InputKey, bip69InputKey,
      Prod.Lex.toLex_lt_toLex, Prod.Lex.toLex_lt_toLex, le_antisymm_iff, le_antisymm_iff]
    simp only [← not_lt, hbytes]
  · rw [compareOutputBIP69_iff, outputKey, outputKey, bip69OutputKey, bip69OutputKey,
      Prod.Lex.toLex_lt_toLex, Prod.Lex.toLex_lt_toLex, scriptKey, scriptKey,
      Prod.Lex.toLex_lt_toLex, ← Int64.toInt_inj]
    by_cases hvalue : a.nValue.toInt = b.nValue.toInt
    · by_cases hlength : a.scriptPubKey.length = b.scriptPubKey.length
      · simp [hvalue, hlength]
      · simp [hvalue, hlength]
    · simp [hvalue]

/-- A shorter script comes first here, and later in the order of the bytes. -/
theorem compareOutputBIP69_not_lexicographic :
    compareOutputBIP69 ⟨1, [OP_1], [], 0⟩ ⟨1, [OP_0, OP_0], [], 0⟩ ∧
      bip69OutputKey ⟨1, [OP_0, OP_0], [], 0⟩ < bip69OutputKey ⟨1, [OP_1], [], 0⟩ := by
  decide

end ImageCoin
