import ImageCoin.ByteStream
import ImageCoin.StateExcept

/-!
# Integer and container encodings

The encodings of `serialize.h`: compact sizes, variable-length integers, byte blobs
(`std::string`, `CScript`) and vectors.
-/

namespace ImageCoin

open ByteStream StateExcept List Nat UInt8
variable {bits : ℕ} {n : ℕ}

abbrev UInt256 := BitVec 256

def maxSize : ℕ := 0x02000000

def writeCompactSize (nSize : ℕ) : Bytes :=
  if nSize < 253 then leBytes 1 nSize
  else if nSize ≤ 0xffff then 253 :: leBytes 2 nSize
  else if nSize ≤ 0xffffffff then 254 :: leBytes 4 nSize
  else 255 :: leBytes 8 nSize

def readCanonical (width minimum : ℕ) : Reader ℕ := do
  let nSizeRet ← readLE width
  if nSizeRet < minimum then
    throw (.failure "non-canonical ReadCompactSize()")
  else pure nSizeRet

def readCompactValue : Reader ℕ := do
  let chSize ← readLE 1
  if chSize < 253 then pure chSize
  else if chSize = 253 then readCanonical 2 253
  else if chSize = 254 then readCanonical 4 0x10000
  else readCanonical 8 0x100000000

def readCompactSize : Reader ℕ := do
  let nSizeRet ← readCompactValue
  if nSizeRet > maxSize then
    throw (.failure "ReadCompactSize(): size too large")
  else pure nSizeRet

theorem reads_readCanonical {width minimum value : ℕ}
    (hmin : minimum ≤ value) (hvalue : value < 256 ^ width) :
    Reads (readCanonical width minimum) (leBytes width value) value := by
  refine .bind (append_nil _).symm (reads_readLE hvalue) ?_
  rw [if_neg (by omega)]
  exact .pure value

theorem reads_marker {marker : ℕ} (hmarker : marker < 256) :
    Reads (readLE 1) (leBytes 1 marker) marker :=
  reads_readLE (by omega)

theorem reads_readCompactValue {nSize : ℕ} (hsize : nSize < 2 ^ 64) :
    Reads readCompactValue (writeCompactSize nSize) nSize := by
  unfold writeCompactSize
  split_ifs with h1 h2 h3
  · refine .bind (append_nil _).symm (reads_marker (by omega)) ?_
    rw [if_pos h1]
    exact .pure nSize
  · have hsplit : 253 :: leBytes 2 nSize = leBytes 1 253 ++ leBytes 2 nSize :=
      rfl
    refine .bind hsplit (reads_marker (by omega)) ?_
    exact reads_readCanonical (by omega) (by omega)
  · have hsplit : 254 :: leBytes 4 nSize = leBytes 1 254 ++ leBytes 4 nSize :=
      rfl
    refine .bind hsplit (reads_marker (by omega)) ?_
    exact reads_readCanonical (by omega) (by omega)
  · have hsplit : 255 :: leBytes 8 nSize = leBytes 1 255 ++ leBytes 8 nSize :=
      rfl
    refine .bind hsplit (reads_marker (by omega)) ?_
    exact reads_readCanonical (by omega) (by omega)

theorem prefixInjective_writeCompactSize : PrefixInjective writeCompactSize (· < 2 ^ 64) :=
  PrefixInjective.of_reads fun _ hsize => reads_readCompactValue hsize

theorem reads_readCompactSize {nSize : ℕ} (hsize : nSize ≤ maxSize) :
    Reads readCompactSize (writeCompactSize nSize) nSize := by
  have hwide : nSize < 2 ^ 64 := by
    simp only [maxSize] at hsize
    omega
  refine .bind (append_nil _).symm (reads_readCompactValue hwide) ?_
  rw [if_neg (by omega)]
  exact .pure nSize

variable {bytes rest : Bytes}

theorem readCanonical_ok {width minimum : ℕ}
    (hread : readCanonical width minimum bytes = .ok (n, rest)) :
    bytes = leBytes width n ++ rest ∧ minimum ≤ n ∧ n < 256 ^ width := by
  obtain ⟨⟨value, rest'⟩, hvalue, hread⟩ := ok_of_bind_ok hread
  obtain ⟨hbytes, hwidth⟩ := readLE_ok hvalue
  dsimp only at hread
  split_ifs at hread with hmin
  · cases hread
  · cases Except.ok.inj hread
    exact ⟨hbytes, not_lt.mp hmin, hwidth⟩

theorem readCompactValue_ok
    (hread : readCompactValue bytes = .ok (n, rest)) : bytes = writeCompactSize n ++ rest := by
  obtain ⟨⟨chSize, tail⟩, hsize, hvalue⟩ := ok_of_bind_ok hread
  obtain ⟨rfl, hbyte⟩ := readLE_ok hsize
  dsimp only at hvalue
  unfold writeCompactSize
  split_ifs at hvalue with hdirect h253 h254
  · cases hvalue
    rw [if_pos hdirect]
  · obtain ⟨rfl, hlow, hhigh⟩ := readCanonical_ok hvalue
    rw [if_neg (by omega), if_pos (by omega), h253]
    rfl
  · obtain ⟨rfl, hlow, hhigh⟩ := readCanonical_ok hvalue
    rw [if_neg (by omega), if_neg (by omega), if_pos (by omega), h254]
    rfl
  · obtain ⟨rfl, hlow, hhigh⟩ := readCanonical_ok hvalue
    rw [if_neg (by omega), if_neg (by omega), if_neg (by omega), (by omega : chSize = 255)]
    rfl

theorem readCompactSize_ok (hread : readCompactSize bytes = .ok (n, rest)) :
    bytes = writeCompactSize n ++ rest ∧ n ≤ maxSize := by
  obtain ⟨⟨value, rest'⟩, hvalue, hread⟩ := ok_of_bind_ok hread
  dsimp only at hread
  split_ifs at hread with hlarge
  · cases hread
  · cases Except.ok.inj hread
    exact ⟨readCompactValue_ok hvalue, not_lt.mp hlarge⟩

theorem ensures_readCompactSize : Ensures readCompactSize fun nSize => nSize ≤ maxSize :=
  fun _ _ _ hread => (readCompactSize_ok hread).2

/-! ## Variable-length integers -/

/-- The digit loop of `WriteVarInt`, most significant digit first.  The
argument is a mathematical integer, so that one definition serves the signed
and the unsigned instances: a negative number stops the loop at once. -/
def writeVarIntLoop : ℕ → ℤ → Bytes → Bytes
  | 0, _, out => out
  | digits + 1, n, out =>
    let digit := ofNat
      ((n % 128).toNat + if out.isEmpty then 0 else 128)
    if n ≤ 0x7F then digit :: out
    else writeVarIntLoop digits (n / 128 - 1) (digit :: out)

/-- `WriteVarInt` for a type of `bits` bits, whose buffer holds
`(bits + 6) / 7` digits. -/
def writeVarInt (bits : ℕ) (n : ℤ) : Bytes :=
  writeVarIntLoop ((bits + 6) / 7) n []

def readVarIntLoop (bits : ℕ) : ℕ → Bytes → Except StreamError (ℕ × Bytes)
  | _, [] => .error .endOfData
  | n, chData :: rest =>
    let digit := (n * 128 + chData.toNat % 128) % 2 ^ bits
    if 128 ≤ chData.toNat then
      readVarIntLoop bits ((digit + 1) % 2 ^ bits) rest
    else .ok (digit, rest)

def readVarInt (bits : ℕ) : Reader ℕ := readVarIntLoop bits 0

/-- The digits of a code, each of them as if another one followed. -/
def digitsValue (digits : Bytes) : ℕ :=
  digits.foldl (fun n chData => n * 128 + chData.toNat % 128 + 1) 0

variable (digits : Bytes)

theorem digitsValue_concat (last : UInt8) :
    digitsValue (digits ++ [last]) = digitsValue digits * 128 + last.toNat % 128 + 1 := by
  simp [digitsValue]

/-- The number that a code stands for, without a bound. -/
def codeValue (code : Bytes) : ℕ := digitsValue code - 1

theorem codeValue_concat (last : UInt8) :
    codeValue (digits ++ [last]) = digitsValue digits * 128 + last.toNat % 128 := by
  rw [codeValue, digitsValue_concat, Nat.add_sub_cancel]

/-- The digits before the last one, and these only, have the highest bit set. -/
def IsCode (code : Bytes) : Prop :=
  ∃ digits last, code = digits ++ [last] ∧ (∀ chData ∈ digits, 128 ≤ chData.toNat) ∧
    last.toNat < 128

theorem readVarIntLoop_eq {digits : Bytes} {last : UInt8} (hlast : last.toNat < 128)
    (rest : Bytes) : ∀ n, (∀ chData ∈ digits, 128 ≤ chData.toNat) →
      readVarIntLoop bits (n % 2 ^ bits) (digits ++ last :: rest) = .ok
        ((digits.foldl (fun n chData => n * 128 + chData.toNat % 128 + 1) n * 128 +
          last.toNat % 128) % 2 ^ bits, rest) := by
  have hstep : ∀ n digit, (n % 2 ^ bits * 128 + digit) % 2 ^ bits = (n * 128 + digit) % 2 ^ bits :=
    fun n digit => ((mod_modEq n _).mul_right 128).add_right digit
  induction digits with
  | nil =>
    intro n _
    simp [readVarIntLoop, if_neg (not_le.mpr hlast), hstep]
  | cons chData digits ih =>
    intro n hdigits
    obtain ⟨hfirst, hdigits⟩ := forall_mem_cons.mp hdigits
    simp only [cons_append, readVarIntLoop, if_pos hfirst, hstep, mod_add_mod]
    exact ih _ hdigits

theorem reads_code {code : Bytes} (hcode : IsCode code) :
    Reads (readVarInt bits) code (codeValue code % 2 ^ bits) := by
  obtain ⟨digits, last, rfl, hdigits, hlast⟩ := hcode
  intro rest
  have hread : readVarIntLoop bits (0 % 2 ^ bits) _ = _ := readVarIntLoop_eq hlast rest 0 hdigits
  rw [zero_mod] at hread
  rw [readVarInt, append_assoc, singleton_append, hread, codeValue_concat, digitsValue]

theorem isCode_of_readVarIntLoop {v : ℕ} : ∀ {n},
    readVarIntLoop bits n bytes = .ok (v, rest) → ∃ code, IsCode code ∧ bytes = code ++ rest := by
  induction bytes with
  | nil => exact fun hread => nomatch hread
  | cons chData bytes ih =>
    intro n hread
    rw [readVarIntLoop] at hread
    split_ifs at hread with hmore
    · obtain ⟨_, ⟨digits, last, rfl, hdigits, hlast⟩, rfl⟩ := ih hread
      exact ⟨_, ⟨chData :: digits, last, rfl, forall_mem_cons.mpr ⟨hmore, hdigits⟩, hlast⟩, rfl⟩
    · cases hread
      exact ⟨[chData], ⟨[], chData, rfl, by simp, not_le.mp hmore⟩, rfl⟩

theorem exists_code (n : ℕ) : ∃ code, IsCode code ∧ codeValue code = n := by
  induction n using Nat.strongRecOn with
  | ind n ih =>
    have hlast : (ofNat (n % 128)).toNat = n % 128 :=
      UInt8.toNat_ofNat_of_lt (by simp only [UInt8.size]; omega)
    by_cases hsmall : n < 128
    · refine ⟨[] ++ [ofNat (n % 128)], ⟨[], _, rfl, by simp, by omega⟩, ?_⟩
      rw [codeValue_concat, hlast, digitsValue, foldl_nil]
      omega
    · obtain ⟨_, ⟨digits, last, rfl, hdigits, hbyte⟩, hvalue⟩ := ih (n / 128 - 1) (by omega)
      have hmore : (ofNat (last.toNat + 128)).toNat = last.toNat + 128 :=
        UInt8.toNat_ofNat_of_lt (by simp only [UInt8.size]; omega)
      refine ⟨digits ++ [ofNat (last.toNat + 128)] ++ [ofNat (n % 128)],
        ⟨_, _, rfl, forall_mem_append.mpr ⟨hdigits, by rw [forall_mem_singleton]; omega⟩,
          by omega⟩, ?_⟩
      rw [codeValue_concat] at hvalue ⊢
      rw [digitsValue_concat, hmore, hlast]
      omega

theorem pow_length_le : 128 ^ digits.length ≤ max 1 (digitsValue digits * 128) := by
  induction digits using List.reverseRecOn with
  | nil => simp
  | append_singleton digits last ih =>
    rw [length_append, length_singleton, pow_succ, digitsValue_concat]
    omega

theorem writeVarIntLoop_eq {digits : Bytes} : ∀ {k : ℕ} {last : UInt8} {out : Bytes},
    digits.length < k → (last.toNat < 128 ↔ out = []) → (∀ chData ∈ digits, 128 ≤ chData.toNat) →
      writeVarIntLoop k (digitsValue digits * 128 + last.toNat % 128 : ℕ) out =
        digits ++ last :: out := by
  have hdigit : ∀ {last : UInt8} {out : Bytes} (lead : ℕ), (last.toNat < 128 ↔ out = []) →
      ofNat ((((lead * 128 + last.toNat % 128 : ℕ) : ℤ) % 128).toNat +
        if out.isEmpty then 0 else 128) = last := by
    intro last out lead hout
    have hbyte := last.toNat_lt
    apply UInt8.toNat_inj.mp
    cases out <;> simp at hout ⊢ <;> omega
  induction digits using List.reverseRecOn with
  | nil =>
    intro k last out hk hout _
    obtain ⟨k, rfl⟩ := exists_eq_succ_of_ne_zero (ne_of_gt hk)
    rw [writeVarIntLoop, hdigit _ hout, if_pos (by simp [digitsValue]; omega), nil_append]
  | append_singleton digits chData ih =>
    intro k last out hk hout hdigits
    obtain ⟨hdigits, hmore⟩ := forall_mem_append.mp hdigits
    obtain ⟨k, rfl⟩ := exists_eq_succ_of_ne_zero (ne_of_gt (zero_lt_of_lt hk))
    rw [length_append, length_singleton] at hk
    have hnext : ((digitsValue (digits ++ [chData]) * 128 + last.toNat % 128 : ℕ) : ℤ) / 128 - 1 =
        (digitsValue digits * 128 + chData.toNat % 128 : ℕ) := by
      rw [digitsValue_concat]
      omega
    rw [writeVarIntLoop, hdigit _ hout, if_neg (by rw [digitsValue_concat]; omega), hnext,
      ih (by omega) (by simpa using hmore) hdigits, append_assoc, singleton_append]

theorem writeVarInt_codeValue {code : Bytes} (hcode : IsCode code) (hpos : 0 < bits)
    (hvalue : codeValue code < 2 ^ bits) : writeVarInt bits (codeValue code) = code := by
  obtain ⟨digits, last, rfl, hdigits, hlast⟩ := hcode
  have hwide : 2 ^ bits ≤ 128 ^ ((bits + 6) / 7) := by
    rw [show 128 = 2 ^ 7 from rfl, ← pow_mul]
    exact Nat.pow_le_pow_right (by omega) (by omega)
  rw [codeValue_concat] at hvalue ⊢
  refine writeVarIntLoop_eq ?_ (by simpa using hlast) hdigits
  by_contra hlong
  have hpow := Nat.pow_le_pow_right (by omega : 0 < 128) (not_lt.mp hlong)
  have hone : 1 < 2 ^ bits := Nat.one_lt_two_pow (by omega)
  have hle := pow_length_le digits
  omega

theorem reads_readVarInt (hpos : 0 < bits) (hn : n < 2 ^ bits) :
    Reads (readVarInt bits) (writeVarInt bits n) n := by
  obtain ⟨code, hcode, rfl⟩ := exists_code n
  have hread : Reads (readVarInt bits) code _ := reads_code hcode
  rw [mod_eq_of_lt hn] at hread
  rwa [writeVarInt_codeValue hcode hpos hn]

/-- What is read is the encoding of the result, and what is written is read again; a size has
to be at most `MAX_SIZE`, and the number of a variable-length code must not wrap around. -/
theorem integer_encodings (n : ℕ) (bytes rest : Bytes) :
    (n < 2 ^ 64 → (Reads readCompactSize (writeCompactSize n) n ↔ n ≤ maxSize)) ∧
      (n < 2 ^ 64 → Reads (readVarInt 64) (writeVarInt 64 n) n) ∧
      (readCompactSize bytes = .ok (n, rest) → bytes = writeCompactSize n ++ rest) ∧
      (readVarInt 64 bytes = .ok (n, rest) → ∃ code, bytes = code ++ rest ∧
        (code = writeVarInt 64 n ↔ codeValue code < 2 ^ 64)) := by
  refine ⟨fun _ => ⟨fun hread => ?_, reads_readCompactSize⟩, reads_readVarInt (by decide),
    fun hread => (readCompactSize_ok hread).1, fun hread => ?_⟩
  · exact (readCompactSize_ok (hread [])).2
  · obtain ⟨code, hcode, rfl⟩ := isCode_of_readVarIntLoop hread
    have hn : n = codeValue code % 2 ^ 64 := by
      have hsame := hread.symm.trans (reads_code hcode rest)
      cases hsame
      rfl
    refine ⟨code, rfl, fun heq => ?_, fun hvalue => ?_⟩
    · -- The code of a number below the bound stands for that number.
      obtain ⟨code', hcode', hvalue⟩ := exists_code n
      have hfits : codeValue code' < 2 ^ 64 := by
        rw [hvalue, hn]
        exact mod_lt _ (by decide)
      rw [heq, ← hvalue, writeVarInt_codeValue hcode' (by decide) hfits]
      exact hfits
    · rw [hn, mod_eq_of_lt hvalue, writeVarInt_codeValue hcode (by decide) hvalue]

/-- Ten bytes for the number `2 ^ 64` are read as zero, which has a code of one byte. -/
theorem integer_encodings_wrapped :
    readVarInt 64 [0x80, 0xfe, 0xfe, 0xfe, 0xfe, 0xfe, 0xfe, 0xfe, 0xff, 0x00] = .ok (0, []) ∧
      writeVarInt 64 0 = [0x00] ∧ readVarInt 64 [0x00] = .ok (0, []) := by
  decide

/-! ## Byte blobs and vectors -/

def writeBlob (blob : Bytes) : Bytes :=
  writeCompactSize blob.length ++ blob

def readString : Reader Bytes := do
  let nSize ← readCompactSize
  if nSize ≠ 0 then readBytes nSize else pure []

/-- The loop of `Unserialize_impl` for byte vectors, which reads at most
`1 + 4999999` bytes at a time. -/
def readBlobLoop : ℕ → ℕ → Bytes → Reader Bytes
  | 0, _, v => pure v
  | fuel + 1, nSize, v =>
    if v.length < nSize then do
      let blk ← readBytes (min (nSize - v.length) (1 + 4999999))
      readBlobLoop fuel nSize (v ++ blk)
    else pure v

def readBlob : Reader Bytes := do
  let nSize ← readCompactSize
  readBlobLoop nSize nSize []

variable {α : Type}

def writeVector (write : α → Bytes) (v : List α) : Bytes :=
  writeCompactSize v.length ++ v.flatMap write

/-- The loop of `Unserialize_impl` for vectors of class type, which makes room
for `5000000 / sizeof(T)` elements at a time. -/
def readVectorLoop {α : Type} (batch : ℕ) (read : Reader α) : ℕ → ℕ → List α → Reader (List α)
  | 0, _, v => pure v
  | fuel + 1, nSize, v =>
    if v.length < nSize then do
      let nMid := if v.length + batch > nSize then nSize else v.length + batch
      let part ← readTimes read (nMid - v.length)
      readVectorLoop batch read fuel nSize (v ++ part)
    else pure v

def readVector (sizeOf : ℕ) (read : Reader α) : Reader (List α) := do
  let nSize ← readCompactSize
  readVectorLoop (5000000 / sizeOf) read nSize nSize []

theorem prefixInjective_writeBlob : PrefixInjective writeBlob (·.length < 2 ^ 64) := by
  intro a b ha hb x y heq
  simp only [writeBlob, append_assoc] at heq
  obtain ⟨hlength, hrest⟩ :=
    prefixInjective_writeCompactSize _ _ ha hb _ _ heq
  exact append_inj hrest hlength

variable {write : α → Bytes}

theorem prefixInjective_writeVector {dom : α → Prop} (hwrite : PrefixInjective write dom) :
    PrefixInjective (writeVector write) fun v =>
      v.length < 2 ^ 64 ∧ ∀ x ∈ v, dom x := by
  intro a b ha hb x y heq
  simp only [writeVector, append_assoc] at heq
  obtain ⟨hlength, hrest⟩ :=
    prefixInjective_writeCompactSize _ _ ha.1 hb.1 _ _ heq
  exact hwrite.flatMap a b hlength ha.2 hb.2 x y hrest

theorem reads_readString {blob : Bytes} (hsize : blob.length ≤ maxSize) :
    Reads readString (writeBlob blob) blob := by
  refine .bind rfl (reads_readCompactSize hsize) ?_
  by_cases hempty : blob.length = 0
  · have hnil : blob = [] := length_eq_zero_iff.mp hempty
    subst hnil
    exact .pure []
  · rw [if_pos hempty]
    exact reads_readBytes rfl

theorem reads_readBlobLoop (fuel : ℕ) : ∀ v tail : Bytes, tail.length ≤ fuel →
    Reads (readBlobLoop fuel (v.length + tail.length) v) tail (v ++ tail) := by
  induction fuel with
  | zero =>
    intro v tail hfuel
    have hnil : tail = [] := length_eq_zero_iff.mp (by omega)
    subst hnil
    simpa [readBlobLoop] using Reads.pure v
  | succ fuel ih =>
    intro v tail hfuel
    unfold readBlobLoop
    by_cases hmore : v.length < v.length + tail.length
    · rw [if_pos hmore]
      let blk := min (v.length + tail.length - v.length) (1 + 4999999)
      refine .bind (take_append_drop blk tail).symm (reads_readBytes (by simp [blk])) ?_
      have hrest := ih (v ++ tail.take blk) (tail.drop blk) (by simp; omega)
      have hlength : (v ++ tail.take blk).length + (tail.drop blk).length =
          v.length + tail.length := by
        simp
        omega
      rw [hlength, append_assoc, take_append_drop] at hrest
      exact hrest
    · have hnil : tail = [] := length_eq_zero_iff.mp (by omega)
      subst hnil
      simpa using Reads.pure v

theorem reads_readBlob {blob : Bytes} (hsize : blob.length ≤ maxSize) :
    Reads readBlob (writeBlob blob) blob := by
  refine .bind rfl (reads_readCompactSize hsize) ?_
  simpa using reads_readBlobLoop blob.length [] blob le_rfl

variable {read : Reader α}

theorem reads_readVectorLoop {batch : ℕ} (hbatch : 0 < batch) (fuel : ℕ) :
    ∀ v tail : List α, tail.length ≤ fuel → (∀ x ∈ tail, Reads read (write x) x) →
      Reads (readVectorLoop batch read fuel (v.length + tail.length) v)
        (tail.flatMap write) (v ++ tail) := by
  induction fuel with
  | zero =>
    intro v tail hfuel _
    have hnil : tail = [] := length_eq_zero_iff.mp (by omega)
    subst hnil
    simpa [readVectorLoop] using Reads.pure v
  | succ fuel ih =>
    intro v tail hfuel hread
    unfold readVectorLoop
    by_cases hmore : v.length < v.length + tail.length
    · rw [if_pos hmore]
      let part := (if v.length + batch > v.length + tail.length
        then v.length + tail.length else v.length + batch) - v.length
      have hpart : part ≤ tail.length := by
        simp only [part]
        split_ifs <;> omega
      have hpos : 0 < part := by
        simp only [part]
        split_ifs <;> omega
      have hsplit : tail.flatMap write =
          (tail.take part).flatMap write ++ (tail.drop part).flatMap write := by
        rw [← flatMap_append, take_append_drop]
      have htake : (tail.take part).length = part := by simp [hpart]
      have hfirst : Reads (readTimes read (tail.take part).length)
          ((tail.take part).flatMap write) (tail.take part) :=
        reads_readTimes _ fun x hx => hread x (mem_of_mem_take hx)
      rw [htake] at hfirst
      refine .bind hsplit hfirst ?_
      have hrest := ih (v ++ tail.take part) (tail.drop part) (by simp; omega)
        fun x hx => hread x (mem_of_mem_drop hx)
      have hlength : (v ++ tail.take part).length + (tail.drop part).length =
          v.length + tail.length := by
        simp
        omega
      rw [hlength, append_assoc, take_append_drop] at hrest
      exact hrest
    · have hnil : tail = [] := length_eq_zero_iff.mp (by omega)
      subst hnil
      simpa using Reads.pure v

theorem reads_readVector {sizeOf : ℕ} (hsizeOf : 0 < 5000000 / sizeOf)
    {v : List α} (hsize : v.length ≤ maxSize) (hread : ∀ x ∈ v, Reads read (write x) x) :
    Reads (readVector sizeOf read) (writeVector write v) v := by
  refine .bind rfl (reads_readCompactSize hsize) ?_
  simpa using reads_readVectorLoop hsizeOf v.length [] v le_rfl hread

theorem ensures_readString : Ensures readString fun blob => blob.length ≤ maxSize := by
  refine .bind ensures_readCompactSize fun nSize hsize => ?_
  split_ifs
  · exact (ensures_readBytes nSize).mono fun blob hblob => by omega
  · exact .pure (by simp)

theorem ensures_readBlobLoop (fuel nSize : ℕ) : ∀ v : Bytes, v.length ≤ nSize →
    Ensures (readBlobLoop fuel nSize v) fun blob => blob.length ≤ nSize := by
  induction fuel with
  | zero => exact fun v hv => .pure hv
  | succ fuel ih =>
    intro v hv
    unfold readBlobLoop
    split_ifs with hmore
    · refine .bind (ensures_readBytes _) fun blk hblk => ?_
      refine ih _ ?_
      rw [length_append, hblk]
      omega
    · exact .pure hv

theorem ensures_readBlob : Ensures readBlob fun blob => blob.length ≤ maxSize := by
  refine .bind ensures_readCompactSize fun nSize hsize => ?_
  exact (ensures_readBlobLoop nSize nSize [] (zero_le _)).mono
    fun blob hblob => le_trans hblob hsize

variable {post : α → Prop}

theorem ensures_readVectorLoop {batch : ℕ} (hread : Ensures read post) (fuel nSize : ℕ) :
    ∀ v : List α, v.length ≤ nSize → (∀ x ∈ v, post x) →
      Ensures (readVectorLoop batch read fuel nSize v) fun v =>
        v.length ≤ nSize ∧ ∀ x ∈ v, post x := by
  induction fuel with
  | zero => exact fun v hv hpost => .pure ⟨hv, hpost⟩
  | succ fuel ih =>
    intro v hv hpost
    unfold readVectorLoop
    split_ifs with hmore hfull
    · refine .bind (ensures_readTimes hread _) fun part hpart => ?_
      refine ih _ ?_ (forall_mem_append.mpr ⟨hpost, hpart.2⟩)
      rw [length_append, hpart.1]
      omega
    · refine .bind (ensures_readTimes hread _) fun part hpart => ?_
      refine ih _ ?_ (forall_mem_append.mpr ⟨hpost, hpart.2⟩)
      rw [length_append, hpart.1]
      omega
    · exact .pure ⟨hv, hpost⟩

theorem ensures_readVector {sizeOf : ℕ} (hread : Ensures read post) :
    Ensures (readVector sizeOf read) fun v =>
      v.length ≤ maxSize ∧ ∀ x ∈ v, post x := by
  refine .bind ensures_readCompactSize fun nSize hsize => ?_
  exact (ensures_readVectorLoop hread nSize nSize [] (zero_le _)
    (by simp)).mono fun v hv => ⟨le_trans hv.1 hsize, hv.2⟩

end ImageCoin
