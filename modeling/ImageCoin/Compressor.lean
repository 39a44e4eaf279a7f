import ImageCoin.Chainstate

/-!
# The compact form of coins on disk

`CTxOutCompressor` writes the value of an output with its trailing zeros factored out and its
script with a short form for the usual scripts.
-/

namespace ImageCoin

open ByteStream List Option Reads Nat
variable {script : CScript} {i n : ℕ} {coin : Coin}

def stripZeros : ℕ → UInt64 → ℕ → UInt64 × ℕ
  | 0, n, e => (n, e)
  | fuel + 1, n, e =>
    if n % 10 = 0 then stripZeros fuel (n / 10) (e + 1) else (n, e)

def compressAmount (n : UInt64) : UInt64 :=
  if n = 0 then 0
  else
    let (n, e) := stripZeros 9 n 0
    if e < 9 then
      let d := n % 10
      let n := n / 10
      1 + (n * 9 + d - 1) * 10 + UInt64.ofNat e
    else 1 + (n - 1) * 10 + 9

def appendZeros : ℕ → UInt64 → UInt64
  | 0, n => n
  | e + 1, n => appendZeros e (n * 10)

def decompressAmount (x : UInt64) : UInt64 :=
  if x = 0 then 0
  else
    let x := x - 1
    let e := (x % 10).toNat
    let x := x / 10
    if e < 9 then
      let d := x % 9 + 1
      let x := x / 9
      appendZeros e (x * 10 + d)
    else appendZeros e (x + 1)

theorem stripZeros_spec (fuel : ℕ) : ∀ (n : UInt64) (e : ℕ), n.toNat ≠ 0 → ∃ m z : ℕ,
    stripZeros fuel n e = (UInt64.ofNat m, e + z) ∧ z ≤ fuel ∧
      n.toNat = m * 10 ^ z ∧ (z < fuel → m % 10 ≠ 0) := by
  induction fuel with
  | zero =>
    intro n e hn
    exact ⟨n.toNat, 0, by simp [stripZeros], le_rfl, by simp, by simp⟩
  | succ fuel ih =>
    intro n e hn
    have hmod : (n % 10).toNat = n.toNat % 10 := by simp
    by_cases hzero : n % 10 = 0
    · have hten : n.toNat % 10 = 0 := by rw [← hmod, hzero]; rfl
      have hdiv : (n / 10).toNat = n.toNat / 10 := by simp
      obtain ⟨m, z, hstrip, hz, hnat, hlast⟩ :=
        ih (n / 10) (e + 1) (by omega)
      refine ⟨m, z + 1, ?_, by omega, ?_, fun hlt => hlast (by omega)⟩
      · rw [stripZeros, if_pos hzero, hstrip]
        congr 1
        omega
      · have hpow : m * 10 ^ (z + 1) = m * 10 ^ z * 10 := by ring
        omega
    · have hten : n.toNat % 10 ≠ 0 := by
        intro hten
        apply hzero
        apply UInt64.toNat_inj.mp
        simp [hten]
      exact ⟨n.toNat, 0, by simp [stripZeros, hzero], by omega, by simp,
        fun _ => hten⟩

theorem toNat_appendZeros (e : ℕ) : ∀ n : UInt64, n.toNat * 10 ^ e < 2 ^ 64 →
    (appendZeros e n).toNat = n.toNat * 10 ^ e := by
  induction e with
  | zero => intro n _; simp [appendZeros]
  | succ e ih =>
    intro n hn
    have hpow : n.toNat * 10 ^ (e + 1) = n.toNat * 10 * 10 ^ e := by ring
    have hone : 1 ≤ 10 ^ e := one_le_pow _ _ (by omega)
    have hmul : (n * 10).toNat = n.toNat * 10 := by
      apply mod_eq_of_lt
      calc n.toNat * 10 = n.toNat * 10 * 1 := (mul_one _).symm
        _ ≤ n.toNat * 10 * 10 ^ e := mul_le_mul_left _ hone
        _ < 2 ^ 64 := by rwa [← hpow]
    rw [appendZeros, ih _ (by rwa [hmul, ← hpow]), hmul, hpow]

def amountCode (m z : ℕ) : ℕ :=
  if z < 9 then 1 + (m / 10 * 9 + m % 10 - 1) * 10 + z
  else 1 + (m - 1) * 10 + 9

theorem compressAmount_spec {n : UInt64} (hn : n.toNat ≠ 0) (hbound : n.toNat < 2 ^ 60) :
    ∃ m z : ℕ, n.toNat = m * 10 ^ z ∧ z ≤ 9 ∧ m ≠ 0 ∧ (z < 9 → m % 10 ≠ 0) ∧
      m < 2 ^ 60 ∧ (compressAmount n).toNat = amountCode m z := by
  obtain ⟨m, z, hstrip, hz, hnat, hlast⟩ := stripZeros_spec 9 n 0 hn
  have hm : m ≠ 0 := by
    rintro rfl
    exact hn (by simpa using hnat)
  have hle : m ≤ n.toNat := by
    rw [hnat]
    exact Nat.le_mul_of_pos_right _ (by positivity)
  have hzero : n ≠ 0 := by
    rintro rfl
    exact hn rfl
  refine ⟨m, z, hnat, hz, hm, hlast, by omega, ?_⟩
  simp only [compressAmount, if_neg hzero, hstrip, zero_add, amountCode]
  split_ifs with hlt
  · have hlow : (UInt64.ofNat m / 10 * 9 + UInt64.ofNat m % 10).toNat = m / 10 * 9 + m % 10 := by
      simp only [UInt64.toNat_add, UInt64.toNat_mul, UInt64.toNat_div,
        UInt64.toNat_mod, UInt64.toNat_ofNat', UInt64.reduceToNat]
      omega
    simp only [UInt64.toNat_add, UInt64.toNat_sub, UInt64.toNat_mul,
      UInt64.toNat_ofNat', UInt64.reduceToNat] at hlow ⊢
    omega
  · simp [UInt64.toNat_sub]
    omega

theorem decompressAmount_of_code {x : UInt64} {m z : ℕ} (hz : z ≤ 9)
    (hm : m ≠ 0) (hlast : z < 9 → m % 10 ≠ 0) (hmax : m * 10 ^ z < 2 ^ 64)
    (hcode : x.toNat = amountCode m z) : (decompressAmount x).toNat = m * 10 ^ z := by
  have hx : x ≠ 0 := by
    rintro rfl
    unfold amountCode at hcode
    split_ifs at hcode <;> simp only [UInt64.toNat_zero] at hcode <;> omega
  have hpred : (x - 1).toNat = x.toNat - 1 := by
    rw [UInt64.toNat_sub_of_le]
    · rfl
    · apply UInt64.le_iff_toNat_le.mpr
      unfold amountCode at hcode
      split_ifs at hcode <;> simp only [UInt64.toNat_one] <;> omega
  have hbase : m < 2 ^ 64 :=
    lt_of_le_of_lt (Nat.le_mul_of_pos_right _ (by positivity)) hmax
  have hdigit : ((x - 1) % 10).toNat = z := by
    simp only [UInt64.toNat_mod, hpred, hcode, amountCode, UInt64.reduceToNat]
    split_ifs <;> omega
  simp only [decompressAmount, if_neg hx, hdigit]
  split_ifs with hlt
  · have hbody : (((x - 1) / 10) / 9 * 10 + (((x - 1) / 10) % 9 + 1)).toNat = m := by
      simp only [UInt64.toNat_add, UInt64.toNat_mul, UInt64.toNat_div,
        UInt64.toNat_mod, hpred, hcode, amountCode, if_pos hlt, UInt64.reduceToNat]
      omega
    rw [toNat_appendZeros _ _ (by rwa [hbody]), hbody]
  · have hbody : ((x - 1) / 10 + 1).toNat = m := by
      simp only [UInt64.toNat_add, UInt64.toNat_div, hpred, hcode, amountCode,
        if_neg hlt, UInt64.reduceToNat]
      omega
    rw [toNat_appendZeros _ _ (by rwa [hbody]), hbody]

theorem decompressAmount_compressAmount {n : UInt64}
    (hbound : n.toNat < 2 ^ 60) : decompressAmount (compressAmount n) = n := by
  by_cases hzero : n.toNat = 0
  · obtain rfl : n = 0 := UInt64.toNat_inj.mp hzero
    rfl
  · obtain ⟨m, z, hnat, hz, hm, hlast, _, hcode⟩ :=
      compressAmount_spec hzero hbound
    apply UInt64.toNat_inj.mp
    rw [decompressAmount_of_code hz hm hlast (by omega) hcode, hnat]

/-! ## Scripts -/

def nSpecialScripts : ℕ := 6

/-- What the compressor asks of the curve library: whether an uncompressed key
is a point of the curve, and the point with a given first coordinate and parity.
The second finds every point that the first accepts. -/
structure PubKeyOps where
  isFullyValid : Bytes → Bool
  decompress : Bytes → Option Bytes
  decompress_compressed : ∀ pubkey : Bytes, pubkey.length = 65 →
    byteAt pubkey 0 = 0x04 → isFullyValid pubkey →
      decompress ((0x02 + (byteAt pubkey 64 &&& 0x01)) :: (pubkey.drop 1).take 32) = some pubkey

def isToKeyID (script : CScript) : Option Bytes :=
  if script.length = 25 ∧ byteAt script 0 = OP_DUP ∧
      byteAt script 1 = OP_HASH160 ∧ byteAt script 2 = 20 ∧
      byteAt script 23 = OP_EQUALVERIFY ∧ byteAt script 24 = OP_CHECKSIG then
    some ((script.drop 3).take 20)
  else none

def isToScriptID (script : CScript) : Option Bytes :=
  if script.length = 23 ∧ byteAt script 0 = OP_HASH160 ∧
      byteAt script 1 = 20 ∧ byteAt script 22 = OP_EQUAL then
    some ((script.drop 2).take 20)
  else none

section
variable (ops : PubKeyOps) (script : CScript)

def isToPubKey : Option Bytes :=
  if script.length = 35 ∧ byteAt script 0 = 33 ∧ byteAt script 34 = OP_CHECKSIG ∧
      (byteAt script 1 = 0x02 ∨ byteAt script 1 = 0x03) then
    some ((script.drop 1).take 33)
  else if script.length = 67 ∧ byteAt script 0 = 65 ∧
      byteAt script 66 = OP_CHECKSIG ∧ byteAt script 1 = 0x04 then
    let pubkey := (script.drop 1).take 65
    if ops.isFullyValid pubkey then some pubkey else none
  else none

/-- The short form of a key: its first coordinate after a byte for the parity
of the second and for the form that the key had. -/
def compressPubKey (pubkey : Bytes) : Option Bytes :=
  let out := (pubkey.drop 1).take 32
  if byteAt pubkey 0 = 0x02 ∨ byteAt pubkey 0 = 0x03 then
    some (byteAt pubkey 0 :: out)
  else if byteAt pubkey 0 = 0x04 then
    some ((0x04 ||| (byteAt pubkey 64 &&& 0x01)) :: out)
  else none

def compressScript : Option Bytes :=
  match isToKeyID script with
  | some keyID => some (0x00 :: keyID)
  | none =>
    match isToScriptID script with
    | some scriptID => some (0x01 :: scriptID)
    | none => (isToPubKey ops script).bind compressPubKey

def getSpecialSize (nSize : ℕ) : ℕ :=
  if nSize = 0 ∨ nSize = 1 then 20
  else if nSize = 2 ∨ nSize = 3 ∨ nSize = 4 ∨ nSize = 5 then 32
  else 0

def decompressScript (nSize : ℕ) (vch : Bytes) : Option CScript :=
  match nSize with
  | 0 => some ([OP_DUP, OP_HASH160, 20] ++ vch ++ [OP_EQUALVERIFY, OP_CHECKSIG])
  | 1 => some ([OP_HASH160, 20] ++ vch ++ [OP_EQUAL])
  | 2 | 3 => some ([33, UInt8.ofNat nSize] ++ vch ++ [OP_CHECKSIG])
  | 4 | 5 =>
    (ops.decompress (UInt8.ofNat (nSize - 2) :: vch)).map fun pubkey =>
      65 :: pubkey ++ [OP_CHECKSIG]
  | _ => none

def serializeScript : Bytes :=
  match compressScript ops script with
  | some compr => compr
  | none =>
    writeVarInt 32 ((script.length + nSpecialScripts) % 2 ^ 32 : ℕ) ++ script

/-- `CScriptCompressor::Unserialize` into an empty script, which a key that
cannot be decompressed leaves empty. -/
def unserializeScript : Reader CScript := do
  let nSize ← readVarInt 32
  if nSize < nSpecialScripts then do
    let vch ← readBytes (getSpecialSize nSize)
    pure ((decompressScript ops nSize vch).getD [])
  else if nSize - nSpecialScripts > maxScriptSize then do
    let _ ← readBytes (nSize - nSpecialScripts)
    pure [OP_RETURN]
  else readBytes (nSize - nSpecialScripts)

end

theorem take_drop_eq_map_byteAt (hlength : i + n ≤ script.length) :
    (script.drop i).take n = (range n).map fun k => byteAt script (i + k) := by
  apply ext_getElem
  · simp
    omega
  · intro k hk _
    have hin : i + k < script.length := by
      simp only [length_take] at hk
      omega
    simp [byteAt, getElem?_eq_getElem hin]

theorem eq_append_middle {k : ℕ} (hlength : script.length = i + n + k) :
    script = (range i).map (byteAt script) ++ (script.drop i).take n ++
      (range k).map fun j => byteAt script (i + n + j) := by
  have hfirst : script.take i = (range i).map (byteAt script) := by
    have htake : (script.drop 0).take i = (range i).map fun j => byteAt script (0 + j) :=
      take_drop_eq_map_byteAt (by omega)
    simpa using htake
  have hlast : script.drop (i + n) = (range k).map fun j => byteAt script (i + n + j) := by
    rw [← take_drop_eq_map_byteAt (by omega), take_of_length_le]
    simp only [length_drop]
    omega
  rw [← hfirst, ← hlast, ← take_add, take_append_drop]

section
variable {ops : PubKeyOps} {script : CScript}

/-- A special form of the script that is decompressed to it. -/
def ShortForm (ops : PubKeyOps) (script : CScript) (compr : Bytes) : Prop :=
  ∃ (first : UInt8) (vch : Bytes), compr = first :: vch ∧
    first.toNat < nSpecialScripts ∧ vch.length = getSpecialSize first.toNat ∧
    decompressScript ops first.toNat vch = some script

theorem shortForm_keyID {keyID : Bytes} (hkey : isToKeyID script = some keyID) :
    ShortForm ops script (0x00 :: keyID) := by
  unfold isToKeyID at hkey
  split_ifs at hkey with hform
  obtain ⟨hlength, h0, h1, h2, h23, h24⟩ := hform
  obtain rfl := some.inj hkey
  have hparts := eq_append_middle (n := 20) (k := 2) hlength
  simp only [show range 3 = [0, 1, 2] from rfl, show range 2 = [0, 1] from rfl, map_cons, h0, h1,
    h2, h23, h24] at hparts
  exact ⟨0x00, _, rfl, by decide, by simp [hlength, getSpecialSize], congrArg some hparts.symm⟩

theorem shortForm_scriptID {scriptID : Bytes} (hid : isToScriptID script = some scriptID) :
    ShortForm ops script (0x01 :: scriptID) := by
  unfold isToScriptID at hid
  split_ifs at hid with hform
  obtain ⟨hlength, h0, h1, h22⟩ := hform
  obtain rfl := some.inj hid
  have hparts := eq_append_middle (n := 20) (k := 1) hlength
  simp only [show range 2 = [0, 1] from rfl, show range 1 = [0] from rfl, map_cons, h0, h1,
    h22] at hparts
  exact ⟨0x01, _, rfl, by decide, by simp [hlength, getSpecialSize], congrArg some hparts.symm⟩

theorem byteAt_take_drop {k : ℕ} (hk : k < n) :
    byteAt ((script.drop i).take n) k = byteAt script (i + k) := by
  simp [byteAt, hk]

variable {compr : Bytes}

theorem shortForm_compressedKey (hlength : script.length = 35) (h0 : byteAt script 0 = 33)
    (h34 : byteAt script 34 = OP_CHECKSIG) (h1 : byteAt script 1 = 0x02 ∨ byteAt script 1 = 0x03)
    (hcompr : compressPubKey ((script.drop 1).take 33) = some compr) :
    ShortForm ops script compr := by
  have hfirst : byteAt ((script.drop 1).take 33) 0 = byteAt script 1 :=
    byteAt_take_drop (by omega)
  simp only [compressPubKey, hfirst, if_pos h1, some.injEq] at hcompr
  have hcoord : (((script.drop 1).take 33).drop 1).take 32 = (script.drop 2).take 32 := by
    rw [drop_take, drop_drop, take_take]
    rfl
  have hparts := eq_append_middle (n := 32) (k := 1) hlength
  simp only [show range 2 = [0, 1] from rfl, show range 1 = [0] from rfl, map_cons, h0,
    h34] at hparts
  have hsize : ((script.drop 2).take 32).length = 32 := by simp [hlength]
  rw [hcoord] at hcompr
  refine ⟨byteAt script 1, (script.drop 2).take 32, hcompr.symm, ?_, ?_, ?_⟩
  · rcases h1 with h1 | h1 <;> rw [h1] <;> decide
  · rcases h1 with h1 | h1 <;> rw [h1, hsize] <;> rfl
  · rcases h1 with h1 | h1 <;> rw [h1] at hparts ⊢ <;>
      exact congrArg some hparts.symm

theorem parity_cases (b : UInt8) : b &&& 0x01 = 0 ∨ b &&& 0x01 = 1 := by
  have hlow : (b &&& 0x01).toNat = b.toNat % 2 := by
    exact and_one_is_mod _
  rcases mod_two_eq_zero_or_one b.toNat with hmod | hmod
  · exact .inl (UInt8.toNat_inj.mp (by rw [hlow, hmod]; rfl))
  · exact .inr (UInt8.toNat_inj.mp (by rw [hlow, hmod]; rfl))

theorem shortForm_fullKey (hlength : script.length = 67)
    (h0 : byteAt script 0 = 65) (h66 : byteAt script 66 = OP_CHECKSIG) (h1 : byteAt script 1 = 0x04)
    (hvalid : ops.isFullyValid ((script.drop 1).take 65))
    (hcompr : compressPubKey ((script.drop 1).take 65) = some compr) :
    ShortForm ops script compr := by
  have hfirst : byteAt ((script.drop 1).take 65) 0 = 0x04 := by
    rw [byteAt_take_drop (by omega)]
    exact h1
  have hsize : ((script.drop 1).take 65).length = 65 := by simp [hlength]
  have hkey := ops.decompress_compressed _ hsize hfirst hvalid
  have hcoord : ((((script.drop 1).take 65).drop 1).take 32).length = 32 := by
    simp [hlength]
  simp only [compressPubKey, hfirst, if_true, Option.some.injEq,
    show ¬((0x04 : UInt8) = 0x02 ∨ (0x04 : UInt8) = 0x03) by decide,
    if_false] at hcompr
  have hparts := eq_append_middle (n := 65) (k := 1) hlength
  simp only [show range 1 = [0] from rfl, map_cons, h0, h66] at hparts
  refine ⟨_, _, hcompr.symm, ?_⟩
  rcases parity_cases (byteAt ((script.drop 1).take 65) 64) with hparity | hparity
  all_goals
    rw [hparity] at hkey ⊢
    refine ⟨by decide, hcoord, ?_⟩
    have hopen := congrArg (Option.map fun pubkey => 65 :: pubkey ++ [OP_CHECKSIG]) hkey
    exact hopen.trans (congrArg some hparts.symm)

theorem shortForm_compressScript (hcompr : compressScript ops script = some compr) :
    ShortForm ops script compr := by
  unfold compressScript at hcompr
  split at hcompr
  · next keyID hkey =>
      obtain rfl := some.inj hcompr
      exact shortForm_keyID hkey
  · split at hcompr
    · next scriptID hid =>
        obtain rfl := some.inj hcompr
        exact shortForm_scriptID hid
    · obtain ⟨pubkey, hkey, hcompr⟩ := bind_eq_some_iff.mp hcompr
      simp only [isToPubKey] at hkey
      split_ifs at hkey with hshort hfull hvalid
      · obtain ⟨hlength, h0, h34, h1⟩ := hshort
        obtain rfl := some.inj hkey
        exact shortForm_compressedKey hlength h0 h34 h1 hcompr
      · obtain ⟨hlength, h0, h66, h1⟩ := hfull
        obtain rfl := some.inj hkey
        exact shortForm_fullKey hlength h0 h66 h1 hvalid hcompr

theorem reads_varInt_byte {first : UInt8} (hfirst : first.toNat < 128) :
    Reads (readVarInt 32) [first] first.toNat := by
  have hvalue : codeValue ([] ++ [first]) % 2 ^ 32 = first.toNat := by
    rw [codeValue_concat, digitsValue, foldl_nil]
    omega
  exact hvalue ▸ reads_code ⟨[], first, rfl, by simp, hfirst⟩

theorem reads_unserializeScript (ops : PubKeyOps) (hsize : script.length ≤ maxScriptSize) :
    Reads (unserializeScript ops) (serializeScript ops script) script := by
  have hsmall : maxScriptSize = 10000 := rfl
  have hspecial : nSpecialScripts = 6 := rfl
  unfold serializeScript unserializeScript
  cases hcompr : compressScript ops script with
  | some compr =>
    obtain ⟨first, vch, rfl, hfirst, hlength, hopen⟩ :=
      shortForm_compressScript hcompr
    apply Reads.bind singleton_append.symm (reads_varInt_byte (by omega))
    rw [if_pos hfirst]
    have hread := (reads_readBytes hlength).map
      fun vch => (decompressScript ops first.toNat vch).getD []
    rw [hopen] at hread
    simpa using hread
  | none =>
    have hwide : (script.length + nSpecialScripts) % 2 ^ 32 =
        script.length + nSpecialScripts := mod_eq_of_lt (by omega)
    simp only [hwide]
    apply Reads.bind rfl (reads_readVarInt (by omega) (by omega))
    rw [if_neg (by omega), if_neg (by omega), Nat.add_sub_cancel]
    exact reads_readBytes rfl

/-- Amounts up to the maximum are coded without overflow and decoded again, and so is every
script that is not too long. -/
theorem compressor_round_trip (ops : PubKeyOps) : (∀ n : UInt64, (n.toNat : ℤ) ≤ maxMoney.toInt →
      decompressAmount (compressAmount n) = n ∧
      (n ≠ 0 → ∃ m z, n.toNat = m * 10 ^ z ∧ z ≤ 9 ∧ (z < 9 → m % 10 ≠ 0) ∧
        (compressAmount n).toNat = amountCode m z) ∧
      ∀ n' : UInt64, (n'.toNat : ℤ) ≤ maxMoney.toInt → compressAmount n = compressAmount n' →
        n = n') ∧
    ∀ script : CScript, script.length ≤ maxScriptSize →
      Reads (unserializeScript ops) (serializeScript ops script) script := by
  have hbound : ∀ n : UInt64, (n.toNat : ℤ) ≤ maxMoney.toInt → n.toNat < 2 ^ 60 := by
    intro n hn
    rw [maxMoney_toInt] at hn
    omega
  refine ⟨fun n hn => ⟨decompressAmount_compressAmount (hbound n hn), fun hne => ?_,
    fun n' hn' heq => ?_⟩, fun script => reads_unserializeScript ops⟩
  · have hnat : n.toNat ≠ 0 := fun hzero => hne (UInt64.toNat_inj.mp hzero)
    obtain ⟨m, z, hvalue, hz, -, hlast, -, hcode⟩ := compressAmount_spec hnat (hbound n hn)
    exact ⟨m, z, hvalue, hz, hlast, hcode⟩
  · rw [← decompressAmount_compressAmount (hbound n hn), heq,
      decompressAmount_compressAmount (hbound n' hn')]

end

section
variable (ops : PubKeyOps)

def compressTxOut (out : CTxOut) : Bytes :=
  writeVarInt 64 (compressAmount out.nValue.toUInt64).toNat ++
    serializeScript ops out.scriptPubKey

def decompressTxOut : Reader CTxOut := do
  let nVal ← readVarInt 64
  let scriptPubKey ← unserializeScript ops
  pure { CTxOut.null with
    nValue := (decompressAmount (UInt64.ofNat nVal)).toInt64,
    scriptPubKey := scriptPubKey }

variable (coin : Coin)

def Coin.code : ℕ :=
  coin.nHeight.toNat * 2 + coin.fCoinBase.toNat

def Coin.serialize : Bytes :=
  writeVarInt 32 coin.code ++ compressTxOut ops coin.out

def Coin.unserialize : Reader Coin := do
  let code ← readVarInt 32
  let out ← decompressTxOut ops
  pure ⟨out, code % 2 = 1, BitVec.ofNat 31 (code / 2)⟩

/-! ## Undo data -/

/-- `TxInUndoSerializer`.  The code is computed as a signed `int`, and a byte of
zero stands where old versions wrote the version of the transaction. -/
def serializeTxInUndo : Bytes :=
  writeVarInt 32 (Int.bmod coin.code (2 ^ 32)) ++
    (if 0 < coin.nHeight.toNat then [0] else []) ++ compressTxOut ops coin.out

def readVersionDummy (nHeight : ℕ) : Reader Unit :=
  if 0 < nHeight then do
    let _ ← readVarInt 32
    pure ()
  else pure ()

def unserializeTxInUndo : Reader Coin := do
  let nCode ← readVarInt 32
  readVersionDummy (nCode / 2)
  let out ← decompressTxOut ops
  pure ⟨out, nCode % 2 = 1, BitVec.ofNat 31 (nCode / 2)⟩

def maxInputsPerBlock : ℕ := 55000000 / 41

def CTxUndo.serialize (txundo : CTxUndo) : Bytes :=
  writeVector (serializeTxInUndo ops) txundo.vprevout

def CTxUndo.unserialize : Reader CTxUndo := do
  let count ← readCompactSize
  if count > maxInputsPerBlock then
    throw (.failure "Too many input undo records")
  else do
    let vprevout ← readTimes (unserializeTxInUndo ops) count
    pure ⟨vprevout⟩

def CBlockUndo.serialize (blockUndo : CBlockUndo) : Bytes :=
  writeVector (CTxUndo.serialize ops) blockUndo.vtxundo

def CBlockUndo.unserialize : Reader CBlockUndo :=
  CBlockUndo.mk <$> readVector 24 (CTxUndo.unserialize ops)

end

/-! ## What is read back

Everything comes back but the image. -/

def CTxOut.stored (out : CTxOut) : CTxOut :=
  { CTxOut.null with nValue := out.nValue, scriptPubKey := out.scriptPubKey }

def Coin.stored (coin : Coin) : Coin := { coin with out := coin.out.stored }

/-- The value is in range, and a script that is too long would come back as `OP_RETURN`. -/
def Compressible (coin : Coin) : Prop :=
  moneyRange coin.out.nValue ∧ coin.out.scriptPubKey.length ≤ maxScriptSize

/-- A coin that database and undo file give back as it was.  Undo data of height
zero stands for data without a height. -/
structure Storable (coin : Coin) : Prop where
  inRange : moneyRange coin.out.nValue
  spendable : isUnspendable coin.out.scriptPubKey = false
  noImage : coin.out.imgbase64 = []
  noRounds : coin.out.nRounds = -10
  height_pos : 0 < coin.nHeight.toNat
  height_lt : coin.nHeight.toNat < 2 ^ 30

theorem decompressAmount_of_moneyRange {nValue : CAmount} (hrange : moneyRange nValue) :
    (decompressAmount (compressAmount nValue.toUInt64)).toInt64 = nValue := by
  obtain ⟨hlow, hhigh⟩ := moneyRange_iff.mp hrange
  have hsmall : nValue.toUInt64.toNat < 2 ^ 60 := by
    have hint : nValue.toInt = nValue.toUInt64.toBitVec.toInt := rfl
    rw [BitVec.toInt_eq_toNat_cond] at hint
    change nValue.toUInt64.toBitVec.toNat < 2 ^ 60
    split_ifs at hint <;> omega
  rw [decompressAmount_compressAmount hsmall]
  exact Int64.toInt64_toUInt64 _

theorem reads_decompressTxOut (ops : PubKeyOps) (hcoin : Compressible coin) :
    Reads (decompressTxOut ops) (compressTxOut ops coin.out)
      coin.out.stored := by
  obtain ⟨hrange, hsize⟩ := hcoin
  apply bind rfl (reads_readVarInt (by omega) (UInt64.toNat_lt _))
  apply bind (append_nil _).symm (reads_unserializeScript ops hsize)
  rw [UInt64.ofNat_toNat, decompressAmount_of_moneyRange hrange]
  exact .pure _

theorem Coin.code_lt (coin : Coin) : coin.code < 2 ^ 32 := by
  have hflag := coin.fCoinBase.toNat_le
  unfold Coin.code
  omega

theorem Coin.code_div (coin : Coin) : coin.code / 2 = coin.nHeight.toNat := by
  have hflag := coin.fCoinBase.toNat_le
  unfold Coin.code
  omega

theorem Coin.code_mod (coin : Coin) : decide (coin.code % 2 = 1) = coin.fCoinBase := by
  unfold Coin.code
  cases coin.fCoinBase <;> simp

theorem reads_coin_unserialize (ops : PubKeyOps) (hcoin : Compressible coin) :
    Reads (Coin.unserialize ops) (coin.serialize ops) coin.stored := by
  apply bind rfl (reads_readVarInt (by omega) coin.code_lt)
  apply bind (append_nil _).symm (reads_decompressTxOut ops hcoin)
  rw [Coin.code_div, Coin.code_mod, BitVec.ofNat_toNat, BitVec.setWidth_eq]
  exact .pure _

theorem reads_readVersionDummy (nHeight : ℕ) :
    Reads (readVersionDummy nHeight) (if 0 < nHeight then [0] else []) () := by
  unfold readVersionDummy
  split_ifs
  · exact .bind (append_nil _).symm (reads_varInt_byte (by decide)) (.pure ())
  · exact .pure ()

theorem reads_unserializeTxInUndo (ops : PubKeyOps)
    (hcoin : Compressible coin) (hheight : coin.nHeight.toNat < 2 ^ 30) :
    Reads (unserializeTxInUndo ops) (serializeTxInUndo ops coin)
      coin.stored := by
  have hcode : coin.code < 2 ^ 31 := by
    have hdiv := coin.code_div
    omega
  have hint : Int.bmod coin.code (2 ^ 32) = coin.code :=
    Int.bmod_eq_of_le (by omega) (by omega)
  unfold serializeTxInUndo
  rw [hint, append_assoc]
  apply bind rfl (reads_readVarInt (by omega) coin.code_lt)
  rw [Coin.code_div]
  apply bind rfl (reads_readVersionDummy _)
  apply bind (append_nil _).symm (reads_decompressTxOut ops hcoin)
  rw [Coin.code_mod, BitVec.ofNat_toNat, BitVec.setWidth_eq]
  exact .pure _

section
variable {coin : Coin} (hcoin : Storable coin)
include hcoin

theorem Storable.compressible : Compressible coin := by
  have hscript := hcoin.spendable
  simp only [isUnspendable, Bool.or_eq_false_iff, decide_eq_false_iff_not, not_lt] at hscript
  exact ⟨hcoin.inRange, hscript.2⟩

theorem Storable.stored_eq : coin.stored = coin := by
  obtain ⟨⟨nValue, scriptPubKey, imgbase64, nRounds⟩, fCoinBase, nHeight⟩ := coin
  have himage : imgbase64 = [] := hcoin.noImage
  have hrounds : nRounds = -10 := hcoin.noRounds
  subst himage hrounds
  rfl

theorem Storable.unspent : coin.isSpent = false := by
  have hrange := (moneyRange_iff.mp hcoin.inRange).1
  simp only [Coin.isSpent, CTxOut.isNull, decide_eq_false_iff_not]
  intro hnull
  rw [hnull] at hrange
  exact absurd hrange (by decide)

variable (ops : PubKeyOps)

theorem Storable.reads_unserialize : Reads (Coin.unserialize ops) (coin.serialize ops) coin := by
  have hread := reads_coin_unserialize ops hcoin.compressible
  rwa [hcoin.stored_eq] at hread

theorem Storable.reads_undo :
    Reads (unserializeTxInUndo ops) (serializeTxInUndo ops coin) coin := by
  have hread := reads_unserializeTxInUndo ops hcoin.compressible hcoin.height_lt
  rwa [hcoin.stored_eq] at hread

end

/-- Undo data that the undo file gives back as it was. -/
structure StorableUndo (blockUndo : CBlockUndo) : Prop where
  transactions_le : blockUndo.vtxundo.length ≤ maxSize
  inputs_le : ∀ txundo ∈ blockUndo.vtxundo, txundo.vprevout.length ≤ maxInputsPerBlock
  coins : ∀ txundo ∈ blockUndo.vtxundo, ∀ coin ∈ txundo.vprevout, Storable coin

theorem reads_txUndo_unserialize (ops : PubKeyOps) {txundo : CTxUndo}
    (hinputs : txundo.vprevout.length ≤ maxInputsPerBlock)
    (hcoins : ∀ coin ∈ txundo.vprevout, Storable coin) :
    Reads (CTxUndo.unserialize ops) (txundo.serialize ops) txundo := by
  have hsize : txundo.vprevout.length ≤ maxSize :=
    hinputs.trans (by decide)
  apply bind rfl (reads_readCompactSize hsize)
  rw [if_neg (by omega)]
  exact .bind (append_nil _).symm
    (reads_readTimes _ fun coin hmem => (hcoins coin hmem).reads_undo ops) (.pure _)

theorem reads_blockUndo_unserialize (ops : PubKeyOps) {blockUndo : CBlockUndo}
    (hundo : StorableUndo blockUndo) :
    Reads (CBlockUndo.unserialize ops) (blockUndo.serialize ops) blockUndo := by
  have hread : Reads (readVector 24 (CTxUndo.unserialize ops))
      (blockUndo.serialize ops) blockUndo.vtxundo :=
    reads_readVector (by decide) hundo.transactions_le fun txundo hmem =>
      reads_txUndo_unserialize ops (hundo.inputs_le txundo hmem) (hundo.coins txundo hmem)
  exact hread.map CBlockUndo.mk

end ImageCoin
