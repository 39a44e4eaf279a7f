import ImageCoin.Script
import Mathlib.Data.Nat.Bitwise

/-!
# Script numbers

`CScriptNum`: the variable-length signed numbers of the script language.
Operands have at most five bytes, so the 64-bit arithmetic of the source never
wraps and values are mathematical integers.
-/

namespace ImageCoin

open ByteStream List Nat UInt8

def magnitudeBytes : ℕ → ℕ → Bytes
  | 0, _ => []
  | fuel + 1, absvalue =>
    if absvalue = 0 then []
    else ofNat absvalue :: magnitudeBytes fuel (absvalue / 256)

def serializeNum (value : ℤ) : Bytes :=
  if value = 0 then []
  else
    let neg := decide (value < 0)
    let result := magnitudeBytes 8 value.natAbs
    let back := result.getLastD 0
    if back &&& 0x80 ≠ 0 then result ++ [if neg then 0x80 else 0]
    else if neg then result.dropLast ++ [back ||| 0x80]
    else result

def setVch (vch : Bytes) : ℤ :=
  if vch = [] then 0
  else
    let result := leNat vch
    if vch.getLastD 0 &&& 0x80 ≠ 0 then
      -((result - 0x80 * 256 ^ (vch.length - 1) : ℕ) : ℤ)
    else result

/-- The test of the `CScriptNum` constructor for an encoding with more bytes
than needed. -/
def isMinimalNum (vch : Bytes) : Bool :=
  vch = [] || vch.getLastD 0 &&& 0x7f ≠ 0 ||
    (vch.length > 1 && byteAt vch (vch.length - 2) &&& 0x80 ≠ 0)

def scriptNum (vch : Bytes) (fRequireMinimal : Bool) (nMaxNumSize : ℕ) : Option ℤ :=
  if vch.length > nMaxNumSize then none
  else if fRequireMinimal && !isMinimalNum vch then none
  else some (setVch vch)

def nDefaultMaxNumSize : ℕ := 4

theorem scriptNum_of_minimal {vch : Bytes} {strict lax : Bool} {nMaxNumSize : ℕ} {n : ℤ}
    (hflags : lax → strict) (hnum : scriptNum vch strict nMaxNumSize = some n) :
    scriptNum vch lax nMaxNumSize = some n := by
  unfold scriptNum at hnum ⊢
  split_ifs at hnum ⊢ with hsize hstrict hlax
  · simp_all
  · exact hnum

theorem scriptNum_serializeNum_small {n : ℕ} (hn : n ≤ 16) (fRequireMinimal : Bool) :
    scriptNum (serializeNum n) fRequireMinimal nDefaultMaxNumSize = some (n : ℤ) := by
  have hall : ∀ n ∈ List.range 17, ∀ minimal : Bool,
      scriptNum (serializeNum (n : ℕ)) minimal nDefaultMaxNumSize =
        some ((n : ℕ) : ℤ) := by decide
  exact hall n (List.mem_range.mpr (by omega)) fRequireMinimal

/-- The bytes of a magnitude with the sign in the last bit. -/
def signedBytes (neg : Bool) : ℕ → ℕ → Bytes
  | 0, _ => []
  | fuel + 1, m =>
    if m < 128 then [ofNat (m + if neg then 128 else 0)]
    else ofNat m :: signedBytes neg fuel (m / 256)

def magnitude : Bytes → ℕ
  | [] => 0
  | [b] => b.toNat % 128
  | b :: rest => b.toNat + 256 * magnitude rest

def isNegative (vch : Bytes) : Bool := 128 ≤ (vch.getLastD 0).toNat

theorem magnitude_cons (b c : UInt8) (rest : Bytes) :
    magnitude (b :: c :: rest) = b.toNat + 256 * magnitude (c :: rest) := rfl

theorem isNegative_cons (b c : UInt8) (rest : Bytes) :
    isNegative (b :: c :: rest) = isNegative (c :: rest) := by simp [isNegative]

theorem and_sign_ne_zero (b : UInt8) : b &&& 0x80 ≠ 0 ↔ 128 ≤ b.toNat := by
  have hbyte := b.toNat_lt
  have hbit : (b &&& 0x80).toNat = (decide (b.toNat / 2 ^ 7 % 2 = 1)).toNat * 2 ^ 7 := by
    rw [← testBit_eq_decide_div_mod_eq, ← and_two_pow]
    rfl
  rw [Ne, ← UInt8.toNat_inj, hbit]
  by_cases hset : b.toNat / 2 ^ 7 % 2 = 1
  · rw [decide_eq_true hset]
    exact iff_of_true (by decide) (by omega)
  · rw [decide_eq_false hset]
    exact iff_of_false (by decide) (by omega)

theorem and_magnitude_ne_zero (b : UInt8) : b &&& 0x7f ≠ 0 ↔ b.toNat % 128 ≠ 0 := by
  have hbits : (b &&& 0x7f).toNat = b.toNat % 2 ^ 7 := and_two_pow_sub_one_eq_mod b.toNat 7
  rw [Ne, ← UInt8.toNat_inj, hbits]
  rfl

theorem or_sign {m : ℕ} (hm : m < 128) : ofNat m ||| 0x80 = ofNat (m + 128) := by
  have hor : (UInt8.ofNat m ||| 0x80).toNat = 1 <<< 7 ||| m % 256 := Nat.or_comm _ _
  apply toNat.inj
  rw [hor, ← shiftLeft_add_eq_or_of_lt (by omega), toNat_ofNat']
  omega

theorem leNat_eq_magnitude (vch : Bytes) : leNat vch =
    magnitude vch + if isNegative vch then 128 * 256 ^ (vch.length - 1) else 0 := by
  match vch with
  | [] => rfl
  | [b] =>
    have hbyte := b.toNat_lt
    simp only [leNat, magnitude, isNegative, getLastD_cons, getLastD_nil, length_singleton,
      decide_eq_true_eq]
    split_ifs <;> omega
  | b :: c :: rest =>
    have hrest := leNat_eq_magnitude (c :: rest)
    rw [leNat, hrest, magnitude_cons, isNegative_cons]
    simp only [length_cons, Nat.add_sub_cancel]
    split_ifs <;> ring

theorem setVch_eq (vch : Bytes) :
    setVch vch = if isNegative vch then -(magnitude vch : ℤ) else magnitude vch := by
  cases vch with
  | nil => rfl
  | cons b rest =>
    have hvalue := leNat_eq_magnitude (b :: rest)
    simp only [setVch, reduceCtorEq, if_false, and_sign_ne_zero]
    by_cases hneg : isNegative (b :: rest)
    · rw [if_pos hneg] at hvalue
      rw [if_pos (of_decide_eq_true hneg), if_pos hneg, hvalue, Nat.add_sub_cancel]
    · rw [if_neg hneg] at hvalue
      rw [if_neg fun h => hneg (decide_eq_true h), if_neg hneg, hvalue, add_zero]

/-- What `serialize` appends to or sets in the magnitude is what `signedBytes` writes last. -/
theorem serializeNum_eq {n : ℤ} (hn : n ≠ 0) (hbound : n.natAbs < 256 ^ 8) :
    serializeNum n = signedBytes (decide (n < 0)) 9 n.natAbs := by
  have hfinish : ∀ (neg : Bool) (fuel m : ℕ), m ≠ 0 → m < 256 ^ fuel →
      (if (magnitudeBytes fuel m).getLastD 0 &&& 0x80 ≠ 0 then
          magnitudeBytes fuel m ++ [if neg then 0x80 else 0]
        else if neg then (magnitudeBytes fuel m).dropLast ++
          [(magnitudeBytes fuel m).getLastD 0 ||| 0x80]
        else magnitudeBytes fuel m) = signedBytes neg (fuel + 1) m := by
    intro neg fuel
    induction fuel with
    | zero =>
      intro m hm hbound
      exact absurd hbound (by simpa using hm)
    | succ fuel ih =>
      intro m hm hbound
      rw [magnitudeBytes, if_neg hm, signedBytes]
      by_cases hlast : m / 256 = 0
      · have hrest : magnitudeBytes fuel 0 = [] := by cases fuel <;> rfl
        have hbyte : (ofNat m).toNat = m := by
          rw [toNat_ofNat']
          omega
        rw [hlast, hrest, getLastD_cons, getLastD_nil, signedBytes, if_pos (by decide : 0 < 128)]
        simp only [and_sign_ne_zero]
        split_ifs <;> first | omega | rfl | simp [or_sign, *]
      · have hnext := ih (m / 256) hlast (Nat.div_lt_of_lt_mul (by rw [pow_succ] at hbound; omega))
        obtain ⟨c, rest, hrest⟩ : ∃ c rest, magnitudeBytes fuel (m / 256) = c :: rest := by
          cases fuel with
          | zero => omega
          | succ fuel => exact ⟨_, _, by rw [magnitudeBytes, if_neg hlast]⟩
        have hbig : ¬m < 128 := by omega
        rw [hrest] at hnext ⊢
        simp only [← hnext, getLastD_cons]
        split_ifs <;> rfl
  rw [serializeNum, if_neg hn]
  exact hfinish _ 8 _ (by omega) hbound

theorem signedBytes_spec (neg : Bool) (k : ℕ) : ∀ fuel m, k ≤ fuel → m < 128 * 256 ^ k →
    signedBytes neg (fuel + 1) m ≠ [] ∧ magnitude (signedBytes neg (fuel + 1) m) = m ∧
      isNegative (signedBytes neg (fuel + 1) m) = neg ∧
      (signedBytes neg (fuel + 1) m).length ≤ k + 1 := by
  have hsmall : ∀ k fuel, ∀ m < 128, signedBytes neg (fuel + 1) m ≠ [] ∧
    magnitude (signedBytes neg (fuel + 1) m) = m ∧ isNegative (signedBytes neg (fuel + 1) m) = neg ∧
    (signedBytes neg (fuel + 1) m).length ≤ k + 1 := by
    intro k fuel m hm
    rw [signedBytes, if_pos hm]
    cases neg <;> simp [magnitude, isNegative] <;> omega
  induction k with
  | zero => exact fun fuel m _ hm => hsmall 0 fuel m (by simpa using hm)
  | succ k ih =>
    intro fuel m hfuel hm
    by_cases hlast : m < 128
    · exact hsmall _ _ m hlast
    · obtain ⟨fuel, rfl⟩ : ∃ n, fuel = n + 1 := ⟨fuel - 1, by omega⟩
      obtain ⟨hne, hvalue, hneg, hlength⟩ :=
        ih fuel (m / 256) (by omega) (by rw [pow_succ] at hm; omega)
      rw [signedBytes, if_neg hlast]
      obtain ⟨c, rest, hrest⟩ := exists_cons_of_ne_nil hne
      rw [hrest] at hvalue hneg hlength ⊢
      rw [magnitude_cons, isNegative_cons, hvalue, toNat_ofNat', length_cons]
      exact ⟨cons_ne_nil _ _, by omega, hneg, by omega⟩

theorem isMinimalNum_iff (fuel : ℕ) : ∀ vch ≠ [], vch.length ≤ fuel → (isMinimalNum vch ↔
    magnitude vch ≠ 0 ∧ signedBytes (isNegative vch) fuel (magnitude vch) = vch) := by
  have hone : ∀ (b : UInt8) (fuel : ℕ),
      signedBytes (isNegative [b]) (fuel + 1) (magnitude [b]) = [b] := by
    intro b fuel
    have hbyte := b.toNat_lt
    have hvalue : b.toNat % 128 + (if isNegative [b] then 128 else 0) = b.toNat := by
      simp only [isNegative, getLastD_cons, getLastD_nil, decide_eq_true_eq]
      split_ifs <;> omega
    rw [signedBytes, magnitude, if_pos (Nat.mod_lt _ (by decide)), hvalue, UInt8.ofNat_toNat]
  induction fuel with
  | zero =>
    intro vch hne hlength
    exact absurd (length_eq_zero_iff.mp (le_zero.mp hlength)) hne
  | succ fuel ih =>
    intro vch hne hlength
    match vch with
    | [b] =>
      rw [hone]
      simp [isMinimalNum, and_magnitude_ne_zero, magnitude]
    | b :: c :: rest =>
      have hbyte := b.toNat_lt
      have hfirst : ofNat (b.toNat + 256 * magnitude (c :: rest)) = b := by
        apply toNat.inj
        rw [toNat_ofNat']
        omega
      have hshift : (b.toNat + 256 * magnitude (c :: rest)) / 256 = magnitude (c :: rest) := by
        omega
      rw [magnitude_cons, isNegative_cons, signedBytes, hfirst, hshift]
      obtain ⟨fuel, rfl⟩ : ∃ n, fuel = n + 1 := ⟨fuel - 1, by simp at hlength; omega⟩
      match rest with
      | [] =>
        rw [hone]
        simp [isMinimalNum, and_magnitude_ne_zero, and_sign_ne_zero, magnitude, byteAt]
        grind
      | d :: rest =>
        have hnext := ih (c :: d :: rest) (cons_ne_nil _ _) (by simpa using hlength)
        have hsame : isMinimalNum (b :: c :: d :: rest) = isMinimalNum (c :: d :: rest) := by
          simp [isMinimalNum, byteAt]
        rw [hsame, hnext]
        constructor
        · rintro ⟨hvalue, hbytes⟩
          exact ⟨by omega, by rw [if_neg (by omega), hbytes]⟩
        · rintro ⟨-, hbytes⟩
          by_cases hsmall : b.toNat + 256 * magnitude (c :: d :: rest) < 128
          · rw [if_pos hsmall] at hbytes
            simp at hbytes
          · rw [if_neg hsmall] at hbytes
            refine ⟨fun hzero => ?_, (cons.inj hbytes).2⟩
            rw [hzero, signedBytes, if_pos (by decide)] at hbytes
            simp at hbytes

theorem magnitude_lt (vch : Bytes) : magnitude vch < 128 * 256 ^ (vch.length - 1) := by
  match vch with
  | [] => decide
  | [b] => exact mod_lt _ (by decide)
  | b :: c :: rest =>
    have hbyte := b.toNat_lt
    have hrest := magnitude_lt (c :: rest)
    rw [magnitude_cons]
    simp only [length_cons, Nat.add_sub_cancel] at hrest ⊢
    omega

theorem signPlace_le {vch : Bytes} (hvch : vch.length ≤ 8) :
    128 * 256 ^ (vch.length - 1) ≤ 2 ^ 63 :=
  Nat.mul_le_mul_left 128 (Nat.pow_le_pow_right (by decide) (by omega : vch.length - 1 ≤ 7))

theorem natAbs_setVch (vch : Bytes) : (setVch vch).natAbs = magnitude vch := by
  rw [setVch_eq]
  split_ifs <;> simp

theorem isMinimalNum_iff_serializeNum {vch : Bytes} (hvch : vch.length ≤ 8) :
    isMinimalNum vch ↔ serializeNum (setVch vch) = vch := by
  by_cases hne : vch = []
  · subst hne
    exact iff_of_true rfl rfl
  have hbound := (magnitude_lt vch).trans_le (signPlace_le hvch)
  have habs := natAbs_setVch vch
  rw [isMinimalNum_iff 9 vch hne (by omega)]
  by_cases hzero : magnitude vch = 0
  · rw [Int.natAbs_eq_zero.mp (habs.trans hzero)]
    exact iff_of_false (fun h => h.1 hzero) (Ne.symm hne)
  · have hneg : decide (setVch vch < 0) = isNegative vch := by
      rw [setVch_eq]
      cases isNegative vch <;> simp
      omega
    rw [serializeNum_eq (by omega) (by omega), habs, hneg, and_iff_right hzero]

/-- The numbers below `2 ^ 63` and the minimal encodings of at most eight bytes correspond, and
what `set_vch` computes fits 64 bits. -/
theorem scriptNum_encoding :
    (∀ n : ℤ, |n| < 2 ^ 63 → setVch (serializeNum n) = n ∧ (serializeNum n).length ≤ 8 ∧
      ∃! vch : Bytes, vch.length ≤ 8 ∧ isMinimalNum vch ∧ setVch vch = n) ∧
    ∀ vch : Bytes, vch.length ≤ 8 → leNat vch < 2 ^ 64 ∧ |setVch vch| < 2 ^ 63 ∧
      (isMinimalNum vch ↔ serializeNum (setVch vch) = vch) := by
  refine ⟨fun n hn => ?_, fun vch hvch => ⟨?_, ?_, isMinimalNum_iff_serializeNum hvch⟩⟩
  · have hbound : n.natAbs < 2 ^ 63 := by
      rw [Int.abs_eq_natAbs] at hn
      exact_mod_cast hn
    have hround : setVch (serializeNum n) = n ∧ (serializeNum n).length ≤ 8 := by
      by_cases hzero : n = 0
      · subst hzero
        exact ⟨rfl, zero_le _⟩
      · obtain ⟨-, hvalue, hneg, hlength⟩ :=
          signedBytes_spec (decide (n < 0)) 7 8 n.natAbs (by omega) (by omega)
        rw [serializeNum_eq hzero (by omega), setVch_eq, hvalue, hneg]
        refine ⟨?_, hlength⟩
        split_ifs with hsign <;> rw [decide_eq_true_eq] at hsign <;> omega
    refine ⟨hround.1, hround.2, serializeNum n, ⟨hround.2, ?_, hround.1⟩, ?_⟩
    · rw [isMinimalNum_iff_serializeNum hround.2, hround.1]
    · rintro vch ⟨hvch, hminimal, rfl⟩
      exact ((isMinimalNum_iff_serializeNum hvch).mp hminimal).symm
  · have hlow := magnitude_lt vch
    have hplace := signPlace_le hvch
    rw [leNat_eq_magnitude]
    split_ifs <;> omega
  · have hlow := (magnitude_lt vch).trans_le (signPlace_le hvch)
    rw [Int.abs_eq_natAbs, natAbs_setVch]
    exact_mod_cast hlow

end ImageCoin
