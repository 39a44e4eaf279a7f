import ImageCoin.Interpreter

/-!
# Strict encodings of signatures

`IsValidSignatureEncoding` accepts a DER sequence of two integers with a hash type behind it.
-/

namespace ImageCoin

open List UInt8
variable {sig : Bytes}

/-- The contents of a non-negative DER integer: at least one byte, the sign bit clear, and no
zero byte at the start that is not needed for that. -/
def isMinimalInteger : Bytes → Bool
  | [] => false
  | [first] => first &&& 0x80 = 0
  | first :: second :: _ => first &&& 0x80 = 0 && !(first = 0 && second &&& 0x80 = 0)

def derInteger (value : Bytes) : Bytes :=
  0x02 :: ofNat value.length :: value

/-- A DER sequence of two integers, followed by the hash type. -/
def derSignature (r s : Bytes) (hashType : UInt8) : Bytes :=
  0x30 :: ofNat (derInteger r ++ derInteger s).length ::
    (derInteger r ++ derInteger s ++ [hashType])

/-- The checks of one integer; there is no result if a byte outside the string is read. -/
def checkedInteger (sig : Bytes) (pos len : ℕ) : Option Bool := do
  if len = 0 then return false
  if (← sig[pos]?) &&& 0x80 ≠ 0 then return false
  if len > 1 then
    if (← sig[pos]?) = 0 then
      return (← sig[pos + 1]?) &&& 0x80 ≠ 0
  return true

/-- `IsValidSignatureEncoding` with its reads in the order of the source. -/
def checkedSignatureEncoding (sig : Bytes) : Option Bool := do
  if sig.length < 9 then return false
  if sig.length > 73 then return false
  if (← sig[0]?) ≠ 0x30 then return false
  if (← sig[1]?).toNat ≠ sig.length - 3 then return false
  let lenR := (← sig[3]?).toNat
  if 5 + lenR ≥ sig.length then return false
  let lenS := (← sig[5 + lenR]?).toNat
  if lenR + lenS + 7 ≠ sig.length then return false
  if (← sig[2]?) ≠ 0x02 then return false
  if !(← checkedInteger sig 4 lenR) then return false
  if (← sig[lenR + 4]?) ≠ 0x02 then return false
  checkedInteger sig (lenR + 6) lenS

theorem getElem?_byteAt {i : ℕ} (hi : i < sig.length) : sig[i]? = some (byteAt sig i) := by
  simp [byteAt, hi]

theorem checkedInteger_eq {pos len : ℕ} (hlen : pos + len < sig.length) :
    checkedInteger sig pos len = some (len ≠ 0 && byteAt sig pos &&& 0x80 = 0 &&
      !excessivelyPadded sig pos len) := by
  have hpos := getElem?_byteAt (by omega : pos < sig.length)
  by_cases hzero : len = 0
  · simp [checkedInteger, hzero]
  by_cases hlong : len > 1
  · have hnext := getElem?_byteAt (by omega : pos + 1 < sig.length)
    by_cases hsign : byteAt sig pos &&& 0x80 = 0 <;>
      by_cases hfirst : byteAt sig pos = 0 <;>
      simp [checkedInteger, excessivelyPadded, hpos, hnext, hzero, hlong, hsign, hfirst]
  · by_cases hsign : byteAt sig pos &&& 0x80 = 0 <;>
      simp [checkedInteger, excessivelyPadded, hpos, hzero, hlong, hsign]

theorem checkedSignatureEncoding_eq (sig : Bytes) :
    checkedSignatureEncoding sig = some (isValidSignatureEncoding sig) := by
  unfold checkedSignatureEncoding isValidSignatureEncoding
  by_cases hmin : sig.length < 9
  · simp [hmin, not_le.mpr hmin]
  by_cases hmax : sig.length > 73
  · simp [hmax, not_le.mpr hmax]
  have hread : ∀ i < 9, sig[i]? = some (byteAt sig i) := fun i hi =>
    getElem?_byteAt (by omega)
  simp only [hread _ (by decide : 0 < 9), hread _ (by decide : 1 < 9),
    hread _ (by decide : 3 < 9), Option.bind_eq_bind, Option.bind_some, Option.pure_def]
  by_cases hR : 5 + (byteAt sig 3).toNat < sig.length
  · simp [getElem?_byteAt hR, Option.bind_some]
    by_cases hsum : (byteAt sig 3).toNat + (byteAt sig (5 + (byteAt sig 3).toNat)).toNat + 7 =
        sig.length
    · simp [checkedInteger_eq (by omega : 4 + (byteAt sig 3).toNat < sig.length),
        checkedInteger_eq (by omega : (byteAt sig 3).toNat + 6 +
          (byteAt sig (5 + (byteAt sig 3).toNat)).toNat < sig.length),
            getElem?_byteAt (by omega : (byteAt sig 3).toNat + 4 < sig.length)]
      grind
    · simp [hsum]
  · simp [hR]

theorem byteAt_append (front back : Bytes) (i : ℕ) :
    byteAt (front ++ back) (front.length + i) = byteAt back i := by
  rw [byteAt, byteAt, getD_eq_getElem?_getD, getElem?_append_right (Nat.le_add_right _ _),
    Nat.add_sub_cancel_left, getD_eq_getElem?_getD]

theorem integer_checks (front value tail : Bytes) :
    (value.length ≠ 0 && byteAt (front ++ (value ++ tail)) front.length &&& 0x80 = 0 &&
      !excessivelyPadded (front ++ (value ++ tail)) front.length value.length) =
    isMinimalInteger value := by
  have hfirst := byteAt_append front (value ++ tail) 0
  have hsecond := byteAt_append front (value ++ tail) 1
  rw [Nat.add_zero] at hfirst
  rw [excessivelyPadded, hfirst, hsecond]
  match value with
  | [] => rfl
  | [first] => simp [isMinimalInteger, byteAt]
  | first :: second :: rest => simp [isMinimalInteger, byteAt]

theorem isValidSignatureEncoding_layout {a₀ a₁ a₂ a₃ b₀ b₁ hashType : UInt8} {r s : Bytes}
    (hsig : sig = [a₀, a₁, a₂, a₃] ++ (r ++ b₀ :: b₁ :: (s ++ [hashType])))
    (hr : a₃.toNat = r.length) (hs : b₁.toNat = s.length) :
    isValidSignatureEncoding sig ↔
    9 ≤ sig.length ∧ sig.length ≤ 73 ∧ a₀ = 0x30 ∧ a₁.toNat = sig.length - 3 ∧
      a₂ = 0x02 ∧ isMinimalInteger r ∧ b₀ = 0x02 ∧ isMinimalInteger s := by
  have hread : byteAt sig 0 = a₀ ∧ byteAt sig 1 = a₁ ∧ byteAt sig 2 = a₂ ∧ byteAt sig 3 = a₃ := by
    rw [hsig]
    exact ⟨rfl, rfl, rfl, rfl⟩
  have hmark : byteAt sig (r.length + 4) = b₀ ∧ byteAt sig (r.length + 5) = b₁ := by
    rw [hsig]
    exact ⟨byteAt_append r _ 0, byteAt_append r _ 1⟩
  have hR : (r.length ≠ 0 && byteAt sig 4 &&& 0x80 = 0 && !excessivelyPadded sig 4 r.length) =
      isMinimalInteger r := by
    rw [hsig]
    exact integer_checks [a₀, a₁, a₂, a₃] r _
  have hS : (s.length ≠ 0 && byteAt sig (r.length + 6) &&& 0x80 = 0 &&
      !excessivelyPadded sig (r.length + 6) s.length) = isMinimalInteger s := by
    have hchecks := integer_checks ([a₀, a₁, a₂, a₃] ++ (r ++ [b₀, b₁])) s [hashType]
    simpa [hsig] using hchecks
  obtain ⟨h₀, h₁, h₂, h₃⟩ := hread
  simp only [isValidSignatureEncoding]
  grind

theorem exists_layout (hvalid : isValidSignatureEncoding sig) : ∃ a₀ a₁ a₂ a₃ r b₀ b₁ s hashType,
    sig = [a₀, a₁, a₂, a₃] ++ (r ++ b₀ :: b₁ :: (s ++ [hashType])) ∧
      a₃.toNat = r.length ∧ b₁.toNat = s.length := by
  have hbounds : 9 ≤ sig.length ∧ (byteAt sig 3).toNat +
      (byteAt sig (5 + (byteAt sig 3).toNat)).toNat + 7 = sig.length := by
    grind [isValidSignatureEncoding]
  obtain ⟨hmin, hsum⟩ := hbounds
  rcases sig with _ | ⟨a₀, _ | ⟨a₁, _ | ⟨a₂, _ | ⟨a₃, rest⟩⟩⟩⟩ <;> simp at hmin
  have hread : byteAt (a₀ :: a₁ :: a₂ :: a₃ :: rest) 3 = a₃ := rfl
  rw [hread] at hsum
  simp only [length_cons] at hsum
  obtain ⟨r, back, rfl, hr⟩ : ∃ r back, rest = r ++ back ∧ r.length = a₃.toNat :=
    ⟨rest.take a₃.toNat, rest.drop a₃.toNat, by simp, by simp; omega⟩
  rw [length_append] at hsum
  rcases back with _ | ⟨b₀, _ | ⟨b₁, back⟩⟩ <;> simp only [length_nil,
    length_cons] at hsum
  · omega
  · omega
  have hlen : byteAt (a₀ :: a₁ :: a₂ :: a₃ :: (r ++ b₀ :: b₁ :: back)) (5 + a₃.toNat) = b₁ := by
    rw [← hr, Nat.add_comm]
    exact byteAt_append r _ 1
  rw [hlen] at hsum
  obtain rfl | ⟨s, hashType, rfl⟩ := eq_nil_or_concat back
  · simp at hsum
    omega
  · rw [concat_eq_append, length_append, length_singleton] at hsum
    exact ⟨a₀, a₁, a₂, a₃, r, b₀, b₁, s, hashType, by simp, hr.symm, by omega⟩

/-- Strict DER, read without leaving the string. -/
theorem isValidSignatureEncoding_iff (sig : Bytes) :
    checkedSignatureEncoding sig = some (isValidSignatureEncoding sig) ∧
    (isValidSignatureEncoding sig ↔ 9 ≤ sig.length ∧ sig.length ≤ 73 ∧
      ∃ r s hashType, isMinimalInteger r ∧ isMinimalInteger s ∧
        sig = derSignature r s hashType) := by
  refine ⟨checkedSignatureEncoding_eq sig, fun hvalid => ?_, ?_⟩
  · obtain ⟨a₀, a₁, a₂, a₃, r, b₀, b₁, s, hashType, hsig, hr, hs⟩ := exists_layout hvalid
    obtain ⟨hmin, hmax, rfl, htotal, rfl, hR, rfl, hS⟩ :=
      (isValidSignatureEncoding_layout hsig hr hs).mp hvalid
    refine ⟨hmin, hmax, r, s, hashType, hR, hS, ?_⟩
    have hbytes : a₁ = ofNat (derInteger r ++ derInteger s).length ∧
        a₃ = ofNat r.length ∧ b₁ = ofNat s.length := by
      rw [← hr, ← hs]
      refine ⟨?_, by simp, by simp⟩
      apply toNat.inj
      rw [htotal]
      simp [derInteger, hsig] at hmax ⊢
      omega
    obtain ⟨rfl, rfl, rfl⟩ := hbytes
    simp [hsig, derSignature, derInteger]
  · rintro ⟨hmin, hmax, r, s, hashType, hR, hS, hsig⟩
    have hlength : sig.length = r.length + s.length + 7 := by
      simp [hsig, derSignature, derInteger]
      omega
    have hinner : (derInteger r ++ derInteger s).length = r.length + s.length + 4 := by
      simp [derInteger]
      omega
    have hform : sig = [0x30, ofNat (derInteger r ++ derInteger s).length, 0x02,
        ofNat r.length] ++ (r ++ 0x02 :: ofNat s.length :: (s ++ [hashType])) := by
      simp [hsig, derSignature, derInteger]
    refine (isValidSignatureEncoding_layout hform ?_ ?_).mpr ⟨hmin, hmax, rfl, ?_, rfl, hR, rfl, hS⟩
    all_goals
      rw [toNat_ofNat']
      omega

end ImageCoin
