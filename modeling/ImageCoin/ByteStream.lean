import Mathlib.Data.Nat.Bitwise
import Mathlib.Tactic

/-!
# Byte streams

Writers produce lists of bytes and readers consume a prefix of one.
-/

abbrev Bytes := List UInt8

namespace ByteStream

open List

/-- Failures raised while reading a stream. -/
inductive StreamError where
  | endOfData
  | failure (what : String)
  deriving DecidableEq, Repr

abbrev Reader (α : Type) := StateT Bytes (Except StreamError) α

variable {α β : Type}

def leBytes : ℕ → ℕ → Bytes
  | 0, _ => []
  | width + 1, value => UInt8.ofNat value :: leBytes width (value / 256)

def leNat : Bytes → ℕ
  | [] => 0
  | byte :: rest => byte.toNat + 256 * leNat rest

@[simp] theorem leBytes_length (width value : ℕ) : (leBytes width value).length = width := by
  induction width generalizing value with
  | zero => rfl
  | succ width ih => simp [leBytes, ih]

variable {width value : ℕ}

theorem leNat_leBytes (hvalue : value < 256 ^ width) : leNat (leBytes width value) = value := by
  induction width generalizing value with
  | zero =>
    have hzero : value = 0 := by simpa using hvalue
    simp [leBytes, leNat, hzero]
  | succ width ih =>
    have hdiv : value / 256 < 256 ^ width := by
      exact Nat.div_lt_of_lt_mul (by omega)
    simp only [leBytes, leNat, ih hdiv]
    have := Nat.mod_add_div value 256
    simpa using this

theorem leBytes_leNat (bytes : Bytes) :
    leBytes bytes.length (leNat bytes) = bytes ∧ leNat bytes < 256 ^ bytes.length := by
  induction bytes with
  | nil => exact ⟨rfl, Nat.one_pos⟩
  | cons byte bytes ih =>
    have hbyte := byte.toNat_lt
    have hfirst : UInt8.ofNat (byte.toNat + 256 * leNat bytes) = byte := by
      apply UInt8.toNat_inj.mp
      rw [UInt8.toNat_ofNat']
      omega
    have hrest : (byte.toNat + 256 * leNat bytes) / 256 = leNat bytes := by omega
    rw [leNat, length_cons, leBytes, hfirst, hrest, ih.1, pow_succ]
    exact ⟨rfl, by omega⟩

def readBytes (count : ℕ) : Reader Bytes := fun stream =>
  if stream.length < count then throw .endOfData
  else pure (stream.take count, stream.drop count)

def readLE (width : ℕ) : Reader ℕ := leNat <$> readBytes width

def readTimes (read : Reader α) : ℕ → Reader (List α)
  | 0 => pure []
  | count + 1 => do
      let first ← read
      let rest ← readTimes read count
      pure (first :: rest)

/-- The reader returns `value` on every stream that starts with `bytes`, and
leaves exactly what follows. -/
def Reads (read : Reader α) (bytes : Bytes) (value : α) : Prop :=
  ∀ rest, read (bytes ++ rest) = .ok (value, rest)

theorem Reads.pure (value : α) : Reads (pure value) [] value := by
  intro rest
  rfl

variable {read : Reader α} {k : α → Reader β}

theorem Reads.bind {bytes front back : Bytes} {first : α} {second : β}
    (hbytes : bytes = front ++ back) (hfirst : Reads read front first)
    (hsecond : Reads (k first) back second) : Reads (read >>= k) bytes second := by
  intro rest
  subst hbytes
  have hstep : (read >>= k) (front ++ back ++ rest) =
      (read (front ++ (back ++ rest)) >>= fun p => k p.1 p.2) := by
    rw [append_assoc]
    rfl
  rw [hstep, hfirst]
  exact hsecond rest

variable {bytes : Bytes}

theorem Reads.map {value : α} (hread : Reads read bytes value) (f : α → β) :
    Reads (f <$> read) bytes (f value) := by
  rw [map_eq_pure_bind]
  exact .bind (append_nil bytes).symm hread (.pure (f value))

theorem reads_readBytes {count : ℕ} (hlength : bytes.length = count) :
    Reads (readBytes count) bytes bytes := by
  intro rest
  subst hlength
  simp [readBytes, pure, Except.pure]

theorem reads_readLE (hvalue : value < 256 ^ width) :
    Reads (readLE width) (leBytes width value) value := by
  have hread : Reads (readBytes width) (leBytes width value)
      (leBytes width value) := reads_readBytes (leBytes_length _ _)
  simpa [readLE, leNat_leBytes hvalue] using hread.map leNat

theorem readLE_ok {rest : Bytes} (hread : readLE width bytes = .ok (value, rest)) :
    bytes = leBytes width value ++ rest ∧ value < 256 ^ width := by
  by_cases hshort : bytes.length < width
  · change StateT.map leNat (readBytes width) bytes = _ at hread
    simp [StateT.map, readBytes, hshort] at hread
    cases hread
  · have hlength : (bytes.take width).length = width := by simp; omega
    have htaken := leBytes_leNat (bytes.take width)
    rw [hlength] at htaken
    have hok := reads_readLE htaken.2 (bytes.drop width)
    rw [htaken.1, take_append_drop, hread] at hok
    cases hok
    rw [htaken.1, take_append_drop]
    exact ⟨rfl, htaken.2⟩

variable {write : α → Bytes}

theorem reads_readTimes (values : List α)
    (hread : ∀ value ∈ values, Reads read (write value) value) :
    Reads (readTimes read values.length) (values.flatMap write) values := by
  induction values with
  | nil => exact .pure []
  | cons first rest ih =>
    have hrest := ih fun value hmem =>
      hread value (mem_cons_of_mem first hmem)
    refine .bind (flatMap_cons ..) (hread first mem_cons_self) ?_
    exact .bind (append_nil _).symm hrest (.pure _)

/-- Whatever is read satisfies `post`. -/
def Ensures (read : Reader α) (post : α → Prop) : Prop :=
  ∀ stream value rest, read stream = .ok (value, rest) → post value

variable {post : α → Prop}

theorem Ensures.pure {value : α} (hpost : post value) : Ensures (pure value) post := by
  intro stream other rest hread
  cases hread
  exact hpost

theorem Ensures.bind {mid : α → Prop} {post : β → Prop} (hfirst : Ensures read mid)
    (hsecond : ∀ first, mid first → Ensures (k first) post) : Ensures (read >>= k) post := by
  intro stream value rest hread
  have hstep : (read >>= k) stream = (read stream >>= fun p => k p.1 p.2) :=
    rfl
  rw [hstep] at hread
  cases hrun : read stream with
  | error e => rw [hrun] at hread; cases hread
  | ok result =>
    rw [hrun] at hread
    exact hsecond result.1 (hfirst stream result.1 result.2 hrun) result.2 value rest hread

theorem Ensures.skip {post : β → Prop} (hsecond : ∀ first, Ensures (k first) post) :
    Ensures (read >>= k) post :=
  have htrivial : Ensures read fun _ => True := fun _ _ _ _ => trivial
  htrivial.bind fun first _ => hsecond first

theorem Ensures.mono {post weaker : α → Prop}
    (hread : Ensures read post) (himp : ∀ value, post value → weaker value) : Ensures read weaker :=
  fun stream value rest hrun => himp value (hread stream value rest hrun)

theorem ensures_readBytes (count : ℕ) :
    Ensures (readBytes count) fun bytes => bytes.length = count := by
  intro stream bytes rest hread
  simp only [readBytes] at hread
  split_ifs at hread with hshort
  cases hread
  simpa using Nat.le_of_not_lt hshort

theorem ensures_readTimes (hread : Ensures read post) (count : ℕ) :
    Ensures (readTimes read count) fun values =>
      values.length = count ∧ ∀ value ∈ values, post value := by
  induction count with
  | zero => exact .pure (by simp)
  | succ count ih =>
    refine .bind hread fun first hfirst => ?_
    refine .bind ih fun rest hrest => ?_
    refine .pure ⟨by simp [hrest.1], ?_⟩
    exact forall_mem_cons.mpr ⟨hfirst, hrest.2⟩

/-- No value is written as the beginning of another, so what follows can be told apart. -/
def PrefixInjective (write : α → Bytes) (dom : α → Prop) : Prop :=
  ∀ a b : α, dom a → dom b → ∀ x y : Bytes, write a ++ x = write b ++ y → a = b ∧ x = y

variable {dom : α → Prop}

theorem PrefixInjective.of_reads (hread : ∀ value, dom value → Reads read (write value) value) :
    PrefixInjective write dom := by
  intro a b ha hb x y heq
  have hleft := hread a ha x
  rw [heq, hread b hb y] at hleft
  simp only [Except.ok.injEq, Prod.mk.injEq] at hleft
  exact ⟨hleft.1.symm, hleft.2.symm⟩

theorem PrefixInjective.of_reads_total (hread : ∀ value, Reads read (write value) value) :
    PrefixInjective write fun _ => True :=
  PrefixInjective.of_reads fun value _ => hread value

theorem PrefixInjective.append {later : β → Bytes} {laterDom : β → Prop}
    (hwrite : PrefixInjective write dom) (hlater : PrefixInjective later laterDom) :
    PrefixInjective (fun p : α × β => write p.1 ++ later p.2)
      fun p => dom p.1 ∧ laterDom p.2 := by
  intro a b ha hb x y heq
  simp only [append_assoc] at heq
  obtain ⟨hfirst, hrest⟩ := hwrite a.1 b.1 ha.1 hb.1 _ _ heq
  obtain ⟨hsecond, htail⟩ := hlater a.2 b.2 ha.2 hb.2 _ _ hrest
  exact ⟨Prod.ext hfirst hsecond, htail⟩

theorem PrefixInjective.flatMap (hwrite : PrefixInjective write dom) :
    ∀ xs ys : List α, xs.length = ys.length → (∀ x ∈ xs, dom x) → (∀ y ∈ ys, dom y) → ∀ s t : Bytes,
      xs.flatMap write ++ s = ys.flatMap write ++ t → xs = ys ∧ s = t := by
  intro xs
  induction xs with
  | nil =>
    intro ys hlength _ _ s t heq
    have hys : ys = [] := length_eq_zero_iff.mp hlength.symm
    subst hys
    simpa using heq
  | cons x xs ih =>
    intro ys hlength hx hy s t heq
    cases ys with
    | nil => simp at hlength
    | cons y ys =>
      simp only [flatMap_cons, append_assoc] at heq
      obtain ⟨hhead, htail⟩ :=
        hwrite x y (hx x mem_cons_self) (hy y mem_cons_self)
          _ _ heq
      obtain ⟨hrest, hst⟩ := ih ys (by simpa using hlength)
        (fun z hz => hx z (mem_cons_of_mem _ hz))
        (fun z hz => hy z (mem_cons_of_mem _ hz)) s t htail
      exact ⟨by rw [hhead, hrest], hst⟩

section
open List

def bitInByte (bit : Bool) (p : ℕ) : UInt8 :=
  (if bit then 1 else 0) <<< UInt8.ofNat (p % 8)

variable (bits : List Bool) (bytes : Bytes) (p : ℕ)

def packBit : Bytes :=
  bytes.modify (p / 8) (· ||| bitInByte (bits.getD p false) p)

def packBits : Bytes :=
  (range bits.length).foldl (packBit bits) (replicate ((bits.length + 7) / 8) 0)

def bitOf : Bool :=
  (bytes.getD (p / 8) 0 &&& bitInByte true p) != 0

def unpackBits : List Bool :=
  (range (bytes.length * 8)).map (bitOf bytes)

theorem toNat_bitInByte (bit : Bool) (p : ℕ) :
    (bitInByte bit p).toNat = bit.toNat * 2 ^ (p % 8) := by
  have hlt : p % 8 < 8 := Nat.mod_lt _ (by omega)
  rw [bitInByte]
  cases bit
  · interval_cases p % 8 <;> rfl
  · interval_cases p % 8 <;> rfl

theorem bitOf_eq_testBit : bitOf bytes p = (bytes.getD (p / 8) 0).toNat.testBit (p % 8) := by
  have hand : (bytes.getD (p / 8) 0 &&& bitInByte true p).toNat =
      2 ^ (p % 8) * ((bytes.getD (p / 8) 0).toNat.testBit (p % 8)).toNat := by
    rw [UInt8.toNat_and, toNat_bitInByte, Bool.toNat_true, one_mul, Nat.and_comm, Nat.two_pow_and]
  rw [bitOf]
  cases hbit : (bytes.getD (p / 8) 0).toNat.testBit (p % 8) with
  | false =>
    rw [hbit] at hand
    rw [bne_eq_false_iff_eq, ← UInt8.toNat_inj, hand]
    simp
  | true =>
    rw [hbit] at hand
    rw [bne_iff_ne, ne_eq, ← UInt8.toNat_inj, hand]
    simp

theorem bitOf_packBit {bits : List Bool} {bytes : Bytes} {p : ℕ}
    (hp : p / 8 < bytes.length) (q : ℕ) :
    bitOf (packBit bits bytes p) q = (bitOf bytes q || (decide (p = q) && bits.getD p false)) := by
  rw [bitOf_eq_testBit, bitOf_eq_testBit, packBit]
  by_cases hbyte : p / 8 = q / 8
  · have hget : (bytes.modify (p / 8) (· ||| bitInByte (bits.getD p false) p)).getD (q / 8) 0 =
          bytes.getD (q / 8) 0 ||| bitInByte (bits.getD p false) p := by
      rw [← hbyte]
      simp [hp]
    have hsame : decide (p = q) = decide (p % 8 = q % 8) := by
      rw [decide_eq_decide]
      omega
    rw [hget, UInt8.toNat_or, Nat.testBit_or, toNat_bitInByte, hsame]
    cases bits.getD p false
    · simp
    · simp [Nat.testBit_two_pow]
  · have hne : p ≠ q := fun h => hbyte (h ▸ rfl)
    simp [hne, hbyte]

theorem length_foldl_packBit (count : ℕ) : ((range count).foldl (packBit bits) bytes).length =
    bytes.length := by
  induction count with
  | zero => simp
  | succ count ih =>
    rw [range_succ, foldl_append]
    simpa [packBit] using ih

@[simp] theorem length_packBits : (packBits bits).length = (bits.length + 7) / 8 := by
  rw [packBits, length_foldl_packBit, length_replicate]

theorem bitOf_foldl_packBit {bits : List Bool} {bytes : Bytes}
    (hempty : ∀ q, bitOf bytes q = false) (count : ℕ) (hcount : count ≤ bytes.length * 8) (q : ℕ) :
    bitOf ((range count).foldl (packBit bits) bytes) q =
      (decide (q < count) && bits.getD q false) := by
  induction count with
  | zero => simpa using hempty q
  | succ count ih =>
    rw [range_succ, foldl_append, foldl_cons, foldl_nil,
      bitOf_packBit (by rw [length_foldl_packBit]; omega), ih (by omega)]
    by_cases hq : q = count
    · subst hq
      simp
    · have hlt : q < count + 1 ↔ q < count := by omega
      simp [hlt, Ne.symm hq]

theorem unpackBits_packBits : unpackBits (packBits bits) = bits ++
    replicate ((bits.length + 7) / 8 * 8 - bits.length) false := by
  have hempty : ∀ q, bitOf (replicate ((bits.length + 7) / 8) 0) q = false := by
    intro q
    have hget : (replicate ((bits.length + 7) / 8) (0 : UInt8)).getD (q / 8) 0 = 0 := by
      rw [getD_eq_getElem?_getD, getElem?_replicate]
      split_ifs <;> rfl
    rw [bitOf_eq_testBit, hget]
    simp
  apply ext_getElem?
  intro q
  rw [unpackBits, length_packBits, getElem?_map, getElem?_append, getElem?_replicate]
  by_cases hq : q < (bits.length + 7) / 8 * 8
  · rw [getElem?_range hq, Option.map_some, packBits,
      bitOf_foldl_packBit hempty _ (by rw [length_replicate]; omega)]
    by_cases hin : q < bits.length
    · simp [hin]
    · simp only [hin, decide_false, Bool.false_and, if_false]
      rw [if_pos (by omega)]
  · rw [getElem?_eq_none (by simpa using hq), Option.map_none, if_neg (by omega), if_neg (by omega)]

end
end ByteStream
