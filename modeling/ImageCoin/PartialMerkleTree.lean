import ImageCoin.ConnectBlock
import ImageCoin.MerkleRoot
import ImageCoin.TransactionWire

/-!
# Partial Merkle trees

`CPartialMerkleTree` carries some transactions of a block to a peer that knows the Merkle root
only.
-/

namespace ImageCoin

open ByteStream MerkleTree List Nat
variable {α : Type}

structure CPartialMerkleTree (α : Type) where
  nTransactions : UInt32
  vBits : List Bool
  vHash : List α
  fBad : Bool
  deriving DecidableEq

def calcTreeWidth (nTransactions : UInt32) (height : ℕ) : ℕ :=
  (nTransactions.toNat + 2 ^ height - 1) % 2 ^ 32 / 2 ^ height

def treeHeightLoop (nTransactions : UInt32) : ℕ → ℕ → ℕ
  | 0, nHeight => nHeight
  | fuel + 1, nHeight =>
    if 1 < calcTreeWidth nTransactions nHeight then
      treeHeightLoop nTransactions fuel (nHeight + 1)
    else nHeight

def treeHeight (nTransactions : UInt32) : ℕ :=
  treeHeightLoop nTransactions 32 0

section
variable [Zero α] (hash : α → α → α) (nTransactions : UInt32) (vTxid : List α) (vMatch : List Bool)

def calcHash : ℕ → ℕ → α
  | 0, pos => leafAt vTxid pos
  | height + 1, pos =>
    let left := calcHash height (pos * 2)
    let right :=
      if pos * 2 + 1 < calcTreeWidth nTransactions height then
        calcHash height (pos * 2 + 1)
      else left
    hash left right

def parentOfMatch (height pos : ℕ) : Bool :=
  let first := pos * 2 ^ height % 2 ^ 32
  let last := min ((pos + 1) * 2 ^ height % 2 ^ 32) nTransactions.toNat
  (range' first (last - first)).any fun p => vMatch.getD p false

def traverseAndBuild : ℕ → ℕ → CPartialMerkleTree α → CPartialMerkleTree α
  | 0, pos, t =>
    let fParentOfMatch := parentOfMatch t.nTransactions vMatch 0 pos
    { t with
      vBits := t.vBits ++ [fParentOfMatch]
      vHash := t.vHash ++ [calcHash hash t.nTransactions vTxid 0 pos] }
  | height + 1, pos, t =>
    let fParentOfMatch := parentOfMatch t.nTransactions vMatch (height + 1) pos
    let t := { t with vBits := t.vBits ++ [fParentOfMatch] }
    if fParentOfMatch then
      let t := traverseAndBuild height (pos * 2) t
      if pos * 2 + 1 < calcTreeWidth t.nTransactions height then
        traverseAndBuild height (pos * 2 + 1) t
      else t
    else
      { t with
        vHash := t.vHash ++ [calcHash hash t.nTransactions vTxid (height + 1) pos] }

def CPartialMerkleTree.ofTxids : CPartialMerkleTree α :=
  let nTransactions := UInt32.ofNat vTxid.length
  traverseAndBuild hash vTxid vMatch (treeHeight nTransactions) 0 ⟨nTransactions, [], [], false⟩

end

/-- The reference arguments of `TraverseAndExtract` and the flag it sets. -/
structure ExtractState (α : Type) where
  nBitsUsed : ℕ
  nHashUsed : ℕ
  vMatch : List α
  fBad : Bool

structure ExtractResult (α : Type) where
  hashMerkleRoot : α
  vMatch : List α
  fBad : Bool
  deriving DecidableEq

section
variable [Zero α] [DecidableEq α] (hash : α → α → α) (t : CPartialMerkleTree α)

def useStoredHash (matched : Bool) (s : ExtractState α) : α × ExtractState α :=
  match t.vHash[s.nHashUsed]? with
  | none => (0, { s with fBad := true })
  | some stored =>
    (stored, { s with
      nHashUsed := s.nHashUsed + 1
      vMatch := if matched then s.vMatch ++ [stored] else s.vMatch })

def traverseAndExtract (t : CPartialMerkleTree α) : ℕ → ℕ → ExtractState α → α × ExtractState α
  | 0, _, s =>
    match t.vBits[s.nBitsUsed]? with
    | none => (0, { s with fBad := true })
    | some fParentOfMatch =>
      useStoredHash t fParentOfMatch { s with nBitsUsed := s.nBitsUsed + 1 }
  | height + 1, pos, s =>
    match t.vBits[s.nBitsUsed]? with
    | none => (0, { s with fBad := true })
    | some false =>
      useStoredHash t false { s with nBitsUsed := s.nBitsUsed + 1 }
    | some true =>
      let (left, s) := traverseAndExtract t height (pos * 2)
        { s with nBitsUsed := s.nBitsUsed + 1 }
      if pos * 2 + 1 < calcTreeWidth t.nTransactions height then
        let (right, s) := traverseAndExtract t height (pos * 2 + 1) s
        (hash left right, { s with fBad := s.fBad || right == left })
      else (hash left left, s)

def CPartialMerkleTree.extractMatches : ExtractResult α :=
  if t.nTransactions = 0 then ⟨0, [], t.fBad⟩
  else if t.nTransactions.toNat > maxBlockSize true / 60 then ⟨0, [], t.fBad⟩
  else if t.vHash.length > t.nTransactions.toNat then ⟨0, [], t.fBad⟩
  else if t.vBits.length < t.vHash.length then ⟨0, [], t.fBad⟩
  else
    let (hashMerkleRoot, s) := traverseAndExtract hash t
      (treeHeight t.nTransactions) 0 ⟨0, 0, [], t.fBad⟩
    if s.fBad then ⟨0, s.vMatch, s.fBad⟩
    else if (s.nBitsUsed + 7) / 8 ≠ (t.vBits.length + 7) / 8 then
      ⟨0, s.vMatch, s.fBad⟩
    else if s.nHashUsed ≠ t.vHash.length then ⟨0, s.vMatch, s.fBad⟩
    else ⟨hashMerkleRoot, s.vMatch, s.fBad⟩

/-- The positions at which the walk of `TraverseAndExtract` meets its matches,
in the order in which it returns them. -/
def positionsFrom (t : CPartialMerkleTree α) : ℕ → ℕ → ExtractState α → List ℕ
  | 0, pos, s =>
    if t.vBits[s.nBitsUsed]? = some true ∧ s.nHashUsed < t.vHash.length then
      [pos]
    else []
  | height + 1, pos, s =>
    if t.vBits[s.nBitsUsed]? = some true then
      let s := { s with nBitsUsed := s.nBitsUsed + 1 }
      let s' := (traverseAndExtract hash t height (pos * 2) s).2
      positionsFrom t height (pos * 2) s ++
        if pos * 2 + 1 < calcTreeWidth t.nTransactions height then
          positionsFrom t height (pos * 2 + 1) s'
        else []
    else []

def CPartialMerkleTree.matchPositions : List ℕ :=
  positionsFrom hash t (treeHeight t.nTransactions) 0 ⟨0, 0, [], t.fBad⟩

end

section
variable {nTransactions : UInt32}

section
variable (hn : nTransactions.toNat ≤ 2 ^ 31)
include hn

theorem calcTreeWidth_eq {height : ℕ} (hheight : height ≤ 31) :
    calcTreeWidth nTransactions height = width nTransactions.toNat height := by
  have hpow : 2 ^ height ≤ 2 ^ 31 := Nat.pow_le_pow_right (by omega) hheight
  rw [calcTreeWidth, width, mod_eq_of_lt (by omega)]

theorem treeHeightLoop_eq (fuel : ℕ) : ∀ height, height ≤ clog 2 nTransactions.toNat →
    clog 2 nTransactions.toNat < height + fuel →
    treeHeightLoop nTransactions fuel height = clog 2 nTransactions.toNat := by
  have htop : clog 2 nTransactions.toNat ≤ 31 :=
    clog_le_of_le_pow hn
  induction fuel with
  | zero => intro height hle hlt; omega
  | succ fuel ih =>
    intro height hle hlt
    rw [treeHeightLoop, calcTreeWidth_eq hn (by omega)]
    split_ifs with hmany
    · exact ih _ (lt_clog_of_one_lt_width hmany) (by omega)
    · have hbound := mt lt_width.mpr hmany
      rw [one_mul, not_lt] at hbound
      exact le_antisymm hle (clog_le_of_le_pow hbound)

theorem treeHeight_eq : treeHeight nTransactions = clog 2 nTransactions.toNat := by
  have htop : clog 2 nTransactions.toNat ≤ 31 := clog_le_of_le_pow hn
  exact treeHeightLoop_eq hn 32 0 (zero_le _) (by omega)

end

theorem left_lt_width {n height pos : ℕ} (hpos : pos < width n (height + 1)) :
    pos * 2 < width n height := by
  rw [width_succ] at hpos
  omega

end

section
variable [Zero α] {t : CPartialMerkleTree α}

theorem fBad_of_useStoredHash {matched : Bool} {s : ExtractState α}
    (hgood : (useStoredHash t matched s).2.fBad = false) :
    s.fBad = false ∧ s.nHashUsed < t.vHash.length ∧
      (useStoredHash t matched s).2.vMatch = s.vMatch ++
        if matched then [(useStoredHash t matched s).1] else [] := by
  unfold useStoredHash at hgood ⊢
  cases hstored : t.vHash[s.nHashUsed]? with
  | none => simp [hstored] at hgood
  | some stored =>
    rw [hstored] at hgood
    obtain ⟨hlt, -⟩ := List.getElem?_eq_some_iff.mp hstored
    refine ⟨hgood, hlt, ?_⟩
    cases matched
    · simp
    · simp

variable [DecidableEq α] {hash : α → α → α}

theorem fBad_of_traverseAndExtract (height : ℕ) : ∀ (pos : ℕ) (s : ExtractState α),
    (traverseAndExtract hash t height pos s).2.fBad = false →
    s.fBad = false := by
  induction height with
  | zero =>
    intro pos s hgood
    rw [traverseAndExtract] at hgood
    cases hbit : t.vBits[s.nBitsUsed]? with
    | none => simp [hbit] at hgood
    | some bit =>
      rw [hbit] at hgood
      exact (fBad_of_useStoredHash hgood).1
  | succ height ih =>
    intro pos s hgood
    rw [traverseAndExtract] at hgood
    rcases hbit : t.vBits[s.nBitsUsed]? with _ | _ | _
    · simp [hbit] at hgood
    · rw [hbit] at hgood
      exact (fBad_of_useStoredHash hgood).1
    · simp only [hbit] at hgood
      split_ifs at hgood with hright
      · rw [Bool.or_eq_false_iff] at hgood
        have hleft := ih _ _ (ih _ _ hgood.1)
        exact hleft
      · have hleft := ih _ _ hgood
        exact hleft

variable {leaves : List α}

theorem traverseAndExtract_sound (hinj : Function.Injective2 hash)
    (hn : t.nTransactions.toNat = leaves.length) (hlength : leaves.length ≤ 2 ^ 31) (height : ℕ) :
    ∀ (pos : ℕ) (s : ExtractState α), height ≤ 31 → pos < width leaves.length height →
      (traverseAndExtract hash t height pos s).2.fBad = false →
      (traverseAndExtract hash t height pos s).1 =
        node hash (leafAt leaves) leaves.length height pos →
      (traverseAndExtract hash t height pos s).2.vMatch =
          s.vMatch ++ (positionsFrom hash t height pos s).map (leafAt leaves) ∧
        ∀ p ∈ positionsFrom hash t height pos s, p < leaves.length := by
  induction height with
  | zero =>
    intro pos s _ hpos hgood hroot
    rw [traverseAndExtract] at hgood hroot ⊢
    rw [positionsFrom]
    cases hbit : t.vBits[s.nBitsUsed]? with
    | none => simp [hbit] at hgood
    | some bit =>
      rw [hbit] at hgood hroot
      obtain ⟨-, hlt, hmatch⟩ := fBad_of_useStoredHash hgood
      rw [hmatch, hroot]
      cases bit
      · simp
      · simpa [hlt, node] using hpos
  | succ height ih =>
    intro pos s hheight hpos hgood hroot
    have hwidth : calcTreeWidth t.nTransactions height = width leaves.length height := by
      rw [calcTreeWidth_eq (by omega) (by omega), hn]
    have hleft := left_lt_width hpos
    rw [traverseAndExtract] at hgood hroot ⊢
    rw [positionsFrom]
    rcases hbit : t.vBits[s.nBitsUsed]? with _ | _ | _
    · simp [hbit] at hgood
    · rw [hbit] at hgood
      obtain ⟨-, -, hmatch⟩ := fBad_of_useStoredHash hgood
      simpa using hmatch
    · simp only [hbit, hwidth] at hgood hroot ⊢
      split_ifs at hgood hroot ⊢ with hright
      · rw [Bool.or_eq_false_iff] at hgood
        rw [node_succ_of_lt (by omega), mul_comm 2 pos] at hroot
        obtain ⟨hroot₁, hroot₂⟩ := hinj hroot
        obtain ⟨hmatch₁, hin₁⟩ := ih _ _ (by omega) hleft
          (fBad_of_traverseAndExtract _ _ _ hgood.1) hroot₁
        obtain ⟨hmatch₂, hin₂⟩ := ih _ _ (by omega) hright hgood.1 hroot₂
        refine ⟨?_, ?_⟩
        · simp [hmatch₂, hmatch₁]
        · intro p hp
          rcases mem_append.mp hp with hp | hp
          · exact hin₁ p hp
          · exact hin₂ p hp
      · rw [node_succ_of_not_lt (by omega), mul_comm 2 pos] at hroot
        obtain ⟨hroot₁, -⟩ := hinj hroot
        simpa using ih _ _ (by omega) hleft hgood hroot₁

theorem extractMatches_ne_zero (hroot : (t.extractMatches hash).hashMerkleRoot ≠ 0) :
    t.nTransactions.toNat ≤ maxBlockSize true / 60 ∧ t.nTransactions ≠ 0 ∧
      (traverseAndExtract hash t (treeHeight t.nTransactions) 0
        ⟨0, 0, [], t.fBad⟩).2.fBad = false ∧
      (t.extractMatches hash).hashMerkleRoot =
        (traverseAndExtract hash t (treeHeight t.nTransactions) 0 ⟨0, 0, [], t.fBad⟩).1 ∧
      (t.extractMatches hash).vMatch = (traverseAndExtract hash t (treeHeight t.nTransactions) 0
          ⟨0, 0, [], t.fBad⟩).2.vMatch := by
  unfold CPartialMerkleTree.extractMatches at hroot ⊢
  split_ifs at hroot ⊢ with hzero hmany hhashes hbits
  · exact absurd rfl hroot
  · exact absurd rfl hroot
  · exact absurd rfl hroot
  · exact absurd rfl hroot
  · simp only at hroot ⊢
    split_ifs at hroot ⊢ with hbad hbytes hused
    · exact absurd rfl hroot
    · exact absurd rfl hroot
    · exact absurd rfl hroot
    · exact ⟨not_lt.mp hmany, hzero, by simpa using hbad, rfl, rfl⟩

/-- Whatever a peer sends, the matches extracted with the root of a block are
leaves of that block at the positions where the walk met them. -/
theorem extractMatches_sound {α : Type} [Zero α] [DecidableEq α]
    (hash : α → α → α) (hinj : Function.Injective2 hash) (t : CPartialMerkleTree α)
    (leaves : List α) (root : α) (mutated : Bool) (hn : leaves.length = t.nTransactions.toNat)
    (htrue : computeMerkleRoot hash leaves = some (root, mutated))
    (hroot : (t.extractMatches hash).hashMerkleRoot = root) (hne : root ≠ 0) :
    (t.extractMatches hash).vMatch.map some =
      (t.matchPositions hash).map fun pos => leaves[pos]? := by
  obtain ⟨hmax, hpos, hgood, hwalk, hmatch⟩ :=
    extractMatches_ne_zero (hroot ▸ hne)
  have hlimit : t.nTransactions.toNat ≤ 2 ^ 31 :=
    hmax.trans (by decide)
  have hleaves : leaves ≠ [] := by
    rintro rfl
    exact hpos (UInt32.toNat_inj.mp hn.symm)
  have hnode := (computeMerkleRoot_eq_some hleaves htrue).1
  rw [hwalk, treeHeight_eq hlimit, ← hn] at hroot
  rw [hmatch, CPartialMerkleTree.matchPositions]
  rw [treeHeight_eq hlimit, ← hn] at hgood ⊢
  have hlow : clog 2 leaves.length ≤ 31 :=
    clog_le_of_le_pow (hn ▸ hlimit)
  obtain ⟨hall, hin⟩ := traverseAndExtract_sound hinj hn.symm (hn ▸ hlimit) _ 0
    _ hlow (width_pos (length_pos_iff.mpr hleaves) _) hgood
    (hroot.trans hnode)
  rw [hall, nil_append, map_map]
  apply map_congr_left
  intro p hp
  simp [leafAt, hin p hp]

theorem extractMatches_sound_second :
    let t := CPartialMerkleTree.ofTxids pairHash [1, 2, 3] [false, true, false]
    t.matchPositions pairHash = [1] ∧ (t.extractMatches pairHash).vMatch.map some =
        (t.matchPositions pairHash).map fun pos => [1, 2, 3][pos]? :=
  ⟨by decide +kernel,
    extractMatches_sound pairHash pairHash_injective2 _ [1, 2, 3]
      (naiveMerkleRoot pairHash [1, 2, 3]) false rfl (by decide +kernel)
      (by decide +kernel) (by decide +kernel)⟩

/-- The root of the block with the one leaf zero is the failure value: a walk
that leaves a byte of its bits unread fails and has still returned a match. -/
theorem extractMatches_zero_root : let t : CPartialMerkleTree ℕ :=
      ⟨1, true :: replicate 15 false, [5], false⟩
    Function.Injective2 pairHash ∧ t.nTransactions.toNat = [0].length ∧
      computeMerkleRoot pairHash [0] = some ((t.extractMatches pairHash).hashMerkleRoot, false) ∧
      (t.extractMatches pairHash).vMatch.map some ≠
        (t.matchPositions pairHash).map fun pos => [0][pos]? :=
  ⟨pairHash_injective2, by decide +kernel⟩

end
end ImageCoin
