import ImageCoin.ByteStream
import ImageCoin.PartialMerkleTree

/-!
# Partial Merkle trees over the wire

What `TraverseAndBuild` appends for a subtree depends on the subtree only, and
`TraverseAndExtract` consumes exactly that from wherever it stands.
-/

namespace ImageCoin

open ByteStream MerkleTree CPartialMerkleTree List Nat
variable {vMatch : List Bool} {count : ℕ}

def CPartialMerkleTree.serialize (t : CPartialMerkleTree UInt256) : Bytes :=
  serializeUInt32 t.nTransactions ++
    (writeVector serializeUInt256 t.vHash ++ writeBlob (packBits t.vBits))

open CPartialMerkleTree

def CPartialMerkleTree.unserialize : Reader (CPartialMerkleTree UInt256) := do
  let nTransactions ← unserializeUInt32
  let vHash ← readVector 32 unserializeUInt256
  let vBytes ← readBlob
  pure ⟨nTransactions, unpackBits vBytes, vHash, false⟩

variable {α : Type}

/-! ## The encoding of a subtree -/

section

def leavesBelow (n height pos : ℕ) : List ℕ :=
  range' (pos * 2 ^ height) (min ((pos + 1) * 2 ^ height) n - pos * 2 ^ height)

def matchedBelow (n : ℕ) (vMatch : List Bool) (height pos : ℕ) : List ℕ :=
  (leavesBelow n height pos).filter fun p => vMatch.getD p false

def encoding (hash : α → α → α) (leaf : ℕ → α) (n : ℕ) (vMatch : List Bool) :
    ℕ → ℕ → List Bool × List α
  | 0, pos => ([vMatch.getD pos false], [leaf pos])
  | height + 1, pos =>
    if matchedBelow n vMatch (height + 1) pos = [] then
      ([false], [node hash leaf n (height + 1) pos])
    else
      let left := encoding hash leaf n vMatch height (pos * 2)
      let right :=
        if pos * 2 + 1 < width n height then
          encoding hash leaf n vMatch height (pos * 2 + 1)
        else ([], [])
      (true :: (left.1 ++ right.1), left.2 ++ right.2)

variable {hash : α → α → α} {leaf : ℕ → α} {n : ℕ} {vMatch : List Bool} {height pos : ℕ}

theorem leavesBelow_zero (hpos : pos < n) : leavesBelow n 0 pos = [pos] := by
  have hone : min (pos + 1) n - pos = 1 := by omega
  simp [leavesBelow, hone]

theorem leavesBelow_succ : leavesBelow n (height + 1) pos = leavesBelow n height (pos * 2) ++
    if pos * 2 + 1 < width n height then leavesBelow n height (pos * 2 + 1)
    else [] := by
  have hfirst : pos * 2 ^ (height + 1) = pos * 2 * 2 ^ height := by
    ring
  have hlast : (pos + 1) * 2 ^ (height + 1) = pos * 2 * 2 ^ height + 2 * 2 ^ height := by
    ring
  have hmid : (pos * 2 + 1) * 2 ^ height = pos * 2 * 2 ^ height + 2 ^ height := by ring
  have hend : (pos * 2 + 1 + 1) * 2 ^ height = pos * 2 * 2 ^ height + 2 * 2 ^ height := by ring
  simp only [leavesBelow, lt_width, hfirst, hlast, hmid, hend]
  generalize pos * 2 * 2 ^ height = first at *
  generalize 2 ^ height = size at *
  split_ifs with hright
  · have hcount : min (first + 2 * size) n - first = (min (first + size) n - first) +
          (min (first + 2 * size) n - (first + size)) := by omega
    have hstart : first + size = first + (min (first + size) n - first) := by
      omega
    rw [hcount, ← range'_append_1, ← hstart]
  · rw [append_nil]
    congr 1
    omega

theorem leavesBelow_ne_nil (hpos : pos < width n height) : leavesBelow n height pos ≠ [] := by
  have hpow : 0 < 2 ^ height := by positivity
  have hlast : (pos + 1) * 2 ^ height = pos * 2 ^ height + 2 ^ height := by ring
  rw [lt_width] at hpos
  rw [leavesBelow, ne_eq, range'_eq_nil_iff]
  omega

theorem matchedBelow_zero (hpos : pos < n) :
    matchedBelow n vMatch 0 pos = if vMatch.getD pos false then [pos] else [] := by
  rw [matchedBelow, leavesBelow_zero hpos, filter_singleton, Bool.cond_eq_ite]

theorem matchedBelow_succ :
    matchedBelow n vMatch (height + 1) pos = matchedBelow n vMatch height (pos * 2) ++
        if pos * 2 + 1 < width n height then
          matchedBelow n vMatch height (pos * 2 + 1)
        else [] := by
  rw [matchedBelow, leavesBelow_succ, filter_append, apply_ite (filter _)]
  rfl

theorem parentOfMatch_eq {nTransactions : UInt32} (hn : nTransactions.toNat ≤ 2 ^ 30)
    (hheight : height ≤ 31) (hpos : pos < width nTransactions.toNat height) :
    parentOfMatch nTransactions vMatch height pos =
      !(matchedBelow nTransactions.toNat vMatch height pos).isEmpty := by
  rw [lt_width] at hpos
  have hpow : 2 ^ height ≤ 2 ^ 31 := Nat.pow_le_pow_right (by omega) hheight
  have hlast : (pos + 1) * 2 ^ height = pos * 2 ^ height + 2 ^ height := by ring
  have hbelow : parentOfMatch nTransactions vMatch height pos =
      (leavesBelow nTransactions.toNat height pos).any fun p => vMatch.getD p false := by
    simp only [parentOfMatch, leavesBelow]
    rw [mod_eq_of_lt (by omega), mod_eq_of_lt (by omega)]
  rw [hbelow, Bool.eq_iff_iff, Bool.not_eq_true', isEmpty_eq_false_iff,
    matchedBelow, ne_eq, filter_eq_nil_iff, any_eq_true]
  push Not
  rfl

variable (hash leaf vMatch)

theorem length_encoding_le (height : ℕ) : ∀ pos, (encoding hash leaf n vMatch height pos).2.length ≤
    (encoding hash leaf n vMatch height pos).1.length := by
  induction height with
  | zero => simp [encoding]
  | succ height ih =>
    intro pos
    rw [encoding]
    have hleft := ih (pos * 2)
    have hright := ih (pos * 2 + 1)
    split_ifs
    · simp
    · simp
      omega
    · simp
      omega

theorem length_encoding_le_leaves (height : ℕ) : ∀ pos, pos < width n height →
    (encoding hash leaf n vMatch height pos).2.length ≤ (leavesBelow n height pos).length := by
  induction height with
  | zero =>
    intro pos hpos
    rw [width_zero] at hpos
    simp [encoding, leavesBelow_zero hpos]
  | succ height ih =>
    intro pos hpos
    have hleft := ih _ (left_lt_width hpos)
    rw [encoding]
    split_ifs with hnone hin
    · exact length_pos_iff.mpr (leavesBelow_ne_nil hpos)
    · have hright := ih _ hin
      rw [leavesBelow_succ, if_pos hin, length_append, length_append]
      omega
    · rw [leavesBelow_succ, if_neg hin]
      simpa using hleft

theorem length_encoding_bits_le (height : ℕ) : ∀ pos, pos < width n height →
    (encoding hash leaf n vMatch height pos).1.length ≤
      (height + 1) * (leavesBelow n height pos).length := by
  induction height with
  | zero =>
    intro pos hpos
    rw [width_zero] at hpos
    simp [encoding, leavesBelow_zero hpos]
  | succ height ih =>
    intro pos hpos
    have hleft := ih _ (left_lt_width hpos)
    have hsome := length_pos_iff.mpr (leavesBelow_ne_nil hpos)
    rw [leavesBelow_succ] at hsome ⊢
    rw [encoding]
    split_ifs at hsome ⊢ with hnone hin hin
    · exact mul_pos (by omega) hsome
    · exact mul_pos (by omega) hsome
    · have hright := ih _ hin
      simp only [length_cons, length_append] at hsome ⊢
      rw [succ_mul (height + 1), mul_add]
      omega
    · simp only [length_cons, append_nil] at hsome ⊢
      rw [succ_mul (height + 1)]
      omega

variable {hash leaf vMatch}

theorem leavesBelow_root : leavesBelow n (clog 2 n) 0 = range n := by
  have hle : n ≤ 2 ^ clog 2 n := le_pow_clog (by omega) n
  rw [leavesBelow, zero_mul, zero_add, one_mul, min_eq_right hle, Nat.sub_zero, range_eq_range']

theorem length_encoding_root (hpos : 0 < n) {bits : List Bool} {hashes : List α}
    (henc : encoding hash leaf n vMatch (clog 2 n) 0 = (bits, hashes)) :
    hashes.length ≤ n ∧ hashes.length ≤ bits.length ∧ bits.length ≤ (clog 2 n + 1) * n := by
  have hroot : 0 < width n (clog 2 n) := width_pos hpos _
  have hleaves : hashes.length ≤ (leavesBelow n (clog 2 n) 0).length := by
    simpa only [henc] using length_encoding_le_leaves hash leaf vMatch _ _ hroot
  have hbits : bits.length ≤ (clog 2 n + 1) * (leavesBelow n (clog 2 n) 0).length := by
    simpa only [henc] using length_encoding_bits_le hash leaf vMatch _ _ hroot
  have hhashes : hashes.length ≤ bits.length := by
    simpa only [henc] using length_encoding_le hash leaf vMatch (n := n) (clog 2 n) 0
  rw [leavesBelow_root, length_range] at hleaves hbits
  exact ⟨hleaves, hhashes, hbits⟩

end

section
variable [Zero α] {hash : α → α → α} {vTxid : List α} {vMatch : List Bool}

theorem calcHash_eq {nTransactions : UInt32}
    (hn : nTransactions.toNat = vTxid.length) (hmax : vTxid.length ≤ 2 ^ 30) (height : ℕ) :
    ∀ pos, height ≤ 31 → calcHash hash nTransactions vTxid height pos =
        node hash (leafAt vTxid) vTxid.length height pos := by
  induction height with
  | zero => exact fun pos _ => rfl
  | succ height ih =>
    intro pos hheight
    rw [calcHash, node, calcTreeWidth_eq (by omega) (by omega), hn,
      ih _ (by omega), ih _ (by omega), mul_comm]

theorem traverseAndBuild_eq (hmax : vTxid.length ≤ 2 ^ 30) (height : ℕ) :
    ∀ (pos : ℕ) (t : CPartialMerkleTree α), t.nTransactions.toNat = vTxid.length → height ≤ 31 →
      pos < width vTxid.length height →
      traverseAndBuild hash vTxid vMatch height pos t =
        { t with
          vBits := t.vBits ++ (encoding hash (leafAt vTxid) vTxid.length vMatch height pos).1
          vHash := t.vHash ++
            (encoding hash (leafAt vTxid) vTxid.length vMatch height pos).2 } := by
  induction height with
  | zero =>
    intro pos t hn hheight hpos
    have hparent : parentOfMatch t.nTransactions vMatch 0 pos = vMatch.getD pos false := by
      rw [width_zero] at hpos
      rw [parentOfMatch_eq (by omega) (by omega) (by simpa [hn]), hn, matchedBelow_zero hpos]
      cases vMatch.getD pos false
      · rfl
      · rfl
    rw [traverseAndBuild, hparent, calcHash_eq hn hmax _ _ hheight, node, encoding]
  | succ height ih =>
    intro pos t hn hheight hpos
    have hwidth : calcTreeWidth t.nTransactions height = width vTxid.length height := by
      rw [calcTreeWidth_eq (by omega) (by omega), hn]
    rw [traverseAndBuild, parentOfMatch_eq (by omega) hheight (by rwa [hn]), hn, encoding]
    by_cases hnone : matchedBelow vTxid.length vMatch (height + 1) pos = []
    · simp [hnone, calcHash_eq hn hmax _ _ hheight]
    · have hsome : (!(matchedBelow vTxid.length vMatch (height + 1) pos).isEmpty) := by
        simpa using hnone
      simp only [hsome, if_true]
      rw [ih (pos * 2) { t with vBits := t.vBits ++ [true] } hn (by omega)
        (left_lt_width hpos)]
      simp only [hwidth]
      split_ifs with hright
      · rw [ih (pos * 2 + 1) _ ?_ (by omega) hright]
        · simp
        · exact hn
      · simp

end

section
variable [Zero α] [DecidableEq α] {hash : α → α → α} {leaf : ℕ → α} {n : ℕ}
  {vMatch : List Bool} {t : CPartialMerkleTree α}

theorem isPrefix_append_drop {β : Type} {a b l : List β} {used : ℕ} (h : a ++ b <+: l.drop used) :
    a <+: l.drop used ∧ b <+: l.drop (used + a.length) := by
  obtain ⟨rest, hrest⟩ := h
  rw [append_assoc] at hrest
  refine ⟨⟨_, hrest⟩, ⟨rest, ?_⟩⟩
  rw [← drop_drop, ← hrest, drop_left]

theorem getElem?_of_isPrefix_drop {β : Type} {x : β} {a l : List β} {used : ℕ}
    (h : x :: a <+: l.drop used) : l[used]? = some x := by
  obtain ⟨rest, hrest⟩ := h
  have hhead := congrArg (·[0]?) hrest
  simpa using hhead.symm

variable (vMatch t) in
theorem traverseAndExtract_encoding (hn : t.nTransactions.toNat = n) (hmax : n ≤ 2 ^ 30)
    (hdiffer : ∀ level i, 2 * i + 1 < width n level →
    node hash leaf n level (2 * i) ≠ node hash leaf n level (2 * i + 1)) (height : ℕ) :
    ∀ (pos : ℕ) (s : ExtractState α), height ≤ 31 → pos < width n height →
      (encoding hash leaf n vMatch height pos).1 <+: t.vBits.drop s.nBitsUsed →
      (encoding hash leaf n vMatch height pos).2 <+: t.vHash.drop s.nHashUsed →
      traverseAndExtract hash t height pos s = (node hash leaf n height pos,
          ⟨s.nBitsUsed + (encoding hash leaf n vMatch height pos).1.length,
            s.nHashUsed + (encoding hash leaf n vMatch height pos).2.length,
            s.vMatch ++ (matchedBelow n vMatch height pos).map leaf, s.fBad⟩) := by
  induction height with
  | zero =>
    intro pos s _ hpos hbits hhashes
    rw [width_zero] at hpos
    simp only [traverseAndExtract, getElem?_of_isPrefix_drop hbits, useStoredHash,
      getElem?_of_isPrefix_drop hhashes, matchedBelow_zero hpos, encoding, node]
    cases vMatch.getD pos false
    · simp
    · simp
  | succ height ih =>
    intro pos s hheight hpos hbits hhashes
    have hwidth : calcTreeWidth t.nTransactions height = width n height := by
      rw [calcTreeWidth_eq (by omega) (by omega), hn]
    have hleft := left_lt_width hpos
    rw [encoding] at hbits hhashes ⊢
    by_cases hnone : matchedBelow n vMatch (height + 1) pos = []
    · rw [if_pos hnone] at hbits hhashes ⊢
      rw [traverseAndExtract, getElem?_of_isPrefix_drop hbits]
      simp only [useStoredHash, getElem?_of_isPrefix_drop hhashes, hnone]
      simp
    · rw [if_neg hnone] at hbits hhashes ⊢
      have hbit : t.vBits[s.nBitsUsed]? = some true :=
        getElem?_of_isPrefix_drop hbits
      obtain ⟨-, hbits⟩ := isPrefix_append_drop (a := [true]) hbits
      obtain ⟨hbits₁, hbits₂⟩ := isPrefix_append_drop hbits
      obtain ⟨hhashes₁, hhashes₂⟩ := isPrefix_append_drop hhashes
      have hwalk₁ := ih (pos * 2) { s with nBitsUsed := s.nBitsUsed + 1 }
        (by omega) hleft hbits₁ hhashes₁
      rw [traverseAndExtract]
      simp only [hbit, hwalk₁, hwidth]
      by_cases hright : pos * 2 + 1 < width n height
      · simp only [if_pos hright] at hbits₂ hhashes₂ ⊢
        rw [ih (pos * 2 + 1) _ (by omega) hright hbits₂ hhashes₂]
        have hnot := hdiffer height pos (by omega)
        rw [mul_comm 2 pos] at hnot
        rw [node_succ_of_lt (by omega), mul_comm 2 pos, matchedBelow_succ, if_pos hright]
        simp [hnot.symm, add_assoc, add_comm 1]
      · simp [if_neg hright]
        rw [node_succ_of_not_lt (by omega), mul_comm 2 pos, matchedBelow_succ, if_neg hright]
        simp [add_assoc, add_comm 1]

end

/-! ## The round trip -/

def matchedTxids (vTxid : List α) (vMatch : List Bool) : List α :=
  ((vTxid.zip vMatch).filter (·.2)).map (·.1)

theorem map_matchedBelow_root [Zero α] (vTxid : List α) : ∀ vMatch : List Bool,
    (matchedBelow vTxid.length vMatch (clog 2 vTxid.length) 0).map
      (leafAt vTxid) = matchedTxids vTxid vMatch := by
  simp only [matchedBelow, leavesBelow_root]
  induction vTxid with
  | nil => simp [matchedTxids]
  | cons txid rest ih =>
    intro vMatch
    cases vMatch with
    | nil => simp [matchedTxids]
    | cons bit bits =>
      have hrest : (filter (fun p => (bit :: bits).getD p false)
          ((range rest.length).map succ)).map
            (leafAt (txid :: rest)) = matchedTxids rest bits := by
        rw [← ih bits, filter_map, map_map]
        rfl
      rw [length_cons, range_succ_eq_map]
      cases bit
      · simpa [matchedTxids] using hrest
      · simpa [matchedTxids, leafAt] using hrest

theorem reads_unserialize (t : CPartialMerkleTree UInt256) (hhashes : t.vHash.length ≤ maxSize)
    (hbits : (t.vBits.length + 7) / 8 ≤ maxSize) :
    Reads unserialize t.serialize ⟨t.nTransactions, t.vBits ++
        replicate ((t.vBits.length + 7) / 8 * 8 - t.vBits.length) false,
        t.vHash, false⟩ := by
  rw [← unpackBits_packBits]
  refine .bind rfl (reads_unserializeUInt32 _) ?_
  refine .bind rfl (reads_readVector (by decide) hhashes fun x _ => reads_unserializeUInt256 x) ?_
  refine .bind (append_nil _).symm (reads_readBlob (by rwa [length_packBits])) ?_
  exact .pure _

variable {hash : α → α → α} {vTxid : List α}

theorem ofTxids_eq [Zero α] (hne : vTxid ≠ []) (hmax : vTxid.length ≤ 2 ^ 30) :
    ofTxids hash vTxid vMatch = ⟨UInt32.ofNat vTxid.length,
        (encoding hash (leafAt vTxid) vTxid.length vMatch (clog 2 vTxid.length) 0).1,
        (encoding hash (leafAt vTxid) vTxid.length vMatch
          (clog 2 vTxid.length) 0).2, false⟩ := by
  have hn : (UInt32.ofNat vTxid.length).toNat = vTxid.length := by
    exact mod_eq_of_lt (by omega)
  have hheight : clog 2 vTxid.length ≤ 31 :=
    (clog_le_of_le_pow hmax).trans (by omega)
  rw [ofTxids, treeHeight_eq (by omega), hn, traverseAndBuild_eq hmax _ _ _ hn hheight
    (width_pos (length_pos_iff.mpr hne) _)]
  simp

variable {bits : List Bool}

theorem extractMatches_encoding [Zero α] [DecidableEq α]
    (hne : vTxid ≠ []) (hmax : vTxid.length ≤ maxBlockSize true / 60)
    (hdiffer : ∀ level i, 2 * i + 1 < width vTxid.length level →
    node hash (leafAt vTxid) vTxid.length level (2 * i) ≠
    node hash (leafAt vTxid) vTxid.length level (2 * i + 1)) {hashes : List α}
    (henc : encoding hash (leafAt vTxid) vTxid.length vMatch
    (clog 2 vTxid.length) 0 = (bits, hashes)) :
    extractMatches hash ⟨UInt32.ofNat vTxid.length, bits ++
          replicate ((bits.length + 7) / 8 * 8 - bits.length) false,
          hashes, false⟩ =
      ⟨node hash (leafAt vTxid) vTxid.length (clog 2 vTxid.length) 0,
        matchedTxids vTxid vMatch, false⟩ := by
  have hsmall : maxBlockSize true / 60 ≤ 2 ^ 30 := by decide
  have hpos : 0 < vTxid.length := length_pos_iff.mpr hne
  have hn : (UInt32.ofNat vTxid.length).toNat = vTxid.length := by
    exact mod_eq_of_lt (by omega)
  have hheight : clog 2 vTxid.length ≤ 31 :=
    (clog_le_of_le_pow (hmax.trans hsmall)).trans (by omega)
  have hzero : UInt32.ofNat vTxid.length ≠ 0 := by
    intro h
    rw [h] at hn
    exact hpos.ne hn
  obtain ⟨hfew, hhashes, -⟩ := length_encoding_root hpos henc
  have hlength : ∀ padding, (bits ++ replicate padding false).length = bits.length + padding := by
    simp
  set padded := bits ++ replicate ((bits.length + 7) / 8 * 8 - bits.length) false with hpadded
  have hpad : padded.length = (bits.length + 7) / 8 * 8 := by
    rw [hlength]
    omega
  have hwalk := traverseAndExtract_encoding vMatch ⟨UInt32.ofNat vTxid.length, padded, hashes,
    false⟩ hn (hmax.trans hsmall) hdiffer (clog 2 vTxid.length) 0 ⟨0, 0, [], false⟩
    hheight (width_pos hpos _) (by rw [henc]; exact prefix_append _ _)
    (by rw [henc]; exact prefix_refl _)
  rw [henc, map_matchedBelow_root] at hwalk
  rw [extractMatches]
  simp only [treeHeight_eq (hn.trans_le (by omega)), hn]
  rw [if_neg hzero, if_neg (by omega), if_neg (by omega), if_neg (by omega), hwalk]
  simp only [Bool.false_eq_true, if_false]
  rw [if_neg (by omega)]
  simp

theorem unserialize_ofTxids {hash : UInt256 → UInt256 → UInt256} {vTxid : List UInt256}
    (hne : vTxid ≠ []) (hmax : vTxid.length ≤ 2 ^ 20) {hashes : List UInt256}
    (henc : encoding hash (leafAt vTxid) vTxid.length vMatch
    (clog 2 vTxid.length) 0 = (bits, hashes)) :
    unserialize (ofTxids hash vTxid vMatch).serialize = .ok (⟨UInt32.ofNat vTxid.length, bits ++
        replicate ((bits.length + 7) / 8 * 8 - bits.length) false,
        hashes, false⟩, []) := by
  obtain ⟨hfew, -, hbits⟩ :=
    length_encoding_root (length_pos_iff.mpr hne) henc
  have hlow : clog 2 vTxid.length ≤ 20 := clog_le_of_le_pow hmax
  have hcount : (clog 2 vTxid.length + 1) * vTxid.length ≤ 21 * 2 ^ 20 :=
    Nat.mul_le_mul (by omega) hmax
  rw [ofTxids_eq hne (by omega), henc]
  have hread := reads_unserialize ⟨UInt32.ofNat vTxid.length, bits, hashes, false⟩
    (by simp only [maxSize]; omega) (by simp only [maxSize]; omega) []
  rwa [append_nil] at hread

theorem leafAt_ne_of_nodup [Zero α] (hnodup : vTxid.Nodup) {i j : ℕ} (hi : i < vTxid.length)
    (hj : j < vTxid.length) (hij : i ≠ j) : leafAt vTxid i ≠ leafAt vTxid j := by
  intro heq
  have hget : vTxid[i] = vTxid[j] := by simpa [leafAt, hi, hj] using heq
  exact hij (hnodup.getElem_inj_iff.mp hget)

/-- A tree built from distinct ids, sent and read back, gives the root of the
block and the ids that the mask selects. -/
theorem extractMatches_complete (hash : UInt256 → UInt256 → UInt256)
    (vTxid : List UInt256) (vMatch : List Bool) (hne : vTxid ≠ [])
    (hnodup : vTxid.Nodup) (hmax : vTxid.length ≤ maxBlockSize true / 60)
    (hdiffer : ∀ level i, 2 * i + 1 < width vTxid.length (level + 1) →
      node hash (leafAt vTxid) vTxid.length (level + 1) (2 * i) ≠
        node hash (leafAt vTxid) vTxid.length (level + 1) (2 * i + 1)) :
    ∃ t root mutated, unserialize
        (ofTxids hash vTxid vMatch).serialize = .ok (t, []) ∧
      computeMerkleRoot hash vTxid = some (root, mutated) ∧
      t.extractMatches hash = ⟨root, matchedTxids vTxid vMatch, false⟩ := by
  have hsmall : maxBlockSize true / 60 ≤ 2 ^ 20 := by decide
  obtain ⟨r, hr, hroot, -, -⟩ := exists_merkleComputation hash 0xffffffff false hne (by omega)
  refine ⟨_, r.root, r.mutated, unserialize_ofTxids hne (hmax.trans hsmall) rfl, ?_, ?_⟩
  · rw [computeMerkleRoot, hr, Option.map_some]
  · rw [hroot]
    refine extractMatches_encoding hne hmax ?_ rfl
    rintro (_ | level) i hi
    · rw [width_zero] at hi
      exact leafAt_ne_of_nodup hnodup (by omega) hi (by omega)
    · exact hdiffer level i hi

theorem extractMatches_complete_three : ∃ t root mutated, unserialize (ofTxids sumHash
        [1, 2, 3] [false, true, true]).serialize = .ok (t, []) ∧
      computeMerkleRoot sumHash [1, 2, 3] = some (root, mutated) ∧
      t.extractMatches sumHash = ⟨root, [2, 3], false⟩ := by
  refine extractMatches_complete sumHash [1, 2, 3] [false, true, true]
    (by decide) (by decide) (by decide) ?_
  intro level i hi
  -- Only the two nodes of level one have a sibling.
  have hlt := lt_width.mp hi
  rw [List.length_cons, List.length_cons, List.length_singleton, pow_succ] at hlt
  have hone : level = 0 ∧ i = 0 := by
    rcases level with _ | level
    · exact ⟨rfl, by omega⟩
    · have hpow : 1 ≤ 2 ^ level := Nat.one_le_two_pow
      have hbig := mul_le_mul (le_add_left 1 (2 * i)) (mul_le_mul_right (2 * 2) hpow)
      rw [pow_succ, mul_assoc (2 ^ level)] at hlt
      omega
  obtain ⟨rfl, rfl⟩ := hone
  decide

def levelHash (left _right : UInt256) : UInt256 := left + BitVec.ofNat 256 (2 ^ 32)

def numberedTxids (count : ℕ) : List UInt256 :=
  (range count).map (BitVec.ofNat 256)

@[simp] theorem length_numberedTxids (count : ℕ) : (numberedTxids count).length = count := by
  simp [numberedTxids]

theorem nodup_numberedTxids (hcount : count ≤ 2 ^ 256) : (numberedTxids count).Nodup := by
  refine List.Nodup.map_on ?_ nodup_range
  intro i hi j hj heq
  rw [mem_range] at hi hj
  have hnat := congrArg BitVec.toNat heq
  rwa [BitVec.toNat_ofNat, BitVec.toNat_ofNat, mod_eq_of_lt (by omega),
    mod_eq_of_lt (by omega)] at hnat

theorem node_numberedTxids (level : ℕ) : ∀ i, i < width count level →
    node levelHash (leafAt (numberedTxids count)) count level i =
      BitVec.ofNat 256 (i * 2 ^ level + level * 2 ^ 32) := by
  induction level with
  | zero =>
    intro i hi
    rw [width_zero] at hi
    simp [node, leafAt, numberedTxids, hi]
  | succ level ih =>
    intro i hi
    rw [node, levelHash, mul_comm 2 i, ih _ (left_lt_width hi), ← BitVec.ofNat_add]
    congr 1
    ring

theorem node_numberedTxids_inj {level i level' i' : ℕ}
    (hcount : count ≤ 2 ^ 20) (hlevel : level ≤ 20) (hlevel' : level' ≤ 20)
    (hi : i < width count level) (hi' : i' < width count level')
    (heq : node levelHash (leafAt (numberedTxids count)) count level i =
    node levelHash (leafAt (numberedTxids count)) count level' i') : level = level' ∧ i = i' := by
  rw [node_numberedTxids _ _ hi, node_numberedTxids _ _ hi'] at heq
  have hnat := congrArg BitVec.toNat heq
  rw [lt_width] at hi hi'
  rw [BitVec.toNat_ofNat, BitVec.toNat_ofNat, mod_eq_of_lt (by omega),
    mod_eq_of_lt (by omega)] at hnat
  obtain rfl : level = level' := by omega
  have hpos : 0 < 2 ^ level := by positivity
  exact ⟨rfl, eq_of_mul_eq_mul_right hpos (by omega)⟩

theorem extractMatches_of_tooMany [Zero α] [DecidableEq α]
    {t : CPartialMerkleTree α} (hmany : maxBlockSize true / 60 < t.nTransactions.toNat) :
    (t.extractMatches hash).vMatch = [] := by
  rw [extractMatches]
  split_ifs
  · rfl
  · rfl

theorem length_matchedTxids_replicate (vTxid : List α) :
    (matchedTxids vTxid (replicate vTxid.length true)).length = vTxid.length := by
  induction vTxid with
  | nil => rfl
  | cons txid rest ih => simpa [matchedTxids, replicate_succ] using ih

theorem vMatch_ne_of_tooMany {hash : UInt256 → UInt256 → UInt256} {vTxid : List UInt256}
    (hmany : maxBlockSize true / 60 < vTxid.length) (hmax : vTxid.length ≤ 2 ^ 20)
    {t : CPartialMerkleTree UInt256} (hread : unserialize (ofTxids hash vTxid
    (replicate vTxid.length true)).serialize = .ok (t, [])) :
    (t.extractMatches hash).vMatch ≠ matchedTxids vTxid (replicate vTxid.length true) := by
  have hpos : 0 < vTxid.length := by omega
  rw [unserialize_ofTxids (length_pos_iff.mp hpos) hmax rfl] at hread
  obtain rfl := (Prod.mk.inj (Except.ok.inj hread)).1
  have hn : (UInt32.ofNat vTxid.length).toNat = vTxid.length := by
    exact mod_eq_of_lt (by omega)
  rw [extractMatches_of_tooMany (by rwa [hn])]
  intro hnil
  have hlength := congrArg length hnil
  rw [length_matchedTxids_replicate, length_nil] at hlength
  omega

/-- One id more than a block may have: nothing is extracted. -/
theorem extractMatches_tooMany : ∃ vTxid : List UInt256, vTxid.length = maxBlockSize true / 60 + 1 ∧
    vTxid.Nodup ∧
    (∀ level i level' i', level ≤ clog 2 vTxid.length →
      level' ≤ clog 2 vTxid.length → i < width vTxid.length level →
      i' < width vTxid.length level' →
      node levelHash (leafAt vTxid) vTxid.length level i =
        node levelHash (leafAt vTxid) vTxid.length level' i' →
      level = level' ∧ i = i') ∧
    ¬∃ t root mutated, unserialize (ofTxids levelHash vTxid
          (List.replicate vTxid.length true)).serialize = .ok (t, []) ∧
      computeMerkleRoot levelHash vTxid = some (root, mutated) ∧
      t.extractMatches levelHash =
        ⟨root, matchedTxids vTxid (List.replicate vTxid.length true), false⟩ := by
  have hlimit : maxBlockSize true / 60 + 1 ≤ 2 ^ 20 := by decide
  generalize hcount : maxBlockSize true / 60 + 1 = count at hlimit
  have hmany : maxBlockSize true / 60 < count := by omega
  refine ⟨numberedTxids count, length_numberedTxids count,
    nodup_numberedTxids (hlimit.trans (by decide)), ?_, ?_⟩
  · rw [length_numberedTxids]
    have hlow : clog 2 count ≤ 20 := clog_le_of_le_pow hlimit
    exact fun level i level' i' hlevel hlevel' => node_numberedTxids_inj hlimit
      (hlevel.trans hlow) (hlevel'.trans hlow)
  · rintro ⟨t, root, mutated, hread, -, hextract⟩
    refine vMatch_ne_of_tooMany (by rwa [length_numberedTxids])
      (by rwa [length_numberedTxids]) hread ?_
    rw [hextract]

end ImageCoin
