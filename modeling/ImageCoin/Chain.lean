import ImageCoin.BlockTree

/-!
# Block index entries along a chain

The fields of `CBlockIndex` that a chain is walked by.
-/

namespace ImageCoin

open BlockTree List
variable {height : ℕ}

def invertLowestOne (n : ℕ) : ℕ := n &&& (n - 1)

def getSkipHeight (height : ℕ) : ℕ :=
  if height < 2 then 0
  else if height % 2 = 1 then
    invertLowestOne (invertLowestOne (height - 1)) + 1
  else invertLowestOne height

/-- The entries of a block index by their addresses. -/
structure ChainEntries (ι : Type) where
  pprev : ι → Option ι
  pskip : ι → Option ι
  nHeight : ι → ℕ
  nVersion : ι → Int32
  nTime : ι → UInt32
  nBits : ι → UInt32

open ChainEntries

namespace ChainEntries

variable {ι : Type} (m : ChainEntries ι)

/-- The loop of `GetAncestor`; there is no result if the assertion on `pprev`
fails. -/
def getAncestorLoop (height : ℕ) : ℕ → ι → ℕ → Option ι
  | 0, pindexWalk, _ => some pindexWalk
  | fuel + 1, pindexWalk, heightWalk =>
    if height < heightWalk then
      let heightSkip := getSkipHeight heightWalk
      let heightSkipPrev := getSkipHeight (heightWalk - 1)
      match m.pskip pindexWalk with
      | some skip =>
        -- Only follow pskip if pprev->pskip isn't better than pskip->pprev.
        if heightSkip = height ∨ (height < heightSkip ∧ ¬((heightSkipPrev : ℤ) < heightSkip - 2 ∧
              height ≤ heightSkipPrev)) then
          getAncestorLoop height fuel skip heightSkip
        else
          (m.pprev pindexWalk).bind (getAncestorLoop height fuel · (heightWalk - 1))
      | none =>
        (m.pprev pindexWalk).bind (getAncestorLoop height fuel · (heightWalk - 1))
    else some pindexWalk

def getAncestor (pindex : ι) (height : ℤ) : Option ι :=
  if height > m.nHeight pindex ∨ height < 0 then none
  else m.getAncestorLoop height.toNat (m.nHeight pindex) pindex (m.nHeight pindex)

def buildSkip (pindex : ι) : Option ι :=
  (m.pprev pindex).bind (m.getAncestor · (getSkipHeight (m.nHeight pindex)))

def blockTimes : ℕ → Option ι → List ℤ
  | 0, _ => []
  | _, none => []
  | count + 1, some pindex =>
    (m.nTime pindex).toNat :: blockTimes count (m.pprev pindex)

end ChainEntries

def nMedianTimeSpan : ℕ := 11

def medianOf (times : List ℤ) : ℤ :=
  (times.insertionSort (· ≤ ·)).getD (times.length / 2) 0

def ChainEntries.getMedianTimePast {ι : Type} (m : ChainEntries ι) (pindex : ι) : ℤ :=
  medianOf (m.blockTimes nMedianTimeSpan (some pindex))

/-- Entries as `AddToBlockIndex` links them: each one above its parent, with
`pskip` built. -/
structure BlockChains (ι : Type) extends ChainEntries ι where
  nHeight_root : ∀ {b}, pprev b = none → nHeight b = 0
  nHeight_child : ∀ {b p}, pprev b = some p → nHeight b = nHeight p + 1
  pskip_built : ∀ b, pskip b = toChainEntries.buildSkip b

namespace BlockChains

variable {ι : Type} (m : BlockChains ι)

def tree : BlockTree ι where
  parent := m.pprev
  height := m.nHeight
  height_root := m.nHeight_root
  height_child := m.nHeight_child

end BlockChains

theorem invertLowestOne_lt {n : ℕ} (hn : n ≠ 0) : invertLowestOne n < n := by
  have hle : invertLowestOne n ≤ n - 1 := Nat.and_le_right
  omega

theorem invertLowestOne_le (n : ℕ) : invertLowestOne n ≤ n :=
  Nat.and_le_left

theorem getSkipHeight_lt (hpos : 0 < height) : getSkipHeight height < height := by
  unfold getSkipHeight
  split_ifs with hsmall hodd
  · exact hpos
  · have hinner : invertLowestOne (height - 1) < height - 1 :=
      invertLowestOne_lt (by omega)
    have houter := invertLowestOne_le (invertLowestOne (height - 1))
    omega
  · exact invertLowestOne_lt (by omega)

theorem getAncestorLoop_eq {ι : Type} {m : ChainEntries ι} {t : BlockTree ι}
    (hprev : t.parent = m.pprev)
    {top : ℕ} (hskip : ∀ b skip, t.height b < top → m.pskip b = some skip →
    t.ancestor b (getSkipHeight (t.height b)) = some skip) (fuel : ℕ) :
    ∀ b, t.height b < top → height ≤ t.height b → t.height b ≤ height + fuel →
      m.getAncestorLoop height fuel b (t.height b) = t.ancestor b height := by
  induction fuel with
  | zero =>
    intro b htop hle hfuel
    obtain rfl : height = t.height b := by omega
    rw [getAncestorLoop, ancestor_self]
  | succ fuel ih =>
    intro b htop hle hfuel
    rw [getAncestorLoop]
    split_ifs with hlt
    · -- Both ways down stay above the height that is looked for.
      have hdown : (m.pprev b).bind (m.getAncestorLoop height fuel · (t.height b - 1)) =
            t.ancestor b height := by
        cases hparent : t.parent b with
        | none =>
          have hroot := t.height_root hparent
          omega
        | some p =>
          have hheight := t.height_child hparent
          rw [← hprev, hparent, Option.bind_some, hheight,
            Nat.add_sub_cancel, ih p (by omega) (by omega) (by omega)]
          exact ancestor_of_ancestor (ancestor_parent hparent) (by omega)
      cases hpskip : m.pskip b with
      | none => simpa using hdown
      | some skip =>
        simp only
        split_ifs with hjump
        · have hat := hskip b skip htop hpskip
          obtain ⟨hheight, -⟩ := height_of_ancestor hat
          have hless : getSkipHeight (t.height b) < t.height b :=
            getSkipHeight_lt (by omega)
          rw [← hheight, ih skip (by omega) (by omega) (by omega)]
          exact ancestor_of_ancestor hat (by omega)
        · exact hdown
    · obtain rfl : height = t.height b := by omega
      rw [ancestor_self]

namespace BlockChains

variable {ι : Type} {m : BlockChains ι}

theorem getAncestor_eq_of_skips {top : ℕ}
    (hskip : ∀ b skip, m.nHeight b < top → m.pskip b = some skip →
    m.tree.ancestor b (getSkipHeight (m.nHeight b)) = some skip) {b : ι} (hb : m.nHeight b < top)
    {height : ℤ} (hpos : 0 ≤ height) : m.getAncestor b height = m.tree.ancestor b height.toNat := by
  rw [getAncestor]
  split_ifs with hout
  · rw [ancestor, if_neg]
    change ¬height.toNat ≤ m.nHeight b
    omega
  · exact getAncestorLoop_eq (t := m.tree) rfl hskip _ b hb
      (by change height.toNat ≤ m.nHeight b; omega) (Nat.le_add_left _ _)

theorem ancestor_of_pskip (top : ℕ) : ∀ b skip, m.nHeight b < top → m.pskip b = some skip →
    m.tree.ancestor b (getSkipHeight (m.nHeight b)) = some skip := by
  induction top with
  | zero =>
    intro b skip hb
    omega
  | succ top ih =>
    intro b skip hb hskip
    rw [m.pskip_built] at hskip
    obtain ⟨p, hparent, hskip⟩ := Option.bind_eq_some_iff.mp hskip
    have hheight := m.nHeight_child hparent
    have hless : getSkipHeight (m.nHeight b) < m.nHeight b :=
      getSkipHeight_lt (by omega)
    rw [getAncestor_eq_of_skips ih (by omega) (by omega)] at hskip
    rw [← hskip]
    have hp : m.tree.parent b = some p := hparent
    exact (ancestor_of_ancestor (ancestor_parent hp) (by change _ ≤ m.nHeight p; omega)).symm

theorem getAncestor_eq {b : ι} {height : ℤ} (hpos : 0 ≤ height) :
    m.getAncestor b height = m.tree.ancestor b height.toNat :=
  getAncestor_eq_of_skips (ancestor_of_pskip (m.nHeight b + 1)) (Nat.lt_succ_self _) hpos

/-- The walk along skips ends where following `pprev` does. -/
theorem getAncestor_follows_pprev (b : ι) (height : ℤ) : (0 ≤ height → height ≤ m.nHeight b →
      ∃ a, m.getAncestor b height = some a ∧ m.tree.up b (m.nHeight b - height.toNat) = some a) ∧
      (height < 0 ∨ m.nHeight b < height → m.getAncestor b height = none) := by
  refine ⟨fun hpos hle => ?_, fun hout => ?_⟩
  · have hsteps : height.toNat ≤ m.tree.height b := by
      change height.toNat ≤ m.nHeight b
      omega
    obtain ⟨a, ha⟩ := BlockTree.exists_ancestor hsteps
    have hup := ha
    rw [BlockTree.ancestor, if_pos hsteps] at hup
    exact ⟨a, (getAncestor_eq hpos).trans ha, hup⟩
  · rw [getAncestor, if_pos hout.symm]

end BlockChains

theorem le_getElem_iff_countP {s : List ℤ} (hs : s.Pairwise (· ≤ ·)) {k : ℕ}
    (hk : k < s.length) (v : ℤ) : v ≤ s[k] ↔ s.length ≤ k + s.countP (v ≤ ·) := by
  have hsplit : s.countP (v ≤ ·) = (s.take k).countP (v ≤ ·) + (s.drop k).countP (v ≤ ·) := by
    rw [← countP_append, take_append_drop]
  constructor
  · intro hv
    have hall : (s.drop k).countP (v ≤ ·) = (s.drop k).length := by
      rw [countP_eq_length]
      intro x hx
      obtain ⟨i, hi, rfl⟩ := mem_iff_getElem.mp hx
      have hki : k + i < s.length := by
        rw [length_drop] at hi
        omega
      have hle : s[k] ≤ s[k + i] := by
        rcases Nat.eq_zero_or_pos i with rfl | hpos
        · simp
        · exact pairwise_iff_getElem.mp hs _ _ _ _ (by omega)
      simpa using hv.trans hle
    rw [length_drop] at hall
    omega
  · intro hcount
    by_contra hlt
    have hnone : (s.take (k + 1)).countP (v ≤ ·) = 0 := by
      rw [countP_eq_zero]
      intro x hx
      obtain ⟨i, hi, rfl⟩ := mem_iff_getElem.mp hx
      rw [length_take] at hi
      have hle : s[i] ≤ s[k] := by
        rcases Nat.lt_or_ge i k with hlt' | hge
        · exact pairwise_iff_getElem.mp hs _ _ _ _ hlt'
        · obtain rfl : i = k := by omega
          exact le_rfl
      simpa using lt_of_le_of_lt hle (not_le.mp hlt)
    have hrest : (s.drop (k + 1)).countP (v ≤ ·) ≤ (s.drop (k + 1)).length :=
      countP_le_length
    have hsplit' : s.countP (v ≤ ·) = (s.take (k + 1)).countP (v ≤ ·) +
        (s.drop (k + 1)).countP (v ≤ ·) := by
      rw [← countP_append, take_append_drop]
    rw [length_drop] at hrest
    omega

variable {times : List ℤ}

theorem le_medianOf_iff (hne : times ≠ []) (v : ℤ) : v ≤ medianOf times ↔
    times.length ≤ times.length / 2 + times.countP (v ≤ ·) := by
  have hpos := length_pos_iff.mpr hne
  have hperm := perm_insertionSort (· ≤ ·) times
  have hk : times.length / 2 < (times.insertionSort (· ≤ ·)).length := by
    rw [hperm.length_eq]
    omega
  rw [medianOf, getD_eq_getElem?_getD, getElem?_eq_getElem hk, Option.getD_some,
    le_getElem_iff_countP (pairwise_insertionSort (· ≤ ·) times) hk,
    hperm.countP_eq, hperm.length_eq]

theorem medianOf_le_cons {span : ℕ} {time : ℤ} (hne : times ≠ []) (hlength : times.length ≤ span)
    (htime : medianOf times < time) :
    medianOf times ≤ medianOf (time :: times.take (span - 1)) := by
  set v := medianOf times with hv
  have hcount := (le_medianOf_iff hne v).mp le_rfl
  rw [le_medianOf_iff (cons_ne_nil _ _), countP_cons_of_pos (by simpa using htime.le)]
  have hsplit : times.countP (v ≤ ·) = (times.take (span - 1)).countP (v ≤ ·) +
      (times.drop (span - 1)).countP (v ≤ ·) := by
    rw [← countP_append, take_append_drop]
  have hrest : (times.drop (span - 1)).countP (v ≤ ·) ≤
      (times.drop (span - 1)).length := countP_le_length
  rw [length_drop] at hrest
  rw [length_cons, length_take]
  omega

namespace ChainEntries

variable {ι : Type} {m : ChainEntries ι}

theorem blockTimes_eq_take (count : ℕ) : ∀ pindex, m.blockTimes count pindex =
    (m.blockTimes (count + 1) pindex).take count := by
  induction count with
  | zero =>
    intro pindex
    cases pindex <;> rfl
  | succ count ih =>
    intro pindex
    cases pindex with
    | none => rfl
    | some b =>
      rw [blockTimes, blockTimes, take_succ_cons, ← ih]

theorem length_blockTimes_le (count : ℕ) :
    ∀ pindex, (m.blockTimes count pindex).length ≤ count := by
  induction count with
  | zero =>
    intro pindex
    cases pindex <;> exact le_rfl
  | succ count ih =>
    intro pindex
    cases pindex with
    | none => exact Nat.zero_le _
    | some b => exact Nat.succ_le_succ (ih _)

theorem getMedianTimePast_le {b p : ι} (hprev : m.pprev b = some p)
    (htime : m.getMedianTimePast p < (m.nTime b).toNat) :
    m.getMedianTimePast p ≤ m.getMedianTimePast b := by
  have hwindow : m.blockTimes nMedianTimeSpan (some b) = ((m.nTime b).toNat : ℤ) ::
        (m.blockTimes nMedianTimeSpan (some p)).take (nMedianTimeSpan - 1) := by
    rw [nMedianTimeSpan, blockTimes, hprev, blockTimes_eq_take]
  rw [getMedianTimePast, getMedianTimePast, hwindow]
  exact medianOf_le_cons (by simp [nMedianTimeSpan, blockTimes]) (length_blockTimes_le _ _) htime

end ChainEntries

namespace BlockChains

variable {ι : Type} {m : BlockChains ι}

theorem getMedianTimePast_mono (htime : ∀ b p, m.pprev b = some p →
    m.getMedianTimePast p < (m.nTime b).toNat) {a b : ι}
    (ha : m.tree.ancestor b height = some a) : m.getMedianTimePast a ≤ m.getMedianTimePast b := by
  obtain ⟨-, hle⟩ := height_of_ancestor ha
  rw [ancestor, if_pos hle] at ha
  generalize m.tree.height b - height = steps at ha
  induction steps generalizing a with
  | zero =>
    obtain rfl : b = a := Option.some.inj ha
    exact le_rfl
  | succ steps ih =>
    obtain ⟨c, hc, hparent⟩ := Option.bind_eq_some_iff.mp ha
    exact (getMedianTimePast_le hparent (htime c a hparent)).trans (ih hc)

end BlockChains
end ImageCoin
