import ImageCoin.MapEntries
import ImageCoin.Transaction

/-!
# PrivateSend rounds

How often an output of the wallet was mixed.
-/

namespace ImageCoin.PrivateSend

open MapEntries List Option
variable {wtx' : CTransaction} {m : ℤ} {n : ℕ}

def collateralAmount : CAmount := 100000

def maxCollateralAmount : CAmount := collateralAmount * 4

variable (nInputAmount : CAmount)

def isCollateralAmount : Bool :=
  nInputAmount > collateralAmount && nInputAmount ≤ maxCollateralAmount &&
    nInputAmount % collateralAmount == 0

def vecStandardDenominations : List CAmount := [1000010000, 100001000, 10000100, 1000010]

def isDenominatedAmount : Bool :=
  vecStandardDenominations.any (nInputAmount == ·)

structure CWallet where
  mapWallet : Map UInt256 CTransaction
  /-- `IsMine` of an output -/
  isMineTxOut : CTxOut → Bool

def unknownRounds : ℤ := -10

abbrev DenomWtxes := Map UInt256 (List ℤ)

namespace CWallet

variable (w : CWallet)

def isMine (txin : CTxIn) : Bool :=
  match w.mapWallet.lookup txin.prevout.hash with
  | some prev => (prev.vout[txin.prevout.n.toNat]?).any w.isMineTxOut
  | none => false

end CWallet

def allDenoms (wtx : CTransaction) : Bool :=
  wtx.vout.all fun out => isDenominatedAmount out.nValue

def DenomWtxes.setRounds (mDenomWtxes : DenomWtxes) (outpoint : COutPoint) (nRounds : ℤ) :
    DenomWtxes :=
  adjust mDenomWtxes outpoint.hash fun rounds => rounds.set outpoint.n.toNat nRounds

/-- The shortest chain so far, whether one was found, and the cache. -/
structure Shortest where
  nShortest : ℤ := unknownRounds
  fDenomFound : Bool := false
  mDenomWtxes : DenomWtxes

def Shortest.nRounds (s : Shortest) : ℤ :=
  if s.fDenomFound then if 15 ≤ s.nShortest then 16 else s.nShortest + 1 else 0

def Shortest.next (s : Shortest) (r : ℤ × DenomWtxes) : Shortest :=
  if 0 ≤ r.1 ∧ (r.1 < s.nShortest ∨ s.nShortest = unknownRounds) then ⟨r.1, true, r.2⟩
  else { s with mDenomWtxes := r.2 }

/-- The cached value, if it is known; `pastEnd` is what lies behind the outputs. -/
def DenomWtxes.known (mDenomWtxes : DenomWtxes) (pastEnd : ℤ) (outpoint : COutPoint) : Option ℤ :=
  (mDenomWtxes.lookup outpoint.hash).bind fun rounds =>
    let nRounds := (rounds[outpoint.n.toNat]?).getD pastEnd
    if nRounds ≠ unknownRounds then some nRounds else none

variable (w : CWallet)

def shortestOf (ask : COutPoint → DenomWtxes → ℤ × DenomWtxes)
    (vin : List CTxIn) (mDenomWtxes : DenomWtxes) : Shortest :=
  vin.foldl (fun s txin =>
    if w.isMine txin then s.next (ask txin.prevout s.mDenomWtxes) else s)
    { mDenomWtxes := mDenomWtxes }

def outputRounds (ask : COutPoint → DenomWtxes → ℤ × DenomWtxes)
    (wtx : CTransaction) (out : CTxOut) (mDenomWtxes : DenomWtxes) : ℤ × DenomWtxes :=
  if isCollateralAmount out.nValue then (-3, mDenomWtxes)
  else if !isDenominatedAmount out.nValue then (-2, mDenomWtxes)
  else if !allDenoms wtx then (0, mDenomWtxes)
  else
    let s := shortestOf w ask wtx.vin mDenomWtxes
    (s.nRounds, s.mDenomWtxes)

/-- `GetRealOutpointPrivateSendRounds` where `nRounds` is `left` steps from 16. -/
def realRounds (w : CWallet) (pastEnd : ℤ) : ℕ → COutPoint → DenomWtxes → ℤ × DenomWtxes
  | 0, _, mDenomWtxes => (15, mDenomWtxes)
  | left + 1, outpoint, mDenomWtxes =>
    match w.mapWallet.lookup outpoint.hash with
    | none => (15 - left - 1, mDenomWtxes)
    | some wtx =>
      match mDenomWtxes.known pastEnd outpoint with
      | some nRounds => (nRounds, mDenomWtxes)
      | none =>
        let mDenomWtxes := insertNew mDenomWtxes outpoint.hash
          (replicate wtx.vout.length unknownRounds)
        match wtx.vout[outpoint.n.toNat]? with
        | none => (-4, mDenomWtxes)
        | some out =>
          let r := outputRounds w (realRounds w pastEnd left) wtx out mDenomWtxes
          (r.1, DenomWtxes.setRounds r.2 outpoint r.1)

def getRealOutpointPrivateSendRounds (pastEnd : ℤ) (outpoint : COutPoint)
    (mDenomWtxes : DenomWtxes) : ℤ × DenomWtxes :=
  realRounds w pastEnd 16 outpoint mDenomWtxes

def getOutpointPrivateSendRounds (pastEnd nPrivateSendRounds : ℤ)
    (outpoint : COutPoint) (mDenomWtxes : DenomWtxes) : ℤ × DenomWtxes :=
  let r := getRealOutpointPrivateSendRounds w pastEnd outpoint mDenomWtxes
  (if r.1 > nPrivateSendRounds then nPrivateSendRounds else r.1, r.2)

def cacheAfter (pastEnd : ℤ) (outpoints : List COutPoint) : DenomWtxes :=
  outpoints.foldl (fun mDenomWtxes outpoint =>
    (getRealOutpointPrivateSendRounds w pastEnd outpoint mDenomWtxes).2) ∅

/-! ## Mixing chains -/

/-- An output of the wallet that counts as mixed. -/
structure Denominated (w : CWallet) (outpoint : COutPoint) (wtx : CTransaction) : Prop where
  lookup : w.mapWallet.lookup outpoint.hash = some wtx
  out : ∃ out, wtx.vout[outpoint.n.toNat]? = some out ∧ isCollateralAmount out.nValue = false ∧
    isDenominatedAmount out.nValue

/-- The own input `prevout` of the transaction of `outpoint`, which has only denominated
outputs. -/
structure OwnInput (w : CWallet) (outpoint prevout : COutPoint) (wtx : CTransaction) : Prop where
  denominated : Denominated w outpoint wtx
  allDenoms : allDenoms wtx
  input : ∃ txin ∈ wtx.vin, w.isMine txin ∧ txin.prevout = prevout

/-- The lengths of the own mixing chains of an output.  A chain starts where the
transaction has another kind of output, or no own denominated input. -/
inductive MixingChain (w : CWallet) : COutPoint → ℕ → Prop
  | first {outpoint : COutPoint} {wtx : CTransaction} : Denominated w outpoint wtx →
      (∀ prevout wtx', OwnInput w outpoint prevout wtx → ¬Denominated w prevout wtx') →
      MixingChain w outpoint 0
  | next {outpoint prevout : COutPoint} {wtx : CTransaction} {n : ℕ} :
      OwnInput w outpoint prevout wtx → MixingChain w prevout n →
      MixingChain w outpoint (n + 1)

/-- The length of the shortest chain of mixing transactions, which the source cuts off at 16. -/
def IsRounds (outpoint : COutPoint) (nRounds : ℤ) : Prop :=
  ∃ n, IsLeast { n | MixingChain w outpoint n } n ∧ nRounds = min n 16

/-- `k` own inputs back. -/
inductive Back (w : CWallet) : ℕ → COutPoint → COutPoint → Prop
  | refl (outpoint : COutPoint) : Back w 0 outpoint outpoint
  | step {k : ℕ} {outpoint prevout ancestor : COutPoint} {wtx : CTransaction} :
      OwnInput w outpoint prevout wtx → Back w k prevout ancestor →
      Back w (k + 1) outpoint ancestor

/-- Where `left` steps are left to the limit, an output that has own inputs has only
chains that are too long to count. -/
def CutOff (left : ℕ) (outpoint : COutPoint) : Prop :=
  ∀ k ancestor prevout wtx, k + 1 = left → Back w k outpoint ancestor →
    OwnInput w ancestor prevout wtx → ∀ n, MixingChain w ancestor n → 16 ≤ n

/-- No transaction of the wallet spends from itself through others. -/
def Acyclic : Prop :=
  ∃ rank : UInt256 → ℕ, ∀ hash wtx, w.mapWallet.lookup hash = some wtx →
    ∀ txin ∈ wtx.vin, rank txin.prevout.hash < rank hash

section
variable {w : CWallet} {outpoint prevout : COutPoint} {wtx : CTransaction} {n : ℕ}

theorem Denominated.eq (h : Denominated w outpoint wtx)
    (h' : Denominated w outpoint wtx') : wtx = wtx' :=
  some.inj (h.lookup.symm.trans h'.lookup)

theorem MixingChain.denominated (h : MixingChain w outpoint n) :
    ∃ wtx, Denominated w outpoint wtx := by
  cases h with
  | first hdenominated _ => exact ⟨_, hdenominated⟩
  | next hinput _ => exact ⟨_, hinput.denominated⟩

theorem Acyclic.exists_chain (hacyclic : Acyclic w) (h : Denominated w outpoint wtx) :
    ∃ n, MixingChain w outpoint n := by
  obtain ⟨rank, hrank⟩ := hacyclic
  induction hr : rank outpoint.hash using Nat.strong_induction_on generalizing outpoint wtx with
  | h r ih =>
    by_cases hinput : ∃ prevout wtx', OwnInput w outpoint prevout wtx ∧ Denominated w prevout wtx'
    · obtain ⟨prevout, wtx', hown, hprev⟩ := hinput
      obtain ⟨txin, htxin, _, rfl⟩ := hown.input
      obtain ⟨n, hn⟩ := ih _ (hr ▸ hrank _ _ h.lookup txin htxin) hprev rfl
      exact ⟨n + 1, .next hown hn⟩
    · push Not at hinput
      exact ⟨0, .first h hinput⟩

theorem MixingChain.exists_least (h : MixingChain w outpoint n) :
    ∃ m, IsLeast { n | MixingChain w outpoint n } m := by
  classical
  have hchain : ∃ n, MixingChain w outpoint n := ⟨n, h⟩
  exact ⟨Nat.find hchain, Nat.find_spec hchain, fun m hm => Nat.find_min' hchain hm⟩

theorem isRounds_zero (h : Denominated w outpoint wtx)
    (hnone : ∀ prevout wtx', OwnInput w outpoint prevout wtx → ¬Denominated w prevout wtx') :
    IsRounds w outpoint 0 :=
  ⟨0, ⟨.first h hnone, fun _ _ => Nat.zero_le _⟩, rfl⟩

theorem isRounds_next (hinput : OwnInput w outpoint prevout wtx) (hm : IsRounds w prevout m)
    (hleast : ∀ prevout' m', OwnInput w outpoint prevout' wtx → IsRounds w prevout' m' → m ≤ m') :
    IsRounds w outpoint (if 15 ≤ m then 16 else m + 1) := by
  obtain ⟨k, ⟨hk, _⟩, rfl⟩ := hm
  obtain ⟨least, hchain, hmin⟩ := (MixingChain.next hinput hk).exists_least
  have hle : least ≤ k + 1 := hmin (.next hinput hk)
  refine ⟨least, ⟨hchain, hmin⟩, ?_⟩
  cases hchain with
  | first hdenominated hnone =>
    obtain ⟨wtx', hprev⟩ := MixingChain.denominated hk
    obtain rfl := hdenominated.eq hinput.denominated
    exact absurd hprev (hnone _ _ hinput)
  | next hinput' hk' =>
    obtain rfl := hinput'.denominated.eq hinput.denominated
    obtain ⟨k', hk', hmin'⟩ := MixingChain.exists_least hk'
    have hle' := hleast _ _ hinput' ⟨k', ⟨hk', hmin'⟩, rfl⟩
    rename_i k'' hk''
    have hk'' : k' ≤ k'' := hmin' hk''
    split
    · omega
    · omega

theorem isRounds_sixteen (hacyclic : Acyclic w) (h : Denominated w outpoint wtx)
    (hlong : ∀ n, MixingChain w outpoint n → 16 ≤ n) : IsRounds w outpoint 16 := by
  obtain ⟨n, hn⟩ := hacyclic.exists_chain h
  obtain ⟨m, hm, hmin⟩ := hn.exists_least
  have hle : 16 ≤ m := hlong m hm
  exact ⟨m, ⟨hm, hmin⟩, by omega⟩

end

/-- The value of an output of the wallet: its rounds if it is denominated, and a negative
number otherwise. -/
structure Right (w : CWallet) (outpoint : COutPoint) (nRounds : ℤ) : Prop where
  denominated : ∀ wtx, Denominated w outpoint wtx → IsRounds w outpoint nRounds
  other : (∀ wtx, ¬Denominated w outpoint wtx) → nRounds < 0

/-- Every number of rounds in the static map is the right one. -/
def CacheRight (w : CWallet) (mDenomWtxes : DenomWtxes) : Prop :=
  ∀ hash rounds, mDenomWtxes.lookup hash = some rounds →
    (∃ wtx, w.mapWallet.lookup hash = some wtx ∧ rounds.length = wtx.vout.length) ∧
    ∀ n nRounds, rounds[n.toNat]? = some nRounds → nRounds ≠ unknownRounds →
      Right w ⟨hash, n⟩ nRounds

section
variable {w : CWallet} {mDenomWtxes : DenomWtxes} {outpoint : COutPoint} {wtx : CTransaction}
  {out : CTxOut} {nRounds pastEnd : ℤ} (h : CacheRight w mDenomWtxes)
include h

theorem CacheRight.insertNew (hwtx : w.mapWallet.lookup outpoint.hash = some wtx) :
    CacheRight w (insertNew mDenomWtxes outpoint.hash
      (replicate wtx.vout.length unknownRounds)) := by
  intro hash rounds hlookup
  rw [lookup_insertNew] at hlookup
  split at hlookup
  next heq =>
    subst heq
    cases hold : mDenomWtxes.lookup outpoint.hash with
    | some rounds' =>
      rw [hold] at hlookup
      exact h _ _ (hold.trans hlookup)
    | none =>
      rw [hold] at hlookup
      obtain rfl := some.inj hlookup
      refine ⟨⟨wtx, hwtx, length_replicate⟩, fun n r hr hne => absurd ?_ hne⟩
      exact (mem_replicate.mp (mem_of_getElem? hr)).2
  next => exact h hash rounds hlookup

theorem CacheRight.setRounds (hright : Right w outpoint nRounds) :
    CacheRight w (mDenomWtxes.setRounds outpoint nRounds) := by
  intro hash rounds hlookup
  rw [DenomWtxes.setRounds, lookup_adjust] at hlookup
  split at hlookup
  next heq =>
    obtain ⟨rounds', hlookup', rfl⟩ := map_eq_some_iff.mp hlookup
    obtain ⟨hwtx, hknown⟩ := h _ _ hlookup'
    subst heq
    refine ⟨by simpa using hwtx, fun n r hr hne => ?_⟩
    rw [getElem?_set] at hr
    split at hr
    next hn =>
      have hsame : n = outpoint.n := UInt32.toNat_inj.mp hn.symm
      split at hr
      · obtain rfl := some.inj hr
        exact hsame ▸ hright
      · exact nomatch hr
    next => exact hknown n r hr hne
  next => exact h hash rounds hlookup

theorem CacheRight.known (hwtx : w.mapWallet.lookup outpoint.hash = some wtx)
    (hout : wtx.vout[outpoint.n.toNat]? = some out)
    (hknown : mDenomWtxes.known pastEnd outpoint = some nRounds) : Right w outpoint nRounds := by
  obtain ⟨rounds, hlookup, hrounds⟩ := bind_eq_some_iff.mp hknown
  obtain ⟨⟨wtx', hwtx', hlength⟩, hright⟩ := h _ _ hlookup
  obtain rfl := some.inj (hwtx.symm.trans hwtx')
  have hlt : outpoint.n.toNat < rounds.length :=
    hlength ▸ (List.getElem?_eq_some_iff.mp hout).1
  rw [List.getElem?_eq_getElem hlt] at hrounds
  dsimp only at hrounds
  split at hrounds
  next hne =>
    obtain rfl := some.inj hrounds
    exact hright outpoint.n _ (List.getElem?_eq_getElem hlt) hne
  next => exact nomatch hrounds

end

/-- What the loop knows after the inputs `vin`. -/
structure Sifted (w : CWallet) (vin : List CTxIn) (s : Shortest) : Prop where
  cache : CacheRight w s.mDenomWtxes
  none : s.fDenomFound = false → s.nShortest = unknownRounds ∧
    ∀ txin ∈ vin, w.isMine txin → ∀ wtx, ¬Denominated w txin.prevout wtx
  found : s.fDenomFound → (∃ txin ∈ vin, w.isMine txin ∧ IsRounds w txin.prevout s.nShortest) ∧
    ∀ txin ∈ vin, w.isMine txin → ∀ m, IsRounds w txin.prevout m → s.nShortest ≤ m

section
variable {w : CWallet} {outpoint : COutPoint} {wtx : CTransaction} {vin : List CTxIn}
  {txin : CTxIn} {s : Shortest} {r : ℤ × DenomWtxes}
  {ask : COutPoint → DenomWtxes → ℤ × DenomWtxes} {mDenomWtxes : DenomWtxes}

theorem IsRounds.nonneg (h : IsRounds w outpoint m) : 0 ≤ m := by
  obtain ⟨n, _, rfl⟩ := h
  omega

theorem IsRounds.unique {m' : ℤ} (h : IsRounds w outpoint m) (h' : IsRounds w outpoint m') :
    m = m' := by
  obtain ⟨n, hn, rfl⟩ := h
  obtain ⟨n', hn', rfl⟩ := h'
  rw [hn.unique hn']

theorem IsRounds.denominated (h : IsRounds w outpoint m) : ∃ wtx, Denominated w outpoint wtx := by
  obtain ⟨n, hn, _⟩ := h
  exact hn.1.denominated

theorem Sifted.skip (h : Sifted w vin s) (hmine : w.isMine txin = false) :
    Sifted w (vin ++ [txin]) s := by
  have hmem : ∀ txin' ∈ vin ++ [txin], w.isMine txin' → txin' ∈ vin := by
    intro txin' hmem hmine'
    rcases mem_append.mp hmem with hmem | hmem
    · exact hmem
    · rw [mem_singleton.mp hmem, hmine] at hmine'
      exact nomatch hmine'
  refine ⟨h.cache, fun hnone => ⟨(h.none hnone).1, fun txin' hin hmine' =>
    (h.none hnone).2 txin' (hmem txin' hin hmine') hmine'⟩, fun hfound => ?_⟩
  obtain ⟨⟨txin', hin, hrounds⟩, hleast⟩ := h.found hfound
  exact ⟨⟨txin', mem_append_left _ hin, hrounds⟩, fun txin' hin hmine' =>
    hleast txin' (hmem txin' hin hmine') hmine'⟩

theorem Sifted.next (h : Sifted w vin s) (hmine : w.isMine txin) (hcache : CacheRight w r.2)
    (hright : Right w txin.prevout r.1) : Sifted w (vin ++ [txin]) (s.next r) := by
  unfold Shortest.next
  split
  next hless =>
    have hrounds : IsRounds w txin.prevout r.1 := by
      by_contra hnot
      have := hright.other fun wtx hwtx => hnot (hright.denominated wtx hwtx)
      omega
    refine ⟨hcache, (fun hnone => nomatch hnone), fun _ =>
      ⟨⟨txin, mem_append_right _ (mem_singleton_self _), hmine, hrounds⟩, ?_⟩⟩
    intro txin' hin hmine' m hm
    rcases mem_append.mp hin with hin | hin
    · cases hfound : s.fDenomFound with
      | true =>
        obtain ⟨⟨txin₀, _, _, hs⟩, hleast⟩ := h.found hfound
        have hle := hleast txin' hin hmine' m hm
        have hnonneg := hs.nonneg
        have : unknownRounds < 0 := by decide
        show r.1 ≤ m
        omega
      | false =>
        obtain ⟨wtx, hwtx⟩ := hm.denominated
        exact absurd hwtx ((h.none hfound).2 txin' hin hmine' wtx)
    · rw [mem_singleton.mp hin] at hm
      exact (hrounds.unique hm).le
  next hless =>
    refine ⟨hcache, fun hnone => ⟨(h.none hnone).1, ?_⟩, fun hfound => ?_⟩
    · intro txin' hin hmine' wtx hwtx
      rcases mem_append.mp hin with hin | hin
      · exact (h.none hnone).2 txin' hin hmine' wtx hwtx
      · rw [mem_singleton.mp hin] at hwtx
        exact hless ⟨(hright.denominated wtx hwtx).nonneg, .inr (h.none hnone).1⟩
    · obtain ⟨⟨txin₀, hin₀, hrounds⟩, hleast⟩ := h.found hfound
      refine ⟨⟨txin₀, mem_append_left _ hin₀, hrounds⟩, ?_⟩
      intro txin' hin hmine' m hm
      rcases mem_append.mp hin with hin | hin
      · exact hleast txin' hin hmine' m hm
      · rw [mem_singleton.mp hin] at hm
        obtain ⟨wtx, hwtx⟩ := hm.denominated
        obtain rfl := hm.unique (hright.denominated wtx hwtx)
        have := hm.nonneg
        show s.nShortest ≤ r.1
        omega

theorem sifted_shortestOf (hcache : CacheRight w mDenomWtxes)
    (hask : ∀ txin ∈ vin, w.isMine txin → ∀ mDenomWtxes, CacheRight w mDenomWtxes →
      CacheRight w (ask txin.prevout mDenomWtxes).2 ∧
        Right w txin.prevout (ask txin.prevout mDenomWtxes).1) :
    Sifted w vin (shortestOf w ask vin mDenomWtxes) := by
  induction vin using reverseRecOn with
  | nil => exact ⟨hcache, fun _ => ⟨rfl, by simp⟩, fun h => nomatch h⟩
  | append_singleton vin txin ih =>
    have hvin := ih fun txin' hin => hask txin' (mem_append_left _ hin)
    rw [shortestOf, foldl_concat]
    split
    next hmine =>
      obtain ⟨hcache', hright⟩ := hask txin (by simp) hmine _ hvin.cache
      exact hvin.next hmine hcache' hright
    next hmine => exact hvin.skip (by simpa using hmine)

theorem Sifted.isRounds (h : Sifted w wtx.vin s) (hwtx : Denominated w outpoint wtx)
    (hall : allDenoms wtx) : IsRounds w outpoint s.nRounds := by
  unfold Shortest.nRounds
  cases hfound : s.fDenomFound with
  | false =>
    refine isRounds_zero hwtx fun prevout wtx' hinput => ?_
    obtain ⟨txin, hin, hmine, rfl⟩ := hinput.input
    exact (h.none hfound).2 txin hin hmine wtx'
  | true =>
    obtain ⟨⟨txin, hin, hmine, hrounds⟩, hleast⟩ := h.found hfound
    refine isRounds_next ⟨hwtx, hall, txin, hin, hmine, rfl⟩ hrounds fun prevout m hinput hm => ?_
    obtain ⟨txin', hin', hmine', rfl⟩ := hinput.input
    exact hleast txin' hin' hmine' m hm

end

/-! ## The recursion -/

section
variable {w : CWallet} {outpoint : COutPoint} {wtx : CTransaction} {out : CTxOut} {left : ℕ}
  {ask : COutPoint → DenomWtxes → ℤ × DenomWtxes} {mDenomWtxes : DenomWtxes} {pastEnd : ℤ}

section
variable (hlookup : w.mapWallet.lookup outpoint.hash = some wtx)
include hlookup

theorem denominated_iff (hout : wtx.vout[outpoint.n.toNat]? = some out) :
    Denominated w outpoint wtx' ↔ wtx' = wtx ∧ isCollateralAmount out.nValue = false ∧
      isDenominatedAmount out.nValue := by
  constructor
  · rintro ⟨hlookup', out', hout', hamount⟩
    obtain rfl := some.inj (hlookup'.symm.trans hlookup)
    obtain rfl := some.inj (hout'.symm.trans hout)
    exact ⟨rfl, hamount⟩
  · rintro ⟨rfl, hamount⟩
    exact ⟨hlookup, out, hout, hamount⟩

theorem outputRounds_right (hout : wtx.vout[outpoint.n.toNat]? = some out)
    (hcache : CacheRight w mDenomWtxes) (hloop : Denominated w outpoint wtx → allDenoms wtx →
    CacheRight w (shortestOf w ask wtx.vin mDenomWtxes).mDenomWtxes ∧
    IsRounds w outpoint (shortestOf w ask wtx.vin mDenomWtxes).nRounds) :
    CacheRight w (outputRounds w ask wtx out mDenomWtxes).2 ∧
      Right w outpoint (outputRounds w ask wtx out mDenomWtxes).1 := by
  have hiff : ∀ wtx', Denominated w outpoint wtx' ↔ _ := fun _ => denominated_iff hlookup hout
  unfold outputRounds
  split
  next hcollateral =>
    exact ⟨hcache, fun wtx' h => by simp [hiff, hcollateral] at h, fun _ => by norm_num⟩
  split
  next hdenominated =>
    exact ⟨hcache, fun wtx' h => by simp_all, fun _ => by norm_num⟩
  have hwtx : Denominated w outpoint wtx := (hiff wtx).mpr ⟨rfl, by simp_all⟩
  split
  next hall =>
    have hzero : IsRounds w outpoint 0 :=
      isRounds_zero hwtx fun prevout wtx' hinput => by simp [hinput.allDenoms] at hall
    exact ⟨hcache, fun _ _ => hzero, fun hnone => absurd hwtx (hnone wtx)⟩
  next hall =>
    obtain ⟨hcache', hrounds⟩ := hloop hwtx (by simpa using hall)
    exact ⟨hcache', fun _ _ => hrounds, fun hnone => absurd hwtx (hnone wtx)⟩

end

theorem CutOff.prev {prevout : COutPoint} (h : CutOff w (left + 1) outpoint)
    (hinput : OwnInput w outpoint prevout wtx) : CutOff w left prevout :=
  fun k ancestor prevout' wtx' hk hback =>
    h (k + 1) ancestor prevout' wtx' (by omega) (.step hinput hback)

theorem shortestOf_limit {vin : List CTxIn} :
    shortestOf w (realRounds w pastEnd 0) vin mDenomWtxes =
      if vin.any w.isMine then ⟨15, true, mDenomWtxes⟩ else { mDenomWtxes := mDenomWtxes } := by
  induction vin using reverseRecOn with
  | nil => rfl
  | append_singleton vin txin ih =>
    rw [shortestOf] at ih ⊢
    rw [foldl_concat, ih, any_append, any_cons, any_nil]
    cases vin.any w.isMine <;> cases w.isMine txin <;> rfl

section
variable (hacyclic : Acyclic w)
include hacyclic

theorem CutOff.isRounds_limit (h : CutOff w 1 outpoint)
    (hwtx : Denominated w outpoint wtx) (hall : allDenoms wtx) :
    IsRounds w outpoint (shortestOf w (realRounds w pastEnd 0) wtx.vin mDenomWtxes).nRounds := by
  rw [shortestOf_limit]
  split
  next hany =>
    obtain ⟨txin, hin, hmine⟩ := any_eq_true.mp hany
    exact isRounds_sixteen hacyclic hwtx
      (h 0 outpoint txin.prevout wtx rfl (.refl _) ⟨hwtx, hall, txin, hin, hmine, rfl⟩)
  next hany =>
    refine isRounds_zero hwtx fun prevout wtx' hinput => ?_
    obtain ⟨txin, hin, hmine, rfl⟩ := hinput.input
    exact absurd (any_eq_true.mpr ⟨txin, hin, hmine⟩) hany

omit hacyclic in
theorem isMine_inRange {txin : CTxIn} (h : w.isMine txin) :
    ∃ wtx out, w.mapWallet.lookup txin.prevout.hash = some wtx ∧
      wtx.vout[txin.prevout.n.toNat]? = some out := by
  unfold CWallet.isMine at h
  split at h
  next prev hprev =>
    cases hout : prev.vout[txin.prevout.n.toNat]? with
    | none => simp [hout] at h
    | some out => exact ⟨prev, out, hprev, hout⟩
  next => exact nomatch h

theorem realRounds_loop (hcut : CutOff w (left + 1) outpoint) (hcache : CacheRight w mDenomWtxes)
    (ih : ∀ {outpoint mDenomWtxes}, left ≠ 0 → CutOff w left outpoint → CacheRight w mDenomWtxes →
    CacheRight w (realRounds w pastEnd left outpoint mDenomWtxes).2 ∧
    ∀ wtx out, w.mapWallet.lookup outpoint.hash = some wtx →
    wtx.vout[outpoint.n.toNat]? = some out →
    Right w outpoint (realRounds w pastEnd left outpoint mDenomWtxes).1)
    (hwtx : Denominated w outpoint wtx) (hall : allDenoms wtx) :
    CacheRight w (shortestOf w (realRounds w pastEnd left) wtx.vin mDenomWtxes).mDenomWtxes ∧
      IsRounds w outpoint
        (shortestOf w (realRounds w pastEnd left) wtx.vin mDenomWtxes).nRounds := by
  cases left with
  | zero =>
    refine ⟨?_, hcut.isRounds_limit hacyclic hwtx hall⟩
    rw [shortestOf_limit]
    split <;> exact hcache
  | succ left =>
    have hsifted : Sifted w wtx.vin
        (shortestOf w (realRounds w pastEnd (left + 1)) wtx.vin mDenomWtxes) := by
      refine sifted_shortestOf hcache fun txin hin hmine mDenomWtxes hcache => ?_
      have hinput : OwnInput w outpoint txin.prevout wtx := ⟨hwtx, hall, txin, hin, hmine, rfl⟩
      obtain ⟨prev, out, hprev, hout⟩ := isMine_inRange hmine
      obtain ⟨hcache', hright⟩ := ih (Nat.succ_ne_zero left) (hcut.prev hinput) hcache
      exact ⟨hcache', hright prev out hprev hout⟩
    exact ⟨hsifted.cache, hsifted.isRounds hwtx hall⟩

variable (pastEnd) in
theorem realRounds_right (hleft : left ≠ 0)
    (hcut : CutOff w left outpoint) (hcache : CacheRight w mDenomWtxes) :
    CacheRight w (realRounds w pastEnd left outpoint mDenomWtxes).2 ∧
      ∀ wtx out, w.mapWallet.lookup outpoint.hash = some wtx →
        wtx.vout[outpoint.n.toNat]? = some out →
        Right w outpoint (realRounds w pastEnd left outpoint mDenomWtxes).1 := by
  induction left generalizing outpoint mDenomWtxes with
  | zero => exact absurd rfl hleft
  | succ left ih =>
    unfold realRounds
    split
    next hnone => exact ⟨hcache, fun wtx out hlookup => by simp [hnone] at hlookup⟩
    next wtx hlookup =>
      split
      next nRounds hknown =>
        refine ⟨hcache, fun wtx' out hlookup' hout => ?_⟩
        exact hcache.known hlookup' hout hknown
      next =>
        have hcache' := hcache.insertNew hlookup
        split
        next hnone =>
          refine ⟨hcache', fun wtx' out hlookup' hout => ?_⟩
          obtain rfl := some.inj (hlookup.symm.trans hlookup')
          exact nomatch hnone.symm.trans hout
        next out hout =>
          obtain ⟨hcache'', hright⟩ := outputRounds_right hlookup hout hcache'
            (realRounds_loop hacyclic hcut hcache' @ih)
          exact ⟨hcache''.setRounds hright, fun _ _ _ _ => hright⟩

variable (pastEnd) in
theorem cacheRight_cacheAfter (outpoints : List COutPoint)
    (hqueries : ∀ outpoint ∈ outpoints, CutOff w 16 outpoint) :
    CacheRight w (cacheAfter w pastEnd outpoints) := by
  induction outpoints using reverseRecOn with
  | nil => exact fun hash rounds hlookup => by simp [cacheAfter] at hlookup
  | append_singleton outpoints outpoint ih =>
    have hcache := ih fun o ho => hqueries o (mem_append_left _ ho)
    rw [cacheAfter, foldl_concat]
    exact (realRounds_right pastEnd hacyclic (by decide) (hqueries outpoint (by simp)) hcache).1

end

/-- Where no query comes to the limit at an output that is less than 16 rounds deep, each
answer is the length of the shortest own mixing chain, whatever was asked before. -/
theorem getRealOutpointPrivateSendRounds_isRounds (w : CWallet) (pastEnd : ℤ)
    (outpoints : List COutPoint) (outpoint : COutPoint) (wtx : CTransaction) (hacyclic : Acyclic w)
    (hqueries : ∀ o ∈ outpoint :: outpoints, CutOff w 16 o) (hwtx : Denominated w outpoint wtx) :
    IsRounds w outpoint (getRealOutpointPrivateSendRounds w pastEnd outpoint
          (cacheAfter w pastEnd outpoints)).1 ∧
      (getRealOutpointPrivateSendRounds w pastEnd outpoint (cacheAfter w pastEnd outpoints)).1 =
        (getRealOutpointPrivateSendRounds w pastEnd outpoint ∅).1 := by
  obtain ⟨hcut, hearlier⟩ := List.forall_mem_cons.mp hqueries
  obtain ⟨out, hout, _⟩ := hwtx.out
  have hanswer : ∀ outpoints : List COutPoint, (∀ o ∈ outpoints, CutOff w 16 o) →
      IsRounds w outpoint (getRealOutpointPrivateSendRounds w pastEnd outpoint
        (cacheAfter w pastEnd outpoints)).1 := by
    intro outpoints hall
    have hcache := cacheRight_cacheAfter pastEnd hacyclic outpoints hall
    have hright := (realRounds_right pastEnd hacyclic (by decide) hcut hcache).2
    exact (hright wtx out hwtx.lookup hout).denominated wtx hwtx
  have hrounds := hanswer outpoints hearlier
  exact ⟨hrounds, hrounds.unique (hanswer [] (by simp))⟩

end

def mixedOutput (k : ℕ) : COutPoint := ⟨BitVec.ofNat 256 k, 0⟩

def mixingTx (k : ℕ) : CTransaction where
  nVersion := 1
  vin := [⟨mixedOutput (k - 1), [], 0⟩]
  vout := [{ nValue := 1000010, scriptPubKey := [], imgbase64 := [] }]
  nLockTime := 0
  hash := BitVec.ofNat 256 k

def mixingChain : ℕ → Map UInt256 CTransaction
  | 0 => ∅
  | k + 1 => (mixingChain k).insert (BitVec.ofNat 256 (k + 1)) (mixingTx (k + 1))

def mixingWallet (n : ℕ) : CWallet := ⟨mixingChain n, fun _ => true⟩

theorem mixingChain_lookup {hash : UInt256} {wtx : CTransaction}
    (h : (mixingChain n).lookup hash = some wtx) :
    ∃ k < n, hash = BitVec.ofNat 256 (k + 1) ∧ wtx = mixingTx (k + 1) := by
  induction n with
  | zero => simp [mixingChain] at h
  | succ n ih =>
    rw [mixingChain, lookup_insert_eq] at h
    split at h
    next heq => exact ⟨n, by omega, heq, (some.inj h).symm⟩
    next =>
      obtain ⟨k, hk, hrest⟩ := ih h
      exact ⟨k, by omega, hrest⟩

theorem mixingWallet_rank (hn : n < 2 ^ 256) :
    ∀ hash wtx, (mixingWallet n).mapWallet.lookup hash = some wtx →
      ∀ txin ∈ wtx.vin, txin.prevout.hash.toNat < hash.toNat := by
  intro hash wtx hlookup txin htxin
  obtain ⟨k, hk, rfl, rfl⟩ := mixingChain_lookup hlookup
  obtain rfl := mem_singleton.mp htxin
  simp only [mixedOutput, BitVec.toNat_ofNat]
  omega

theorem cutOff_of_rank {w : CWallet} {rank : UInt256 → ℕ} {left : ℕ} {outpoint : COutPoint}
    (hrank : ∀ hash wtx, w.mapWallet.lookup hash = some wtx →
      ∀ txin ∈ wtx.vin, rank txin.prevout.hash < rank hash)
    (hleft : rank outpoint.hash < left) : CutOff w left outpoint := by
  have hinput : ∀ {o prevout wtx}, OwnInput w o prevout wtx → rank prevout.hash < rank o.hash := by
    intro o prevout wtx hown
    obtain ⟨txin, hin, _, rfl⟩ := hown.input
    exact hrank _ _ hown.denominated.lookup txin hin
  have hback : ∀ {k o ancestor}, Back w k o ancestor → rank ancestor.hash + k ≤ rank o.hash := by
    intro k o ancestor hback
    induction hback with
    | refl => omega
    | step hown _ ih =>
      have := hinput hown
      omega
  intro k ancestor prevout wtx hk hanc hown
  have := hinput hown
  have := hback hanc
  omega

theorem mixingWallet_acyclic (hn : n < 2 ^ 256) : Acyclic (mixingWallet n) :=
  ⟨BitVec.toNat, mixingWallet_rank hn⟩

theorem mixed_after_four : IsRounds (mixingWallet 5) (mixedOutput 3)
        (getRealOutpointPrivateSendRounds (mixingWallet 5) 0 (mixedOutput 3)
          (cacheAfter (mixingWallet 5) 0 [mixedOutput 5])).1 ∧
      (getRealOutpointPrivateSendRounds (mixingWallet 5) 0 (mixedOutput 3)
          (cacheAfter (mixingWallet 5) 0 [mixedOutput 5])).1 =
        (getRealOutpointPrivateSendRounds (mixingWallet 5) 0 (mixedOutput 3) ∅).1 := by
  have hcut : ∀ k < 16, CutOff (mixingWallet 5) 16 (mixedOutput k) := by
    intro k hk
    refine cutOff_of_rank (mixingWallet_rank (by norm_num)) ?_
    simp only [mixedOutput, BitVec.toNat_ofNat]
    omega
  refine getRealOutpointPrivateSendRounds_isRounds _ 0 _ _ (mixingTx 3)
    (mixingWallet_acyclic (by norm_num)) ?_ ⟨by decide +kernel, _, rfl, by decide, by decide⟩
  simpa using ⟨hcut 3 (by decide), hcut 5 (by decide)⟩

/-- Once the seventeenth output is asked for, the second one counts as mixed 16 times. -/
theorem mixedOutput_overstated :
    Acyclic (mixingWallet 17) ∧ Denominated (mixingWallet 17) (mixedOutput 2) (mixingTx 2) ∧
      IsRounds (mixingWallet 17) (mixedOutput 2) 1 ∧
      (getRealOutpointPrivateSendRounds (mixingWallet 17) 0 (mixedOutput 2) ∅).1 = 1 ∧
      (getRealOutpointPrivateSendRounds (mixingWallet 17) 0 (mixedOutput 2)
        (cacheAfter (mixingWallet 17) 0 [mixedOutput 17])).1 = 16 ∧
      (getOutpointPrivateSendRounds (mixingWallet 17) 0 2 (mixedOutput 2)
        (cacheAfter (mixingWallet 17) 0 [mixedOutput 17])).1 = 2 := by
  have hacyclic : Acyclic (mixingWallet 17) := mixingWallet_acyclic (by norm_num)
  have hsecond : Denominated (mixingWallet 17) (mixedOutput 2) (mixingTx 2) :=
    ⟨by decide +kernel, _, rfl, by decide, by decide⟩
  have hcut : CutOff (mixingWallet 17) 16 (mixedOutput 2) :=
    cutOff_of_rank (mixingWallet_rank (by norm_num)) (by decide)
  have hright := (realRounds_right 0 hacyclic (by decide) hcut
    (cacheRight_cacheAfter 0 hacyclic [] (by simp))).2 _ _ hsecond.lookup rfl
  have hone : (getRealOutpointPrivateSendRounds (mixingWallet 17) 0 (mixedOutput 2) ∅).1 = 1 := by
    decide +kernel
  refine ⟨hacyclic, hsecond, ?_, hone, by decide +kernel, by decide +kernel⟩
  exact hone ▸ hright.denominated _ hsecond

end ImageCoin.PrivateSend
