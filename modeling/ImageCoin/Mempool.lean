import ImageCoin.MapEntries
import ImageCoin.Transaction
import ImageCoin.Worklist

/-!
# The mempool and the limits on ancestors

`CTxMemPool` of `txmempool.cpp`: the entries, the links between parents and children, and
`CalculateMemPoolAncestors`.  An iterator into `mapTx` is the hash of its transaction.
Scores are compared exactly, not as `double`.
-/

namespace ImageCoin

section
/-- An entry with what the pool keeps of its descendants. -/
structure CTxMemPoolEntry where
  tx : CTransaction
  nFee : ℤ
  nTxSize : ℕ
  nUsageSize : ℕ
  nTime : ℤ
  feeDelta : ℤ
  nCountWithDescendants : ℕ
  nSizeWithDescendants : ℕ
  nModFeesWithDescendants : ℤ
  deriving DecidableEq

namespace CTxMemPoolEntry

def getModifiedFee (e : CTxMemPoolEntry) : ℤ := e.nFee + e.feeDelta

variable (a : CTxMemPoolEntry)

def useDescendantScore : Bool :=
  a.nModFeesWithDescendants * a.nTxSize > a.getModifiedFee * a.nSizeWithDescendants

def modFee : ℤ :=
  if a.useDescendantScore then a.nModFeesWithDescendants else a.getModifiedFee

def size : ℕ :=
  if a.useDescendantScore then a.nSizeWithDescendants else a.nTxSize

def compareByDescendantScore (a b : CTxMemPoolEntry) : Bool :=
  let f1 := a.modFee * b.size
  let f2 := a.size * b.modFee
  if f1 = f2 then a.nTime ≥ b.nTime else f1 < f2

/-- Entries are compared by fee rate, and newer entries come first among equal rates. -/
def key : ℚ ×ₗ ℤ := toLex ((a.modFee : ℚ) / a.size, -a.nTime)

theorem compareByDescendantScore_iff {a b : CTxMemPoolEntry} (ha : 0 < a.size)
    (hb : 0 < b.size) : a.compareByDescendantScore b ↔ a.key ≤ b.key := by
  have hpos : (0 : ℚ) < a.size := by exact_mod_cast ha
  have hpos' : (0 : ℚ) < b.size := by exact_mod_cast hb
  have hlt : (a.modFee : ℚ) / a.size < b.modFee / b.size ↔
      a.modFee * b.size < a.size * b.modFee := by
    rw [div_lt_div_iff₀ hpos hpos', mul_comm (b.modFee : ℚ)]
    exact_mod_cast Iff.rfl
  have heq : (a.modFee : ℚ) / a.size = b.modFee / b.size ↔
      a.modFee * b.size = a.size * b.modFee := by
    rw [div_eq_div_iff hpos.ne' hpos'.ne', mul_comm (b.modFee : ℚ)]
    exact_mod_cast Iff.rfl
  rw [key, key, Prod.Lex.toLex_le_toLex, hlt, heq, compareByDescendantScore]
  dsimp only
  split_ifs with hsame
  · simp [hsame]
  · simp [hsame]

/-- What `boost::multi_index` asks of the comparison of an ordered index. -/
structure StrictWeakOrderOn {α : Type} (pool : Set α) (less : α → α → Bool) : Prop where
  irrefl : ∀ a ∈ pool, less a a = false
  asymm : ∀ a ∈ pool, ∀ b ∈ pool, less a b → less b a = false
  trans : ∀ a ∈ pool, ∀ b ∈ pool, ∀ c ∈ pool, less a b → less b c → less a c
  incomparable : ∀ a ∈ pool, ∀ b ∈ pool, ∀ c ∈ pool, less a b = false → less b a = false →
    less b c = false → less c b = false → less a c = false ∧ less c a = false

theorem compareByDescendantScore_self : a.compareByDescendantScore a := by
  have hsame : a.modFee * a.size = a.size * a.modFee := mul_comm _ _
  simp [compareByDescendantScore, hsame]

/-- Every entry comes before itself: with one entry the order is not lawful any more. -/
theorem strictWeakOrderOn_iff_empty (pool : Set CTxMemPoolEntry) :
    StrictWeakOrderOn pool compareByDescendantScore ↔ pool = ∅ := by
  constructor
  · intro horder
    refine Set.eq_empty_iff_forall_notMem.mpr fun a ha => ?_
    have hself := horder.irrefl a ha
    rw [compareByDescendantScore_self] at hself
    exact Bool.noConfusion hself
  · rintro rfl
    constructor <;> simp

theorem strictWeakOrderOn_not_flip {pool : Set CTxMemPoolEntry} (hsize : ∀ a ∈ pool, 0 < a.size) :
    StrictWeakOrderOn pool fun a b => !b.compareByDescendantScore a := by
  have hless : ∀ a ∈ pool, ∀ b ∈ pool,
      ((!b.compareByDescendantScore a) ↔ a.key < b.key) := by
    intro a ha b hb
    rw [Bool.not_eq_true', ← Bool.not_eq_true,
      compareByDescendantScore_iff (hsize b hb) (hsize a ha), not_le]
  have hnot : ∀ a ∈ pool, ∀ b ∈ pool,
      ((!b.compareByDescendantScore a) = false ↔ b.key ≤ a.key) := by
    intro a ha b hb
    rw [← Bool.not_eq_true, hless a ha b hb, not_lt]
  refine ⟨fun a ha => (hnot a ha a ha).mpr le_rfl, fun a ha b hb hab => ?_,
    fun a ha b hb c hc hab hbc => ?_, fun a ha b hb c hc hab hba hbc hcb => ⟨?_, ?_⟩⟩
  · exact (hnot b hb a ha).mpr ((hless a ha b hb).mp hab).le
  · exact (hless a ha c hc).mpr (((hless a ha b hb).mp hab).trans ((hless b hb c hc).mp hbc))
  · exact (hnot a ha c hc).mpr (((hnot b hb c hc).mp hbc).trans ((hnot a ha b hb).mp hab))
  · exact (hnot c hc a ha).mpr (((hnot b hb a ha).mp hba).trans ((hnot c hc b hb).mp hcb))

def plainEntry : CTxMemPoolEntry where
  tx := { nVersion := 1, vin := [⟨⟨7, 0⟩, [], 0⟩], vout := [], nLockTime := 0, hash := 1 }
  nFee := 1000
  nTxSize := 250
  nUsageSize := 500
  nTime := 0
  feeDelta := 0
  nCountWithDescendants := 1
  nSizeWithDescendants := 250
  nModFeesWithDescendants := 1000

/-- An entry comes before itself. -/
theorem compareByDescendantScore_not_lawful : plainEntry.compareByDescendantScore plainEntry ∧
      ¬StrictWeakOrderOn Set.univ compareByDescendantScore := by
  have hself : plainEntry.compareByDescendantScore plainEntry := by decide
  refine ⟨hself, fun horder => ?_⟩
  exact Bool.noConfusion ((horder.irrefl plainEntry (Set.mem_univ _)).symm.trans hself)

end CTxMemPoolEntry
end

open MapEntries Worklist CTxMemPoolEntry List
variable {hash : UInt256} {entry : CTxMemPoolEntry}

structure TxLinks where
  parents : List UInt256 := []
  children : List UInt256 := []
  deriving DecidableEq

/-- What one node of each container takes (`memusage.h`). -/
structure MemUsage where
  mapTxNode : ℕ := 0
  mapNextTxNode : ℕ := 0
  mapDeltasNode : ℕ := 0
  mapLinksNode : ℕ := 0
  setEntriesNode : ℕ := 0

structure CMempoolAddressDeltaKey where
  type : ℕ
  addressBytes : Bytes
  txhash : UInt256
  index : ℕ
  spending : ℕ
  deriving DecidableEq

structure CMempoolAddressDelta where
  time : ℤ
  amount : CAmount
  prevhash : UInt256 := 0
  prevout : UInt32 := 0

structure CSpentIndexKey where
  txid : UInt256
  outputIndex : UInt32
  deriving DecidableEq

structure CSpentIndexValue where
  txid : UInt256
  inputIndex : ℕ
  blockHeight : ℤ
  satoshis : CAmount
  addressType : ℕ
  addressHash : Bytes

structure CTxMemPool where
  mapTx : Map UInt256 CTxMemPoolEntry := ∅
  /-- The spender of an outpoint (`CInPoint::ptx`). -/
  mapNextTx : Map COutPoint UInt256 := ∅
  mapLinks : Map UInt256 TxLinks := ∅
  /-- The fee deltas that `PrioritiseTransaction` recorded. -/
  mapDeltas : Map UInt256 ℤ := ∅
  cachedInnerUsage : ℤ := 0
  /-- `mapAddress` and `mapAddressInserted`. -/
  mapAddress : InverseIndex UInt256 CMempoolAddressDeltaKey CMempoolAddressDelta := {}
  /-- `mapSpent` and `mapSpentInserted`. -/
  mapSpent : InverseIndex UInt256 CSpentIndexKey CSpentIndexValue := {}
  memUsage : MemUsage := {}

namespace CTxMemPool

variable (pool : CTxMemPool)

def has (hash : UInt256) : Bool := (pool.mapTx.lookup hash).isSome

def getMemPoolParents (it : UInt256) : List UInt256 :=
  (pool.mapLinks.lookup it).elim [] TxLinks.parents

def getMemPoolChildren (it : UInt256) : List UInt256 :=
  (pool.mapLinks.lookup it).elim [] TxLinks.children

structure AncestorLimits where
  ancestorCount : ℕ
  ancestorSize : ℕ
  descendantCount : ℕ
  descendantSize : ℕ

/-- The message in `errString`, which also names the limit. -/
inductive LimitError where
  /-- "too many unconfirmed parents" -/
  | unconfirmedParents
  /-- "exceeds descendant size limit for tx" -/
  | descendantSize (hash : UInt256)
  /-- "too many descendants for tx" -/
  | descendants (hash : UInt256)
  /-- "exceeds ancestor size limit" -/
  | ancestorSize
  /-- "too many unconfirmed ancestors" -/
  | unconfirmedAncestors
  deriving DecidableEq

/-- The search in `mapTx` for the parents of a transaction that is not in the pool. -/
def searchForParents (pool : CTxMemPool) (limits : AncestorLimits) :
    List CTxIn → List UInt256 → Except LimitError (List UInt256)
  | [], parentHashes => .ok parentHashes
  | txin :: vin, parentHashes =>
    if pool.has txin.prevout.hash then
      let parentHashes := insertEntry txin.prevout.hash parentHashes
      if parentHashes.length + 1 > limits.ancestorCount then .error .unconfirmedParents
      else pool.searchForParents limits vin parentHashes
    else pool.searchForParents limits vin parentHashes

instance decidableMemHash (hash : UInt256) (l : List UInt256) : Decidable (hash ∈ l) :=
  instDecidableMemOfLawfulBEq hash l

def stageParents (limits : AncestorLimits) (setAncestors : List UInt256) :
    List UInt256 → List UInt256 → Except LimitError (List UInt256)
  | [], parentHashes => .ok parentHashes
  | phash :: rest, parentHashes =>
    let parentHashes :=
      if phash ∈ setAncestors then parentHashes else insertEntry phash parentHashes
    if parentHashes.length + setAncestors.length + 1 > limits.ancestorCount then
      .error .unconfirmedAncestors
    else stageParents limits setAncestors rest parentHashes

/-- The loop over `parentHashes`; no result if the fuel ends before it does, or if it meets an
iterator that is not in the pool. -/
def ancestorLoop (pool : CTxMemPool) (nTxSize : ℕ) (limits : AncestorLimits) :
    ℕ → ℕ → List UInt256 → List UInt256 → Option (Except LimitError (List UInt256))
  | _, _, setAncestors, [] => some (.ok setAncestors)
  | 0, _, _, _ :: _ => none
  | fuel + 1, totalSizeWithAncestors, setAncestors, stageit :: parentHashes =>
    match pool.mapTx.lookup stageit with
    | none => none
    | some e =>
      let setAncestors := insertEntry stageit setAncestors
      let totalSizeWithAncestors := totalSizeWithAncestors + e.nTxSize
      if e.nSizeWithDescendants + nTxSize > limits.descendantSize then
        some (.error (.descendantSize stageit))
      else if e.nCountWithDescendants + 1 > limits.descendantCount then
        some (.error (.descendants stageit))
      else if totalSizeWithAncestors > limits.ancestorSize then some (.error .ancestorSize)
      else
        match stageParents limits setAncestors (pool.getMemPoolParents stageit) parentHashes with
        | .error e => some (.error e)
        | .ok parentHashes =>
          pool.ancestorLoop nTxSize limits fuel totalSizeWithAncestors setAncestors parentHashes

def calculateMemPoolAncestors (entry : CTxMemPoolEntry)
    (limits : AncestorLimits) (fSearchForParents : Bool) :
    Option (Except LimitError (List UInt256)) :=
  match if fSearchForParents then pool.searchForParents limits entry.tx.vin []
    else .ok (pool.getMemPoolParents entry.tx.hash) with
  | .error e => some (.error e)
  | .ok parentHashes =>
    pool.ancestorLoop entry.nTxSize limits pool.mapTx.keys.length entry.nTxSize [] parentHashes

/-- The transactions of the pool whose outputs a transaction spends. -/
def parentsOf (tx : CTransaction) : List UInt256 :=
  (tx.vin.map fun txin => txin.prevout.hash).filter pool.has

def inputParents (hash : UInt256) : List UInt256 :=
  (pool.mapTx.lookup hash).elim [] fun e => pool.parentsOf e.tx

open Classical in
noncomputable def ancestors (pool : CTxMemPool) (tx : CTransaction) : Finset UInt256 :=
  {a ∈ pool.mapTx.keys.toFinset | Reaches pool.inputParents (pool.parentsOf tx) a}

open Classical in
/-- The descendants of an entry, with the entry itself. -/
noncomputable def descendants (pool : CTxMemPool) (hash : UInt256) : Finset UInt256 :=
  {d ∈ pool.mapTx.keys.toFinset | Reaches pool.inputParents [d] hash}

def txSize (hash : UInt256) : ℕ :=
  (pool.mapTx.lookup hash).elim 0 nTxSize

/-- The links are those of the inputs, and an entry counts its descendants. -/
structure Consistent (pool : CTxMemPool) : Prop where
  parents : ∀ hash p, p ∈ pool.getMemPoolParents hash ↔ p ∈ pool.inputParents hash
  count : ∀ hash e, pool.mapTx.lookup hash = some e →
    e.nCountWithDescendants = (pool.descendants hash).card
  size : ∀ hash e, pool.mapTx.lookup hash = some e →
    e.nSizeWithDescendants = ∑ d ∈ pool.descendants hash, pool.txSize d

/-- A transaction of this size with these ancestors keeps the limits. -/
structure WithinLimits (pool : CTxMemPool) (nTxSize : ℕ) (limits : AncestorLimits)
    (A : Finset UInt256) : Prop where
  ancestorCount : A.card + 1 ≤ limits.ancestorCount
  ancestorSize : nTxSize + ∑ a ∈ A, pool.txSize a ≤ limits.ancestorSize
  descendantCount : ∀ a ∈ A, (pool.descendants a).card + 1 ≤ limits.descendantCount
  descendantSize : ∀ a ∈ A,
    ∑ d ∈ pool.descendants a, pool.txSize d + nTxSize ≤ limits.descendantSize

variable {pool} {limits : AncestorLimits} {nTxSize : ℕ} {A : Finset UInt256}

theorem has_iff_mem_keys : pool.has hash ↔ hash ∈ pool.mapTx.keys := by
  rw [has, Option.isSome_iff_exists, mem_keys_iff]

variable {tx : CTransaction}

theorem mem_keys_of_mem_parentsOf {p : UInt256}
    (hp : p ∈ pool.parentsOf tx) : p ∈ pool.mapTx.keys :=
  has_iff_mem_keys.mp (mem_filter.mp hp).2

theorem mem_keys_of_mem_inputParents {p : UInt256} (hp : p ∈ pool.inputParents hash) :
    p ∈ pool.mapTx.keys := by
  unfold inputParents at hp
  cases hlook : pool.mapTx.lookup hash with
  | none => simp [hlook] at hp
  | some e =>
    rw [hlook] at hp
    exact mem_keys_of_mem_parentsOf hp

open Classical in
theorem mem_ancestors {a : UInt256} :
    a ∈ pool.ancestors tx ↔ Reaches pool.inputParents (pool.parentsOf tx) a := by
  rw [ancestors, Finset.mem_filter, mem_toFinset, and_iff_right_iff_imp]
  exact fun h => h.mem (fun _ => mem_keys_of_mem_parentsOf)
    fun _ _ _ => mem_keys_of_mem_inputParents

theorem ancestors_eq_empty : pool.ancestors tx = ∅ ↔ pool.parentsOf tx = [] := by
  constructor
  · intro hempty
    refine eq_nil_iff_forall_not_mem.mpr fun p hp => ?_
    have hmem : p ∈ pool.ancestors tx := mem_ancestors.mpr ⟨p, hp, .refl⟩
    simp [hempty] at hmem
  · intro hnone
    refine Finset.eq_empty_iff_forall_notMem.mpr fun a ha => ?_
    obtain ⟨r, hr, -⟩ := mem_ancestors.mp ha
    simp [hnone] at hr

theorem withinLimits_empty : pool.WithinLimits nTxSize limits ∅ ↔
    1 ≤ limits.ancestorCount ∧ nTxSize ≤ limits.ancestorSize := by
  constructor
  · intro h
    exact ⟨by simpa using h.ancestorCount, by simpa using h.ancestorSize⟩
  · rintro ⟨hcount, hsize⟩
    exact ⟨by simpa using hcount, by simpa using hsize, by simp, by simp⟩

/-! ## The search decides the limits -/

theorem searchForParents_eq (pool : CTxMemPool) (limits : AncestorLimits) (vin : List CTxIn)
    (parentHashes : List UInt256)
    (hcount : parentHashes = [] ∨ parentHashes.length + 1 ≤ limits.ancestorCount) :
    let found := push [] ((vin.map fun txin => txin.prevout.hash).filter pool.has) parentHashes
    pool.searchForParents limits vin parentHashes =
      if found = [] ∨ found.length + 1 ≤ limits.ancestorCount then .ok found
      else .error .unconfirmedParents := by
  induction vin generalizing parentHashes with
  | nil => exact (if_pos hcount).symm
  | cons txin vin ih =>
    by_cases hhas : pool.has txin.prevout.hash
    · simp only [searchForParents, hhas, if_true, map_cons, filter_cons, push_cons,
        not_mem_nil, if_false]
      by_cases hmany : (insertEntry txin.prevout.hash parentHashes).length + 1 >
          limits.ancestorCount
      · have hlong := length_le_push [] ((vin.map fun txin => txin.prevout.hash).filter pool.has)
          (insertEntry txin.prevout.hash parentHashes)
        have hmem : txin.prevout.hash ∈ insertEntry txin.prevout.hash parentHashes :=
          mem_insertEntry.mpr (.inl rfl)
        have hpos := length_pos_of_mem hmem
        rw [if_pos hmany, if_neg]
        rintro (hnil | hfits)
        · rw [hnil, length_nil] at hlong
          omega
        · omega
      · rw [if_neg hmany]
        exact ih _ (.inr (Nat.le_of_not_gt hmany))
    · simp [searchForParents, hhas]
      exact ih parentHashes hcount

theorem stageParents_eq (setAncestors parents parentHashes : List UInt256)
    (hcount : parentHashes.length + setAncestors.length + 1 ≤ limits.ancestorCount) :
    stageParents limits setAncestors parents parentHashes =
      if (push setAncestors parents parentHashes).length + setAncestors.length + 1 ≤
        limits.ancestorCount then .ok (push setAncestors parents parentHashes)
      else .error .unconfirmedAncestors := by
  induction parents generalizing parentHashes with
  | nil => exact (if_pos hcount).symm
  | cons phash rest ih =>
    rw [push_cons]
    -- The stage after this parent, whether or not it was visited before.
    set staged := if phash ∈ setAncestors then parentHashes else insertEntry phash parentHashes
    have hlong := length_le_push setAncestors rest staged
    by_cases hmany : staged.length + setAncestors.length + 1 > limits.ancestorCount
    · exact (if_pos hmany).trans (if_neg (by omega)).symm
    · rw [← ih staged (Nat.le_of_not_gt hmany)]
      exact if_neg hmany

/-- A search either finds the ancestors or meets a limit that they break. -/
def Decides (r : Option (Except LimitError (List UInt256))) (A : Finset UInt256)
    (within : Prop) : Prop :=
  (within → ∃ setAncestors, r = some (.ok setAncestors) ∧ setAncestors.toFinset = A) ∧
    (¬ within → ∃ e, r = some (.error e))

theorem Decides.error {within : Prop} (e : LimitError) (hnot : ¬ within) :
    Decides (some (.error e)) A within :=
  ⟨fun h => absurd h hnot, fun _ => ⟨e, rfl⟩⟩

theorem ancestorLoop_decides (hpool : pool.Consistent) {roots : List UInt256}
    (hroots : ∀ r ∈ roots, r ∈ pool.mapTx.keys)
    (hA : ∀ a, a ∈ A ↔ Reaches pool.getMemPoolParents roots a) {fuel total : ℕ}
    {done stage : List UInt256} (hwalk : Walk pool.getMemPoolParents roots done stage)
    (hfuel : pool.mapTx.keys.length ≤ fuel + done.length)
    (htotal : total = nTxSize + ∑ a ∈ done.toFinset, pool.txSize a)
    (hcount : stage.length + done.length + 1 ≤ limits.ancestorCount)
    (hsize : stage = [] → total ≤ limits.ancestorSize)
    (hdone : ∀ a ∈ done, (pool.descendants a).card + 1 ≤ limits.descendantCount ∧
      ∑ d ∈ pool.descendants a, pool.txSize d + nTxSize ≤ limits.descendantSize) :
    Decides (pool.ancestorLoop nTxSize limits fuel total done stage) A
      (pool.WithinLimits nTxSize limits A) := by
  have hkeys : ∀ x ∈ pool.mapTx.keys, ∀ y ∈ pool.getMemPoolParents x, y ∈ pool.mapTx.keys :=
    fun x _ y hy => mem_keys_of_mem_inputParents ((hpool.parents x y).mp hy)
  have hend : ∀ {done total}, Walk pool.getMemPoolParents roots done [] →
      total = nTxSize + ∑ a ∈ done.toFinset, pool.txSize a → total ≤ limits.ancestorSize →
      done.length + 1 ≤ limits.ancestorCount →
      (∀ a ∈ done, (pool.descendants a).card + 1 ≤ limits.descendantCount ∧
        ∑ d ∈ pool.descendants a, pool.txSize d + nTxSize ≤ limits.descendantSize) →
      Decides (some (.ok done)) A (pool.WithinLimits nTxSize limits A) := by
    intro done total hwalk htotal hsize hcount hdone
    have hset : done.toFinset = A := by
      ext a
      rw [mem_toFinset, hwalk.finish, hA]
    have hnodup : done.Nodup := by simpa using hwalk.nodup
    refine ⟨fun _ => ⟨done, rfl, hset⟩, fun hnot => absurd ?_ hnot⟩
    rw [← hset]
    refine ⟨?_, htotal ▸ hsize, fun a ha => (hdone a (mem_toFinset.mp ha)).1,
      fun a ha => (hdone a (mem_toFinset.mp ha)).2⟩
    rwa [toFinset_card_of_nodup hnodup]
  induction fuel generalizing total done stage with
  | zero =>
    cases stage with
    | nil =>
      exact hend hwalk htotal (hsize rfl) (by simpa using hcount) hdone
    | cons x stage =>
      have := hwalk.length_le hroots hkeys
      rw [length_cons] at this
      omega
  | succ fuel ih =>
    cases stage with
    | nil =>
      exact hend hwalk htotal (hsize rfl) (by simpa using hcount) hdone
    | cons x stage =>
      have hreach := hwalk.sound x (mem_append_right _ mem_cons_self)
      have hx : x ∈ A := (hA x).mpr hreach
      obtain ⟨e, he⟩ := (mem_keys_iff _ _).mp (hreach.mem hroots hkeys)
      have hnext := hwalk.step
      have hins := insertEntry_of_notMem hwalk.notMem
      have hlen : (insertEntry x done).length = done.length + 1 := by simp [hins]
      have hsum : total + e.nTxSize =
          nTxSize + ∑ a ∈ (insertEntry x done).toFinset, pool.txSize a := by
        rw [hins, toFinset_append, Finset.union_comm]
        rw [show [x].toFinset ∪ done.toFinset = insert x done.toFinset from rfl,
          Finset.sum_insert (fun hmem => hwalk.notMem (mem_toFinset.mp hmem)), htotal]
        simp only [txSize, he, Option.elim_some]
        omega
      simp only [ancestorLoop, he, hpool.count x e he, hpool.size x e he]
      split_ifs with h1 h2 h3
      · exact .error _ fun h => absurd (h.descendantSize x hx) (Nat.not_le_of_gt h1)
      · exact .error _ fun h => absurd (h.descendantCount x hx) (Nat.not_le_of_gt h2)
      · refine .error _ fun h => ?_
        have hsub : (insertEntry x done).toFinset ⊆ A := fun a ha => (hA a).mpr
          (hnext.sound a (mem_append_left _ (mem_toFinset.mp ha)))
        have hle := Finset.sum_le_sum_of_subset (f := pool.txSize) hsub
        have := h.ancestorSize
        omega
      · rw [length_cons] at hcount
        rw [stageParents_eq _ _ _ (by omega)]
        split_ifs with hfits
        · refine ih hnext (by omega) hsum hfits (fun _ => Nat.le_of_not_gt h3) ?_
          intro a ha
          rcases mem_insertEntry.mp ha with rfl | ha
          · exact ⟨Nat.le_of_not_gt h2, Nat.le_of_not_gt h1⟩
          · exact hdone a ha
        · refine .error _ fun h => ?_
          have := hnext.length_le_card hA
          have := h.ancestorCount
          omega

theorem calculateMemPoolAncestors_nil (hnone : pool.parentsOf entry.tx = []) :
    pool.calculateMemPoolAncestors entry limits true = some (.ok []) := by
  have hsearch := searchForParents_eq pool limits entry.tx.vin [] (.inl rfl)
  rw [← parentsOf] at hsearch
  simp only [hnone, push] at hsearch
  simp [calculateMemPoolAncestors, hsearch, ancestorLoop]

theorem calculateMemPoolAncestors_decides (hpool : pool.Consistent) (entry : CTxMemPoolEntry)
    (limits : AncestorLimits) (hsome : pool.parentsOf entry.tx ≠ []) :
    Decides (pool.calculateMemPoolAncestors entry limits true) (pool.ancestors entry.tx)
      (pool.WithinLimits entry.nTxSize limits (pool.ancestors entry.tx)) := by
  have hsearch := searchForParents_eq pool limits entry.tx.vin [] (.inl rfl)
  rw [← parentsOf] at hsearch
  have hmem : ∀ r, r ∈ push [] (pool.parentsOf entry.tx) [] ↔ r ∈ pool.parentsOf entry.tx :=
    fun r => by simp [mem_push]
  have hA : ∀ a, a ∈ pool.ancestors entry.tx ↔
      Reaches pool.getMemPoolParents (push [] (pool.parentsOf entry.tx) []) a :=
    fun a => mem_ancestors.trans (Reaches.congr hmem hpool.parents).symm
  have hwalk : Walk pool.getMemPoolParents (push [] (pool.parentsOf entry.tx) []) []
      (push [] (pool.parentsOf entry.tx) []) := .start (nodup_push nodup_nil)
  generalize push [] (pool.parentsOf entry.tx) [] = found at *
  have hfound : found ≠ [] := fun h => hsome <| eq_nil_iff_forall_not_mem.mpr
    fun r hr => by simpa [h] using (hmem r).mpr hr
  by_cases hfits : found.length + 1 ≤ limits.ancestorCount
  · simp [calculateMemPoolAncestors, hsearch, hfits]
    exact ancestorLoop_decides hpool (fun r hr => mem_keys_of_mem_parentsOf ((hmem r).mp hr))
      hA hwalk (by simp) (by simp) (by simpa using hfits) (fun h => absurd h hfound) (by simp)
  · simp [calculateMemPoolAncestors, hsearch, hfound, hfits]
    exact .error _ fun h => hfits (le_trans (Nat.add_le_add_right
      (hwalk.length_le_card hA) 1) h.ancestorCount)

/-- The search reports the ancestors exactly within the limits if and only if there is an
ancestor to look at, or the transaction alone keeps the limits on ancestors. -/
theorem calculateMemPoolAncestors_within_iff (hpool : pool.Consistent)
    (entry : CTxMemPoolEntry) (limits : AncestorLimits) :
    ((∃ setAncestors, pool.calculateMemPoolAncestors entry limits true =
        some (.ok setAncestors) ∧ setAncestors.toFinset = pool.ancestors entry.tx) ↔
      pool.WithinLimits entry.nTxSize limits (pool.ancestors entry.tx)) ↔
    ((pool.ancestors entry.tx).Nonempty ∨
      1 ≤ limits.ancestorCount ∧ entry.nTxSize ≤ limits.ancestorSize) := by
  by_cases hnone : pool.parentsOf entry.tx = []
  · rw [calculateMemPoolAncestors_nil hnone, ancestors_eq_empty.mpr hnone]
    simp [withinLimits_empty]
  · have hsome : (pool.ancestors entry.tx).Nonempty :=
      Finset.nonempty_iff_ne_empty.mpr fun h => hnone (ancestors_eq_empty.mp h)
    have hdecides := calculateMemPoolAncestors_decides hpool entry limits hnone
    refine iff_of_true ⟨?_, hdecides.1⟩ (.inl hsome)
    rintro ⟨setAncestors, hrun, -⟩
    by_contra hnot
    obtain ⟨e, herror⟩ := hdecides.2 hnot
    simp [hrun] at herror

theorem eq_push_of_stageParents {setAncestors parents parentHashes staged : List UInt256}
    (hok : stageParents limits setAncestors parents parentHashes = .ok staged) :
    staged = push setAncestors parents parentHashes := by
  induction parents generalizing parentHashes with
  | nil => exact (Except.ok.inj hok).symm
  | cons phash rest ih =>
    rw [push_cons]
    rw [stageParents] at hok
    by_cases hmany : (if phash ∈ setAncestors then parentHashes
        else insertEntry phash parentHashes).length + setAncestors.length + 1 > limits.ancestorCount
    · rw [if_pos hmany] at hok
      cases hok
    · rw [if_neg hmany] at hok
      exact ih hok

theorem walk_of_ancestorLoop {fuel total : ℕ} {roots done stage setAncestors : List UInt256}
    (hwalk : Walk pool.getMemPoolParents roots done stage)
    (hrun : pool.ancestorLoop nTxSize limits fuel total done stage = some (.ok setAncestors)) :
    Walk pool.getMemPoolParents roots setAncestors [] := by
  fun_induction ancestorLoop pool nTxSize limits fuel total done stage with
  | case1 fuel total done =>
    obtain rfl : done = setAncestors := by simpa using hrun
    exact hwalk
  | case8 fuel total done stageit stage e he setAncestors total hsize hcount htotal staged hstaged
      ih =>
    rw [eq_push_of_stageParents hstaged] at ih hrun
    exact ih hwalk.step hrun
  | _ => simp at hrun

/-- Whatever the counts of the entries, a successful search finds what the links lead to. -/
theorem mem_of_calculateMemPoolAncestors {setAncestors : List UInt256} {a : UInt256}
    (hrun : pool.calculateMemPoolAncestors entry limits true = some (.ok setAncestors)) :
    a ∈ setAncestors ↔ Reaches pool.getMemPoolParents (pool.parentsOf entry.tx) a := by
  have hsearch := searchForParents_eq pool limits entry.tx.vin [] (.inl rfl)
  rw [← parentsOf] at hsearch
  simp only [calculateMemPoolAncestors, if_true, hsearch] at hrun
  split_ifs at hrun with hfound
  · have hwalk := walk_of_ancestorLoop (.start (nodup_push nodup_nil)) hrun
    rw [hwalk.finish]
    exact Reaches.congr (fun r => by simp [mem_push]) fun _ _ => Iff.rfl
  · simp at hrun

def poolOfOne : CTxMemPool where
  mapTx := AList.insert 1 plainEntry ∅
  mapNextTx := AList.insert ⟨7, 0⟩ 1 ∅
  mapLinks := AList.insert 1 {} ∅
  cachedInnerUsage := 500
  memUsage := ⟨400, 112, 96, 160, 64⟩

theorem poolOfOne_consistent : poolOfOne.Consistent := by
  have hlook : ∀ hash e, poolOfOne.mapTx.lookup hash = some e → hash = 1 ∧ e = plainEntry := by
    intro hash e he
    rw [poolOfOne, lookup_insert_eq] at he
    split_ifs at he with hone
    · exact ⟨hone, (Option.some.inj he).symm⟩
    · simp at he
  have hdesc : poolOfOne.descendants 1 = {1} := by
    have hkeys : poolOfOne.mapTx.keys = [1] := rfl
    ext d
    simp only [descendants, hkeys, toFinset_cons, toFinset_nil, insert_empty_eq,
      Finset.mem_filter, Finset.mem_singleton, and_iff_left_iff_imp]
    rintro rfl
    exact ⟨1, mem_singleton_self 1, .refl⟩
  refine ⟨fun hash p => ?_, fun hash e he => ?_, fun hash e he => ?_⟩
  · have hlinks : poolOfOne.getMemPoolParents hash = [] := by
      rw [getMemPoolParents, poolOfOne, lookup_insert_eq]
      split_ifs <;> rfl
    have hinputs : poolOfOne.inputParents hash = [] := by
      rw [inputParents]
      cases hentry : poolOfOne.mapTx.lookup hash with
      | none => rfl
      | some e =>
        obtain ⟨-, rfl⟩ := hlook hash e hentry
        rfl
    rw [hlinks, hinputs]
  · obtain ⟨rfl, rfl⟩ := hlook hash e he
    rw [hdesc]
    rfl
  · obtain ⟨rfl, rfl⟩ := hlook hash e he
    rw [hdesc]
    rfl

/-- A transaction that spends an output of the pool or a confirmed one. -/
def spenderOf (hash : UInt256) (nTxSize : ℕ) : CTxMemPoolEntry :=
  { plainEntry with
    tx := { plainEntry.tx with vin := [⟨⟨hash, 0⟩, [], 0⟩], hash := 2 }
    nTxSize := nTxSize }

theorem calculateMemPoolAncestors_within_poolOfOne :
    (poolOfOne.ancestors (spenderOf 1 250).tx).Nonempty ∧
      ((∃ setAncestors, poolOfOne.calculateMemPoolAncestors (spenderOf 1 250)
          ⟨25, 101000, 25, 101000⟩ true = some (.ok setAncestors) ∧
          setAncestors.toFinset = poolOfOne.ancestors (spenderOf 1 250).tx) ↔
        poolOfOne.WithinLimits 250 ⟨25, 101000, 25, 101000⟩
          (poolOfOne.ancestors (spenderOf 1 250).tx)) := by
  have hsome : (poolOfOne.ancestors (spenderOf 1 250).tx).Nonempty :=
    ⟨1, mem_ancestors.mpr ⟨1, by decide, .refl⟩⟩
  exact ⟨hsome, (calculateMemPoolAncestors_within_iff poolOfOne_consistent (spenderOf 1 250)
    ⟨25, 101000, 25, 101000⟩).mpr (.inl hsome)⟩

/-- Nothing checks the size of a transaction without parents in the pool. -/
theorem calculateMemPoolAncestors_without_parents : poolOfOne.Consistent ∧
    poolOfOne.calculateMemPoolAncestors (spenderOf 7 150000) ⟨25, 101000, 25, 101000⟩ true =
      some (.ok []) ∧ poolOfOne.ancestors (spenderOf 7 150000).tx = ∅ ∧
    ¬poolOfOne.WithinLimits 150000 ⟨25, 101000, 25, 101000⟩
      (poolOfOne.ancestors (spenderOf 7 150000).tx) := by
  have hempty : poolOfOne.ancestors (spenderOf 7 150000).tx = ∅ :=
    ancestors_eq_empty.mpr (by decide)
  refine ⟨poolOfOne_consistent, by decide +kernel, hempty, ?_⟩
  rw [hempty, withinLimits_empty]
  decide

end CTxMemPool
end ImageCoin
