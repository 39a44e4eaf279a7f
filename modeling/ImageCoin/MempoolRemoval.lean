import ImageCoin.Mempool

/-!
# Taking transactions out of the mempool

`RemoveStaged` and what it does to the links, `CalculateDescendants`, `remove`,
`removeConflicts` and `removeForBlock` of `txmempool.cpp`.
-/

namespace ImageCoin

open MapEntries Worklist List Option
variable {x hash entry other : UInt256} {roots D : List UInt256}

/-- The two sets of `TxLinks`. -/
inductive LinkSide where
  | parents
  | children
  deriving DecidableEq

def TxLinks.side (l : TxLinks) : LinkSide → List UInt256
  | .parents => l.parents
  | .children => l.children

def TxLinks.modifySide (l : TxLinks) (side : LinkSide) (f : List UInt256 → List UInt256) :
    TxLinks :=
  match side with
  | .parents => { l with parents := f l.parents }
  | .children => { l with children := f l.children }

namespace CTxMemPool

def links (pool : CTxMemPool) (side : LinkSide) (it : UInt256) : List UInt256 :=
  (pool.mapLinks.lookup it).elim [] fun l => l.side side

def updateLink (side : LinkSide) (pool : CTxMemPool) (entry other : UInt256) (add : Bool) :
    CTxMemPool :=
  if add then
    if other ∈ pool.links side entry then pool
    else
      { pool with
        mapLinks := adjust pool.mapLinks entry fun l => l.modifySide side (insertEntry other)
        cachedInnerUsage := pool.cachedInnerUsage + pool.memUsage.setEntriesNode }
  else if other ∈ pool.links side entry then
    { pool with
      mapLinks := adjust pool.mapLinks entry fun l => l.modifySide side (·.filter (· ≠ other))
      cachedInnerUsage := pool.cachedInnerUsage - pool.memUsage.setEntriesNode }
  else pool

def updateChild := updateLink .children

def updateParent := updateLink .parents

/-! ## Removal -/

def updateState (modifySize modifyFee modifyCount : ℤ) (e : CTxMemPoolEntry) : CTxMemPoolEntry :=
  if e.nCountWithDescendants = 0 then e
  else
    { e with
      nSizeWithDescendants := (e.nSizeWithDescendants + modifySize).toNat
      nModFeesWithDescendants := e.nModFeesWithDescendants + modifyFee
      nCountWithDescendants := (e.nCountWithDescendants + modifyCount).toNat }

section
variable (pool : CTxMemPool)

def updateAncestorsOf (add : Bool) (it : UInt256) (setAncestors : List UInt256) : CTxMemPool :=
  let linked := (pool.getMemPoolParents it).foldl (fun p piter => p.updateChild piter it add) pool
  match pool.mapTx.lookup it with
  | none => linked
  | some e =>
    let updateCount : ℤ := if add then 1 else -1
    { linked with
      mapTx := setAncestors.foldl (fun m ancestorIt => adjust m ancestorIt
        (updateState (updateCount * e.nTxSize) (updateCount * e.getModifiedFee) updateCount))
        linked.mapTx }

def updateChildrenForRemoval (it : UInt256) : CTxMemPool :=
  (pool.getMemPoolChildren it).foldl (fun p updateIt => p.updateParent updateIt it false) pool

def nNoLimit : ℕ := 2 ^ 64 - 1

/-- The ancestors of an entry of the pool, when no limit is reached. -/
def memPoolAncestors (it : UInt256) : List UInt256 :=
  match pool.mapTx.lookup it with
  | none => []
  | some e =>
    match pool.calculateMemPoolAncestors e ⟨nNoLimit, nNoLimit, nNoLimit, nNoLimit⟩ false with
    | some (.ok setAncestors) => setAncestors
    | _ => []

def updateForRemoveFromMempool (entriesToRemove : List UInt256) : CTxMemPool :=
  entriesToRemove.foldl updateChildrenForRemoval (entriesToRemove.foldl (fun p removeIt =>
      p.updateAncestorsOf false removeIt (p.memPoolAncestors removeIt)) pool)

def removeUnchecked (it : UInt256) : CTxMemPool :=
  match pool.mapTx.lookup it with
  | none => pool
  | some e =>
    { pool with
      mapNextTx := eraseAll pool.mapNextTx (e.tx.vin.map CTxIn.prevout)
      cachedInnerUsage := pool.cachedInnerUsage - e.nUsageSize - pool.memUsage.setEntriesNode *
          ((pool.getMemPoolParents it).length + (pool.getMemPoolChildren it).length)
      mapLinks := pool.mapLinks.erase it
      mapTx := pool.mapTx.erase it
      mapAddress := pool.mapAddress.remove it
      mapSpent := pool.mapSpent.remove it }

def removeStaged (stage : List UInt256) : CTxMemPool :=
  stage.foldl removeUnchecked (pool.updateForRemoveFromMempool stage)

/-- The loop of `CalculateDescendants`; no result if the fuel ends before it does. -/
def descendantLoop (pool : CTxMemPool) : ℕ → List UInt256 → List UInt256 → Option (List UInt256)
  | _, setDescendants, [] => some setDescendants
  | 0, _, _ :: _ => none
  | fuel + 1, setDescendants, it :: stage =>
    let setDescendants := insertEntry it setDescendants
    pool.descendantLoop fuel setDescendants
      (push setDescendants (pool.getMemPoolChildren it) stage)

def calculateDescendants (entryit : UInt256)
    (setDescendants : List UInt256) : Option (List UInt256) :=
  pool.descendantLoop pool.mapTx.keys.length setDescendants
    (if entryit ∈ setDescendants then [] else [entryit])

/-- `remove`, without the list of what was removed. -/
def remove (origTx : CTransaction) (fRecursive : Bool) : Option CTxMemPool := do
  let txToRemove :=
    if pool.has origTx.hash then [origTx.hash]
    else if fRecursive then
      (range origTx.vout.length).foldl (fun s i =>
        match pool.mapNextTx.lookup ⟨origTx.hash, UInt32.ofNat i⟩ with
        | some next => insertEntry next s
        | none => s) []
    else []
  let setAllRemoves ←
    if fRecursive then txToRemove.foldlM (fun s it => pool.calculateDescendants it s) []
    else some txToRemove
  pure (pool.removeStaged setAllRemoves)

def clearPrioritisation (hash : UInt256) : CTxMemPool :=
  { pool with mapDeltas := pool.mapDeltas.erase hash }

def removeConflict (tx : CTransaction) (txin : CTxIn) : Option CTxMemPool :=
  match (pool.mapNextTx.lookup txin.prevout).bind fun hash => pool.mapTx.lookup hash with
  | none => some pool
  | some conflict =>
    if conflict.tx.hash = tx.hash then some pool
    else
      (pool.remove conflict.tx true).map fun p => p.clearPrioritisation conflict.tx.hash

def removeConflicts (tx : CTransaction) : Option CTxMemPool :=
  tx.vin.foldlM (fun p txin => p.removeConflict tx txin) pool

/-- What a block's transaction does to the pool. -/
def removeForTx (tx : CTransaction) : Option CTxMemPool := do
  let pool ← pool.remove tx false
  let pool ← pool.removeConflicts tx
  pure (pool.clearPrioritisation tx.hash)

def removeForBlock (vtx : List CTransaction) : Option CTxMemPool :=
  vtx.foldlM removeForTx pool

/-- An entry without the figures about its descendants. -/
def forget (e : CTxMemPoolEntry) : CTxMemPoolEntry :=
  { e with nCountWithDescendants := 0, nSizeWithDescendants := 0, nModFeesWithDescendants := 0 }

def coreAt (hash : UInt256) : Option CTxMemPoolEntry :=
  (pool.mapTx.lookup hash).map forget

end

/-- Nothing changes but links, usage and the figures about descendants. -/
structure Frame (pool pool' : CTxMemPool) : Prop where
  core : ∀ hash, pool'.coreAt hash = pool.coreAt hash
  mapNextTx : pool'.mapNextTx = pool.mapNextTx
  mapDeltas : pool'.mapDeltas = pool.mapDeltas
  mapAddress : pool'.mapAddress = pool.mapAddress
  mapSpent : pool'.mapSpent = pool.mapSpent
  memUsage : pool'.memUsage = pool.memUsage

variable {pool pool' pool'' : CTxMemPool} {it : UInt256} {side side' : LinkSide}

theorem Frame.rfl' : pool.Frame pool := ⟨fun _ => rfl, rfl, rfl, rfl, rfl, rfl⟩

theorem Frame.trans (h : pool.Frame pool') (h' : pool'.Frame pool'') : pool.Frame pool'' where
  core := fun hash => (h'.core hash).trans (h.core hash)
  mapNextTx := h'.mapNextTx.trans h.mapNextTx
  mapDeltas := h'.mapDeltas.trans h.mapDeltas
  mapAddress := h'.mapAddress.trans h.mapAddress
  mapSpent := h'.mapSpent.trans h.mapSpent
  memUsage := h'.memUsage.trans h.memUsage

theorem Frame.foldl {α : Type} (f : CTxMemPool → α → CTxMemPool)
    (hf : ∀ (p : CTxMemPool) a, p.Frame (f p a)) (l : List α) (pool : CTxMemPool) :
    pool.Frame (l.foldl f pool) :=
  foldlRecOn (motive := pool.Frame) l f .rfl' fun p hp a _ => hp.trans (hf p a)

theorem updateLink_frame {add : Bool} : pool.Frame (updateLink side pool entry other add) := by
  unfold updateLink
  split_ifs <;> exact ⟨fun _ => rfl, rfl, rfl, rfl, rfl, rfl⟩

theorem forget_updateState {a b c : ℤ} {e : CTxMemPoolEntry} :
    forget (updateState a b c e) = forget e := by
  unfold updateState
  split_ifs <;> rfl

theorem map_forget_foldl_adjust {m : Map UInt256 CTxMemPoolEntry} {l : List UInt256} {a b c : ℤ} :
    ((l.foldl (fun m k => adjust m k (updateState a b c)) m).lookup hash).map forget =
      (m.lookup hash).map forget := by
  refine foldlRecOn (motive := fun m' : Map UInt256 CTxMemPoolEntry =>
    (m'.lookup hash).map forget = (m.lookup hash).map forget) l _ rfl fun m' hm' k _ => ?_
  rw [← hm', lookup_adjust]
  split_ifs with heq
  · subst heq
    simp [Function.comp_def, forget_updateState]
  · rfl

theorem updateAncestorsOf_frame {add : Bool}
    {setAncestors : List UInt256} : pool.Frame (pool.updateAncestorsOf add it setAncestors) := by
  have hlinked := Frame.foldl (fun p piter => updateChild p piter it add)
    (fun p piter => updateLink_frame) (pool.getMemPoolParents it) pool
  unfold updateAncestorsOf
  cases pool.mapTx.lookup it with
  | none => exact hlinked
  | some e =>
    exact hlinked.trans ⟨fun hash => map_forget_foldl_adjust, rfl, rfl, rfl, rfl, rfl⟩

theorem updateForRemoveFromMempool_frame (pool : CTxMemPool) (stage : List UInt256) :
    pool.Frame (pool.updateForRemoveFromMempool stage) := by
  refine .trans (.foldl _ (fun p removeIt => ?_) stage pool) (.foldl _ ?_ stage _)
  · exact updateAncestorsOf_frame
  · exact fun p removeIt => .foldl _ (fun p u => updateLink_frame) _ p

/-! ## The links after a removal -/

theorem mem_links_updateLink {x hash : UInt256} :
    x ∈ (updateLink side pool entry other false).links side' hash ↔
      x ∈ pool.links side' hash ∧ ¬(side' = side ∧ x = other ∧ hash = entry) := by
  unfold updateLink
  by_cases hmem : other ∈ pool.links side entry
  · simp [hmem]
    rw [links, lookup_adjust]
    by_cases heq : hash = entry
    · subst heq
      rw [links]
      cases pool.mapLinks.lookup hash with
      | none => simp
      | some l => cases side <;> cases side' <;> simp [TxLinks.side, TxLinks.modifySide]
    · simp [links, heq]
  · simp only [hmem]
    refine (and_iff_left_of_imp ?_).symm
    rintro hx ⟨rfl, rfl, rfl⟩
    exact hmem hx

theorem mem_links_foldl_updateLink (l : List UInt256) :
    x ∈ (l.foldl (fun p entry => updateLink side p entry it false) pool).links side' hash ↔
      x ∈ pool.links side' hash ∧ ¬(side' = side ∧ x = it ∧ hash ∈ l) := by
  induction l generalizing pool with
  | nil => simp
  | cons entry l ih =>
    rw [foldl_cons, ih, mem_links_updateLink, mem_cons]
    tauto

/-- Steps that each take one entry out of the links of its relatives. -/
theorem mem_links_foldl_sever {f : CTxMemPool → UInt256 → CTxMemPool} (hne : side' ≠ side)
    (hf : ∀ (p : CTxMemPool) (r x hash : UInt256) s, x ∈ (f p r).links s hash ↔
      x ∈ p.links s hash ∧ ¬(s = side ∧ x = r ∧ hash ∈ p.links side' r))
    (pool : CTxMemPool) (stage : List UInt256) {s : LinkSide} :
    x ∈ (stage.foldl f pool).links s hash ↔
      x ∈ pool.links s hash ∧ ¬(s = side ∧ x ∈ stage ∧ hash ∈ pool.links side' x) := by
  induction stage generalizing pool with
  | nil => simp
  | cons r stage ih =>
    have hkept : ∀ y, hash ∈ (f pool r).links side' y ↔ hash ∈ pool.links side' y :=
      fun y => by simp [hf, hne]
    rw [foldl_cons, ih, hf, hkept]
    by_cases heq : x = r
    · subst heq
      tauto
    · simp [heq]

variable {stage : List UInt256}

theorem mem_links_severChildren : x ∈ (stage.foldl (fun p removeIt =>
    p.updateAncestorsOf false removeIt (p.memPoolAncestors removeIt)) pool).links side' hash ↔
    x ∈ pool.links side' hash ∧
      ¬(side' = .children ∧ x ∈ stage ∧ hash ∈ pool.links .parents x) := by
  refine mem_links_foldl_sever (by decide) (fun p r x hash s => ?_) pool stage
  rw [← mem_links_foldl_updateLink]
  unfold updateAncestorsOf
  cases p.mapTx.lookup r <;> rfl

theorem mem_links_severParents :
    x ∈ (stage.foldl updateChildrenForRemoval pool).links side' hash ↔ x ∈ pool.links side' hash ∧
        ¬(side' = .parents ∧ x ∈ stage ∧ hash ∈ pool.links .children x) :=
  mem_links_foldl_sever (by decide)
    (fun p r _ _ _ => mem_links_foldl_updateLink (p.links .children r)) pool stage

theorem coreAt_removeUnchecked (pool : CTxMemPool) (it hash : UInt256) :
    (pool.removeUnchecked it).coreAt hash = if hash = it then none else pool.coreAt hash := by
  unfold removeUnchecked
  cases hlook : pool.mapTx.lookup it with
  | none =>
    split_ifs with heq
    · rw [heq, coreAt, hlook, map_none]
    · rfl
  | some e =>
    simp only [coreAt, lookup_erase_eq]
    split_ifs <;> rfl

theorem coreAt_foldl_removeUnchecked : (stage.foldl removeUnchecked pool).coreAt hash =
    if hash ∈ stage then none else pool.coreAt hash := by
  induction stage generalizing pool with
  | nil => simp
  | cons r stage ih =>
    rw [foldl_cons, ih, coreAt_removeUnchecked]
    by_cases heq : hash = r <;> simp [heq]

theorem coreAt_removeStaged :
    (pool.removeStaged stage).coreAt hash = if hash ∈ stage then none else pool.coreAt hash := by
  rw [removeStaged, coreAt_foldl_removeUnchecked,
    (updateForRemoveFromMempool_frame pool stage).core]

theorem mem_links_foldl_removeUnchecked (pool : CTxMemPool) (stage : List UInt256) :
    x ∈ (stage.foldl removeUnchecked pool).links side hash ↔
      x ∈ pool.links side hash ∧ ¬(hash ∈ stage ∧ (pool.coreAt hash).isSome) := by
  have hstep : ∀ (p : CTxMemPool) (r : UInt256), x ∈ (p.removeUnchecked r).links side hash ↔
      x ∈ p.links side hash ∧ ¬(hash = r ∧ (p.coreAt hash).isSome) := by
    intro p r
    unfold removeUnchecked
    cases hlook : p.mapTx.lookup r with
    | none =>
      refine (and_iff_left_of_imp ?_).symm
      rintro - ⟨rfl, hsome⟩
      simp [coreAt, hlook] at hsome
    | some e =>
      rw [links]
      by_cases heq : hash = r
      · subst heq
        simp [coreAt, hlook]
      · simp [heq, links]
  induction stage generalizing pool with
  | nil => simp
  | cons r stage ih =>
    refine (ih _).trans ?_
    rw [hstep, coreAt_removeUnchecked]
    by_cases heq : hash = r <;> simp [heq]

theorem mapNextTx_foldl_removeUnchecked (pool : CTxMemPool) (stage : List UInt256) {o : COutPoint} :
    (stage.foldl removeUnchecked pool).mapNextTx.lookup o = some hash ↔
      pool.mapNextTx.lookup o = some hash ∧
        ∀ r ∈ stage, ∀ e, pool.coreAt r = some e → o ∉ e.tx.vin.map CTxIn.prevout := by
  have hstep : ∀ (p : CTxMemPool) (r : UInt256),
      (p.removeUnchecked r).mapNextTx.lookup o = some hash ↔ p.mapNextTx.lookup o = some hash ∧
          ∀ e, p.coreAt r = some e → o ∉ e.tx.vin.map CTxIn.prevout := by
    intro p r
    unfold removeUnchecked
    cases hlook : p.mapTx.lookup r with
    | none => simp [coreAt, hlook]
    | some e =>
      simp only [lookup_eraseAll, coreAt, hlook, map_some, some.injEq, forall_eq']
      by_cases ho : o ∈ e.tx.vin.map CTxIn.prevout <;> simp [ho, forget]
  induction stage generalizing pool with
  | nil => simp
  | cons r stage ih =>
    refine (ih _).trans ?_
    rw [hstep, forall_mem_cons, and_assoc]
    refine and_congr_right fun _ => and_congr_right fun hr => ?_
    refine forall₂_congr fun r' _ => ?_
    rw [coreAt_removeUnchecked]
    by_cases heq : r' = r
    · simpa [heq] using hr
    · rw [if_neg heq]

/-- An entry of the pool spends an output of another. -/
def SpendsFrom (pool : CTxMemPool) (child parent : UInt256) : Prop :=
  ∃ e, pool.coreAt child = some e ∧ (pool.coreAt parent).isSome ∧
    ∃ txin ∈ e.tx.vin, txin.prevout.hash = parent

/-- `mapNextTx` and `mapLinks` are exactly those that the inputs give. -/
structure Linked (pool : CTxMemPool) : Prop where
  hash : ∀ hash e, pool.coreAt hash = some e → e.tx.hash = hash
  spends : ∀ o hash, pool.mapNextTx.lookup o = some hash ↔
    ∃ e, pool.coreAt hash = some e ∧ o ∈ e.tx.vin.map CTxIn.prevout
  parents : ∀ child parent, parent ∈ pool.links .parents child ↔ pool.SpendsFrom child parent
  children : ∀ child parent, child ∈ pool.links .children parent ↔ pool.SpendsFrom child parent

theorem spendsFrom_removeStaged {child parent : UInt256} :
    (pool.removeStaged stage).SpendsFrom child parent ↔
      pool.SpendsFrom child parent ∧ child ∉ stage ∧ parent ∉ stage := by
  simp only [SpendsFrom, coreAt_removeStaged]
  by_cases hchild : child ∈ stage
  · simp [hchild]
  · by_cases hparent : parent ∈ stage <;> simp [hchild, hparent]

/-- Removing any set of entries leaves consistent links. -/
theorem Linked.removeStaged (hpool : pool.Linked) (stage : List UInt256) :
    (pool.removeStaged stage).Linked := by
  have hframe := updateForRemoveFromMempool_frame pool stage
  have hsome : ∀ child parent, pool.SpendsFrom child parent →
      (pool.coreAt child).isSome ∧ (pool.coreAt parent).isSome := by
    rintro child parent ⟨e, he, hparent, -⟩
    exact ⟨by rw [he]; rfl, hparent⟩
  refine ⟨fun hash e he => ?_, fun o hash => ?_, fun child parent => ?_, fun child parent => ?_⟩
  · rw [coreAt_removeStaged] at he
    split_ifs at he
    exact hpool.hash hash e he
  · rw [CTxMemPool.removeStaged, mapNextTx_foldl_removeUnchecked, hframe.mapNextTx,
      hpool.spends, ← CTxMemPool.removeStaged, coreAt_removeStaged]
    simp only [hframe.core]
    constructor
    · rintro ⟨⟨e, he, ho⟩, hnone⟩
      rw [if_neg fun hmem => hnone hash hmem e he ho]
      exact ⟨e, he, ho⟩
    · rintro ⟨e, he, ho⟩
      split_ifs at he with hmem
      refine ⟨⟨e, he, ho⟩, fun r hr e' he' ho' => hmem ?_⟩
      have hspender := (hpool.spends o hash).mpr ⟨e, he, ho⟩
      rw [(hpool.spends o r).mpr ⟨e', he', ho'⟩] at hspender
      exact some.inj hspender ▸ hr
  · rw [spendsFrom_removeStaged, CTxMemPool.removeStaged, mem_links_foldl_removeUnchecked,
      hframe.core, updateForRemoveFromMempool, mem_links_severParents, mem_links_severChildren,
      mem_links_severChildren, hpool.parents, hpool.children]
    have hchild := fun h => (hsome child parent h).1
    simp only [reduceCtorEq, false_and, not_false_eq_true, and_true]
    tauto
  · rw [spendsFrom_removeStaged, CTxMemPool.removeStaged, mem_links_foldl_removeUnchecked,
      hframe.core, updateForRemoveFromMempool, mem_links_severParents, mem_links_severChildren,
      hpool.parents, hpool.children]
    have hparent := fun h => (hsome child parent h).2
    tauto

theorem descendantLoop_spec {known : List UInt256} (hroots : ∀ r ∈ roots, r ∈ known)
    (hknown : ∀ x ∈ known, ∀ y ∈ pool.links .children x, y ∈ known) {fuel : ℕ}
    {done stage : List UInt256} (hwalk : Walk (pool.links .children) roots done stage)
    (hfuel : known.length ≤ fuel + done.length) :
    ∃ D, pool.descendantLoop fuel done stage = some D ∧ Walk (pool.links .children) roots D [] := by
  induction fuel generalizing done stage with
  | zero =>
    cases stage with
    | nil => exact ⟨done, rfl, hwalk⟩
    | cons it stage =>
      have := hwalk.length_le hroots hknown
      rw [length_cons] at this
      omega
  | succ fuel ih =>
    cases stage with
    | nil => exact ⟨done, rfl, hwalk⟩
    | cons it stage =>
      refine ih hwalk.step ?_
      rw [insertEntry_of_notMem hwalk.notMem, length_append, length_singleton]
      omega

theorem coreAt_isSome_iff : (pool.coreAt hash).isSome ↔ hash ∈ pool.mapTx.keys := by
  rw [coreAt, isSome_map, ← has, has_iff_mem_keys]

/-- Calls of `CalculateDescendants` add up in one set. -/
theorem Linked.calculateDescendants_walk (hpool : pool.Linked)
    (hroots : ∀ r ∈ roots, r ∈ pool.mapTx.keys) (hit : (pool.coreAt it).isSome)
    (hwalk : Walk (pool.links .children) roots D []) :
    ∃ D', pool.calculateDescendants it D = some D' ∧
      Walk (pool.links .children) (it :: roots) D' [] := by
  refine descendantLoop_spec ?_ (fun x _ y hy => ?_) (hwalk.addRoot it) (Nat.le_add_right _ _)
  · exact forall_mem_cons.mpr ⟨coreAt_isSome_iff.mp hit, hroots⟩
  · obtain ⟨e, he, -⟩ := (hpool.children y x).mp hy
    exact coreAt_isSome_iff.mp (by rw [he]; rfl)

theorem Linked.calculateDescendants (hpool : pool.Linked) (hit : (pool.coreAt it).isSome) :
    ∃ D, pool.calculateDescendants it [] = some D ∧
      ∀ x, x ∈ D ↔ Relation.ReflTransGen (fun a b => pool.SpendsFrom b a) it x := by
  obtain ⟨D, hD, hwalk⟩ := hpool.calculateDescendants_walk (by simp) hit (.start nodup_nil)
  refine ⟨D, hD, fun x => ?_⟩
  simp [hwalk.finish, Reaches, hpool.children]

theorem Linked.allDescendants (hpool : pool.Linked) {its : List UInt256}
    (hits : ∀ it ∈ its, (pool.coreAt it).isSome) (hroots : ∀ r ∈ roots, r ∈ pool.mapTx.keys)
    (hwalk : Walk (pool.links .children) roots D []) :
    ∃ D', its.foldlM (fun s it => pool.calculateDescendants it s) D = some D' ∧
      Walk (pool.links .children) (its.reverse ++ roots) D' [] := by
  induction its generalizing roots D with
  | nil => exact ⟨D, rfl, hwalk⟩
  | cons it its ih =>
    obtain ⟨hit, hits⟩ := forall_mem_cons.mp hits
    obtain ⟨D₁, h₁, hwalk₁⟩ := hpool.calculateDescendants_walk hroots hit hwalk
    obtain ⟨D', hD', hwalk'⟩ := ih hits
      (forall_mem_cons.mpr ⟨coreAt_isSome_iff.mp hit, hroots⟩) hwalk₁
    exact ⟨D', by simp [h₁, hD'], by simpa using hwalk'⟩

def spendsFrom (pool : CTxMemPool) (child parent : UInt256) : Bool :=
  pool.has parent && (pool.mapTx.lookup child).any fun e =>
    e.tx.vin.any fun txin => txin.prevout.hash = parent

/-- `Linked`, asked of the entries of the three maps only. -/
structure LinkedEntries (pool : CTxMemPool) : Prop where
  hash : ∀ x ∈ pool.mapTx.entries, x.2.tx.hash = x.1
  spent : ∀ x ∈ pool.mapTx.entries, ∀ txin ∈ x.2.tx.vin,
    pool.mapNextTx.lookup txin.prevout = some x.1 ∧ (pool.has txin.prevout.hash →
      txin.prevout.hash ∈ pool.links .parents x.1 ∧ x.1 ∈ pool.links .children txin.prevout.hash)
  spender : ∀ x ∈ pool.mapNextTx.entries, (pool.mapTx.lookup x.2).any fun e =>
    x.1 ∈ e.tx.vin.map CTxIn.prevout
  links : ∀ x ∈ pool.mapLinks.entries,
    x.2.parents.all (pool.spendsFrom x.1 ·) && x.2.children.all (pool.spendsFrom · x.1)

theorem spendsFrom_iff {child parent : UInt256} :
    pool.spendsFrom child parent ↔ pool.SpendsFrom child parent := by
  rw [spendsFrom, SpendsFrom, coreAt_isSome_iff, ← has_iff_mem_keys, coreAt]
  cases pool.mapTx.lookup child with
  | none => simp
  | some e => simp [forget]

theorem LinkedEntries.linked (h : pool.LinkedEntries) : pool.Linked := by
  have hentry : ∀ {hash e}, pool.coreAt hash = some e → ∃ e', e = forget e' ∧
      (⟨hash, e'⟩ : Sigma fun _ : UInt256 => CTxMemPoolEntry) ∈ pool.mapTx.entries := by
    intro hash e he
    obtain ⟨e', he', rfl⟩ := Option.map_eq_some_iff.mp he
    exact ⟨e', rfl, AList.mem_lookup_iff.mp he'⟩
  have hlinks : ∀ side hash other, other ∈ pool.links side hash → match side with
      | .parents => pool.SpendsFrom hash other
      | .children => pool.SpendsFrom other hash := by
    intro side hash other hother
    cases hlook : pool.mapLinks.lookup hash with
    | none => simp [CTxMemPool.links, hlook] at hother
    | some l =>
      have hall := h.links ⟨hash, l⟩ (AList.mem_lookup_iff.mp hlook)
      rw [Bool.and_eq_true, List.all_eq_true, List.all_eq_true] at hall
      rw [CTxMemPool.links, hlook] at hother
      cases side with
      | parents => exact spendsFrom_iff.mp (hall.1 other hother)
      | children => exact spendsFrom_iff.mp (hall.2 other hother)
  have hspends : ∀ {child parent}, pool.SpendsFrom child parent →
      parent ∈ pool.links .parents child ∧ child ∈ pool.links .children parent := by
    rintro child parent ⟨e, he, hparent, txin, hin, rfl⟩
    obtain ⟨e', rfl, hmem⟩ := hentry he
    exact (h.spent _ hmem txin hin).2 (has_iff_mem_keys.mpr (coreAt_isSome_iff.mp hparent))
  refine ⟨fun hash e he => ?_, fun o hash => ⟨fun hlook => ?_, ?_⟩,
    fun child parent => ⟨hlinks .parents child parent, fun hs => (hspends hs).1⟩,
    fun child parent => ⟨hlinks .children parent child, fun hs => (hspends hs).2⟩⟩
  · obtain ⟨e', rfl, hmem⟩ := hentry he
    exact h.hash _ hmem
  · have hany := h.spender ⟨o, hash⟩ (AList.mem_lookup_iff.mp hlook)
    obtain ⟨e, he, hin⟩ := (Option.any_eq_true _ _).mp hany
    exact ⟨forget e, by rw [coreAt, he]; rfl, of_decide_eq_true hin⟩
  · rintro ⟨e, he, ho⟩
    obtain ⟨e', rfl, hmem⟩ := hentry he
    obtain ⟨txin, hin, rfl⟩ := mem_map.mp ho
    exact (h.spent _ hmem txin hin).1

theorem poolOfOne_linked : poolOfOne.Linked :=
  LinkedEntries.linked ⟨by decide +kernel, by decide +kernel, by decide +kernel, by decide +kernel⟩

end CTxMemPool
end ImageCoin
