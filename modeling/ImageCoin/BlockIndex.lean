import ImageCoin.Chain

/-!
# The block index

`mapBlockIndex` with the data that follow from it: the active chain, the candidates for its
tip, and the blocks that wait for an ancestor.
-/

namespace ImageCoin

/-- What the headers of the blocks fix.  The work of a chain grows with each
block, since a header without work fails its proof of work. -/
structure BlockHeaders (ι : Type) extends BlockChains ι where
  genesis : ι
  pprev_genesis : pprev genesis = none
  nChainWork : ι → ℕ
  nChainWork_child : ∀ {b p}, pprev b = some p → nChainWork p < nChainWork b

def blockValidTree : ℕ := 2

def blockValidTransactions : ℕ := 3

def blockValidChain : ℕ := 4

def blockValidScripts : ℕ := 5

/-- The fields of `CBlockIndex` that change, with `nStatus` by its parts. -/
structure IndexEntry where
  validity : ℕ := 0
  haveData : Bool := false
  haveUndo : Bool := false
  failedValid : Bool := false
  failedChild : Bool := false
  nFile : ℕ := 0
  nTx : ℕ := 0
  nChainTx : ℕ := 0
  nSequenceId : ℕ := 0
deriving DecidableEq

namespace IndexEntry

def failed (e : IndexEntry) : Bool := e.failedValid || e.failedChild

variable (e : IndexEntry)

def isValid (nUpTo : ℕ) : Bool :=
  !e.failed && decide (nUpTo ≤ e.validity)

def raiseValidity (nUpTo : ℕ) : IndexEntry :=
  if e.failed then e
  else if e.validity < nUpTo then { e with validity := nUpTo }
  else e

def clearFailed : IndexEntry :=
  { e with failedValid := false, failedChild := false }

end IndexEntry

/-- `mapBlockIndex`, the tip of `chainActive`, `setBlockIndexCandidates` and
`mapBlocksUnlinked`. -/
structure BlockIndex {ι : Type} (m : BlockHeaders ι) where
  known : Finset ι
  entry : ι → IndexEntry
  tip : ι
  candidates : Finset ι
  unlinked : List (ι × ι)
  nBlockSequenceId : ℕ
  fHavePruned : Bool

namespace BlockIndex

variable {ι : Type} [LinearOrder ι] {m : BlockHeaders ι} (s : BlockIndex m) (b : ι)

def active : Prop := m.tree.Below b s.tip

instance (s : BlockIndex m) (b : ι) : Decidable (s.active b) :=
  inferInstanceAs (Decidable (m.tree.Below b s.tip))

def worse (pa pb : ι) : Bool :=
  -- First sort by most total work, ...
  if m.nChainWork pa > m.nChainWork pb then false
  else if m.nChainWork pa < m.nChainWork pb then true
  -- ... then by earliest time received, ...
  else if (s.entry pa).nSequenceId < (s.entry pb).nSequenceId then false
  else if (s.entry pa).nSequenceId > (s.entry pb).nSequenceId then true
  -- ... with the address as tie breaker.
  else if pa < pb then false
  else decide (pa > pb)

abbrev Key (ι : Type) : Type := ℕ ×ₗ ℕᵒᵈ ×ₗ ιᵒᵈ

def key : Key ι :=
  toLex (m.nChainWork b, toLex (OrderDual.toDual (s.entry b).nSequenceId, OrderDual.toDual b))

def modify (f : IndexEntry → IndexEntry) : ι → IndexEntry :=
  Function.update s.entry b (f (s.entry b))

/-- A header enters only if its parent is in the index, as `AcceptBlockHeader`
requires. -/
def addToBlockIndex : Option (BlockIndex m) :=
  if b ∈ s.known then some s
  else
    match m.pprev b with
    | none => none
    | some p =>
      if p ∈ s.known then
        some { s with
          known := insert b s.known
          entry := Function.update s.entry b
            (IndexEntry.raiseValidity {} blockValidTree) }
      else none

def chainTxBefore : ℕ :=
  match m.pprev b with
  | none => 0
  | some p => (s.entry p).nChainTx

def numbered : BlockIndex m :=
  { s with
    entry := s.modify b fun e => { e with
      nChainTx := s.chainTxBefore b + e.nTx
      nSequenceId := s.nBlockSequenceId }
    nBlockSequenceId := s.nBlockSequenceId + 1 }

def link : BlockIndex m :=
  { s with
    entry := (s.numbered b).entry
    candidates := if (s.numbered b).worse b s.tip then s.candidates
      else insert b s.candidates
    unlinked := s.unlinked.filter fun pair => pair.1 ≠ b
    nBlockSequenceId := s.nBlockSequenceId + 1 }

def waiting : List ι :=
  (s.unlinked.filter (fun pair => pair.1 = b)).map Prod.snd

def linkQueue : ℕ → List ι → BlockIndex m → BlockIndex m
  | _, [], s => s
  | 0, _ :: _, s => s
  | fuel + 1, pindex :: queue, s =>
    linkQueue fuel (queue ++ s.waiting pindex) (s.link pindex)

def markReceived (nTx nFile : ℕ) : BlockIndex m :=
  { s with
    entry := s.modify b fun e => IndexEntry.raiseValidity
      { e with nTx := nTx, nChainTx := 0, nFile := nFile, haveData := true }
      blockValidTransactions }

def waitFor (p b : ι) : BlockIndex m :=
  { s with unlinked := s.unlinked ++ [(p, b)] }

def receivedBlockTransactions (nTx nFile : ℕ) : BlockIndex m :=
  let received := s.markReceived b nTx nFile
  match m.pprev b with
  | none => linkQueue (s.unlinked.length + 1) [b] received
  | some p =>
    if (received.entry p).nChainTx ≠ 0 then
      linkQueue (s.unlinked.length + 1) [b] received
    else if (received.entry p).isValid blockValidTree then
      received.waitFor p b
    else received

/-- `PruneOneBlockFile`, and the flag that `FlushStateToDisk` sets with it. -/
def pruneOneBlockFile (fileNumber : ℕ) : BlockIndex m :=
  { s with
    entry := fun b =>
      if b ∈ s.known ∧ (s.entry b).nFile = fileNumber then
        { s.entry b with haveData := false, haveUndo := false, nFile := 0 }
      else s.entry b
    unlinked := s.unlinked.filter fun pair =>
      ¬(pair.2 ∈ s.known ∧ (s.entry pair.2).nFile = fileNumber)
    fHavePruned := true }

def bestCandidate : Option ι :=
  match (s.candidates.image s.key).max with
  | none => none
  | some best => some (OrderDual.ofDual (ofLex (ofLex best).2).2)

/-- What the walk from a candidate to the active chain finds: the first block
that cannot be used and the blocks above it. -/
inductive PathCheck (ι : Type) where
  | usable
  | unusable (above : List ι) (pindexTest : ι)
  | assertFailed
deriving DecidableEq

def PathCheck.cons : PathCheck ι → PathCheck ι
  | .unusable above pindexTest => .unusable (b :: above) pindexTest
  | check => check

def checkPath (s : BlockIndex m) : ℕ → ι → PathCheck ι
  | 0, _ => .usable
  | fuel + 1, pindexTest =>
    if s.active pindexTest then .usable
    else if (s.entry pindexTest).nChainTx = 0 ∧ m.nHeight pindexTest ≠ 0 then
      .assertFailed
    else if (s.entry pindexTest).failed ∨ ¬(s.entry pindexTest).haveData then
      .unusable [] pindexTest
    else
      match m.pprev pindexTest with
      | none => .usable
      | some p => (checkPath s fuel p).cons pindexTest

/-- Removes a chain that cannot be used from the candidates: it descends from a
failed block, or waits for data. -/
def removeChain (above : List ι) (pindexTest : ι) : BlockIndex m :=
  if (s.entry pindexTest).failed then
    { s with
      entry := fun b =>
        if b ∈ above then { s.entry b with failedChild := true } else s.entry b
      candidates := s.candidates.filter (· ∉ pindexTest :: above) }
  else
    { s with
      unlinked := s.unlinked ++ above.filterMap fun b => (m.pprev b).map fun p => (p, b)
      candidates := s.candidates.filter (· ∉ pindexTest :: above) }

/-- The loop of `FindMostWorkChain`; there is no result if an assertion fails. -/
def findMostWorkLoop : ℕ → BlockIndex m → Option (Option ι × BlockIndex m)
  | 0, _ => none
  | fuel + 1, s =>
    match s.bestCandidate with
    | none => some (none, s)
    | some pindexNew =>
      match s.checkPath (m.nHeight pindexNew + 1) pindexNew with
      | .usable => some (some pindexNew, s)
      | .unusable above pindexTest =>
        findMostWorkLoop fuel (s.removeChain above pindexTest)
      | .assertFailed => none

def findMostWorkChain : Option (Option ι × BlockIndex m) :=
  findMostWorkLoop (s.candidates.card + 1) s

def pruneBlockIndexCandidates : BlockIndex m :=
  { s with candidates := s.candidates.filter fun b => ¬s.worse b s.tip }

/-- What `ConnectBlock` may say of a block. -/
inductive ConnectResult where
  | ok
  | invalid (corruptionPossible : Bool)
  | systemError
deriving DecidableEq

def disconnectTip : Option (BlockIndex m) :=
  if (s.entry s.tip).haveData ∧ (s.entry s.tip).haveUndo then
    (m.pprev s.tip).map fun p => { s with tip := p }
  else none

def findForkLoop (s : BlockIndex m) : ℕ → ι → Option ι
  | 0, _ => none
  | fuel + 1, pindex =>
    if s.active pindex then some pindex
    else (m.pprev pindex).bind (findForkLoop s fuel)

def findFork (s : BlockIndex m) (pindex : ι) : Option ι :=
  let start := if m.nHeight pindex > m.nHeight s.tip
    then m.getAncestor pindex (m.nHeight s.tip) else some pindex
  start.bind fun b => s.findForkLoop (m.nHeight b + 1) b

/-- How a part of `ActivateBestChainStep` ends. -/
inductive StepEnd {ι : Type} (m : BlockHeaders ι) where
  | progress (s : BlockIndex m)
  | invalidFound (s : BlockIndex m)
  | systemError (s : BlockIndex m)
  | assertFailed

def disconnectTo (fork : ι) : ℕ → BlockIndex m → StepEnd m
  | 0, s => .progress s
  | fuel + 1, s =>
    if s.tip = fork then .progress s
    else
      match s.disconnectTip with
      | none => .systemError s
      | some s' => disconnectTo fork fuel s'

/-- The blocks to connect, from the one above the fork up to `pindexMostWork`.
The code collects them 32 at a time. -/
def blocksToConnect (m : BlockHeaders ι) (fork : ι) : ℕ → ι → List ι → List ι
  | 0, _, vpindexToConnect => vpindexToConnect
  | fuel + 1, pindexIter, vpindexToConnect =>
    if pindexIter = fork then vpindexToConnect
    else
      match m.pprev pindexIter with
      | none => vpindexToConnect
      | some p => blocksToConnect m fork fuel p (pindexIter :: vpindexToConnect)

def connected : BlockIndex m :=
  { s with
    entry := s.modify b fun e =>
      IndexEntry.raiseValidity { e with haveUndo := true } blockValidScripts
    tip := b }

def invalidBlockFound : BlockIndex m :=
  { s with
    entry := s.modify b fun e => { e with failedValid := true }
    candidates := s.candidates.erase b }

def connectTip (result : ConnectResult) : StepEnd m :=
  if m.pprev b ≠ some s.tip then .assertFailed
  else if ¬(s.entry b).haveData then .systemError s
  else
    match result with
    | .ok => .progress (s.connected b)
    | .invalid false => .invalidFound (s.invalidBlockFound b)
    | .invalid true => .invalidFound s
    | .systemError => .systemError s

def connectBlocks (pindexOldTip : ι) (results : ι → ConnectResult) :
    List ι → BlockIndex m → StepEnd m
  | [], s => .progress s
  | b :: rest, s =>
    match s.connectTip b (results b) with
    | .progress s' =>
      let pruned := s'.pruneBlockIndexCandidates
      if pruned.candidates = ∅ then .assertFailed
      -- We're in a better position than we were.
      else if m.nChainWork pindexOldTip < m.nChainWork pruned.tip then
        .progress pruned
      else connectBlocks pindexOldTip results rest pruned
    | stop => stop

variable (pindexMostWork : ι) (results : ι → ConnectResult)

def activateBestChainStep : StepEnd m :=
  match s.findFork pindexMostWork with
  | none => .assertFailed
  | some fork =>
    match disconnectTo fork (m.nHeight s.tip) s with
    | .progress s' => connectBlocks s.tip results
        (blocksToConnect m fork (m.nHeight pindexMostWork) pindexMostWork []) s'
    | stop => stop

/-- How one turn of the loop of `ActivateBestChain` ends. -/
inductive Turn {ι : Type} (m : BlockHeaders ι) where
  | returned (s : BlockIndex m)
  | again (s : BlockIndex m) (pindexMostWork : Option ι)
  | systemError (s : BlockIndex m)
  | assertFailed

def turnTowards : Turn m :=
  if pindexMostWork = s.tip then .returned s
  else
    match s.activateBestChainStep pindexMostWork results with
    | .progress s' => if s'.tip = pindexMostWork then .returned s'
        else .again s' (some pindexMostWork)
    | .invalidFound s' => .again s' none
    | .systemError s' => .systemError s'
    | .assertFailed => .assertFailed

/-- A turn works towards the block of the last one, or looks for the best one. -/
def activateTurn (pindexMostWork : Option ι) (results : ι → ConnectResult) : Turn m :=
  match pindexMostWork with
  | some b => s.turnTowards b results
  | none =>
    match s.findMostWorkChain with
    | none => .assertFailed
    | some (none, s') => .returned s'
    | some (some b, s') => s'.turnTowards b results

inductive RunEnd where
  | returned
  | systemError
  | shutdown
  | assertFailed
deriving DecidableEq

/-- The states at the ends of the turns of a run, the state that it leaves and
why it ends. -/
structure ActivationRun {ι : Type} (m : BlockHeaders ι) where
  turns : List (BlockIndex m)
  final : BlockIndex m
  ending : RunEnd

/-- `ActivateBestChain`, by what `ConnectBlock` says in each turn up to a
shutdown. -/
def activateBestChain : List (ι → ConnectResult) → BlockIndex m → Option ι → ActivationRun m
  | [], s, _ => ⟨[], s, .shutdown⟩
  | results :: rest, s, pindexMostWork =>
    match s.activateTurn pindexMostWork results with
    | .returned s' => ⟨[], s', .returned⟩
    | .again s' pindexMostWork' =>
      let run := activateBestChain rest s' pindexMostWork'
      ⟨s' :: run.turns, run.final, run.ending⟩
    | .systemError s' => ⟨[], s', .systemError⟩
    | .assertFailed => ⟨[], s, .assertFailed⟩

def markTip : BlockIndex m :=
  { s with
    entry := s.modify s.tip fun e => { e with failedChild := true }
    candidates := s.candidates.erase s.tip }

/-- Disconnects the active chain down to below `pindex`; `false` if `DisconnectTip`
fails. -/
def disconnectFrom (pindex : ι) : ℕ → BlockIndex m → BlockIndex m × Bool
  | 0, s => (s, true)
  | fuel + 1, s =>
    if s.active pindex then
      match s.markTip.disconnectTip with
      | none => (s.markTip, false)
      | some s' => disconnectFrom pindex fuel s'
    else (s, true)

def restoreCandidates : BlockIndex m :=
  { s with
    candidates := s.candidates ∪ s.known.filter fun b =>
      (s.entry b).isValid blockValidTransactions ∧ (s.entry b).nChainTx ≠ 0 ∧ ¬s.worse b s.tip }

variable (pindex : ι)

def invalidateBlock : BlockIndex m × Bool :=
  -- `InvalidBlockFound` marks a block and drops it in the same way.
  match disconnectFrom pindex (m.nHeight s.tip + 1) (s.invalidBlockFound pindex) with
  | (s', true) => (s'.restoreCandidates, true)
  | (s', false) => (s', false)

def reconsidered (pindex b : ι) : Prop :=
  b ∈ s.known ∧ ¬(s.entry b).isValid blockValidTransactions ∧
    m.getAncestor b (m.nHeight pindex) = some pindex

instance (s : BlockIndex m) (pindex b : ι) : Decidable (s.reconsidered pindex b) :=
  inferInstanceAs (Decidable (b ∈ s.known ∧ ¬(s.entry b).isValid blockValidTransactions ∧
      m.getAncestor b (m.nHeight pindex) = some pindex))

def clearDescendants : BlockIndex m :=
  { s with
    entry := fun b =>
      if s.reconsidered pindex b then (s.entry b).clearFailed else s.entry b
    candidates := s.candidates ∪ s.known.filter fun b => s.reconsidered pindex b ∧
      (s.entry b).clearFailed.isValid blockValidTransactions ∧
        (s.entry b).nChainTx ≠ 0 ∧ s.worse s.tip b }

def clearAncestors : BlockIndex m :=
  { s with
    entry := fun b =>
      if m.tree.Below b pindex then (s.entry b).clearFailed else s.entry b }

def reconsiderBlock : BlockIndex m :=
  (s.clearDescendants pindex).clearAncestors pindex

end BlockIndex
end ImageCoin
