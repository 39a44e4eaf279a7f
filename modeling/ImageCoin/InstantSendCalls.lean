import ImageCoin.InstantSend

/-!
# Calls of InstantSend

The votes that a masternode signs itself, the votes that it receives, the news of
blocks and transactions, and the step that a call takes.  A step also gives the votes
that were signed in it.
-/

namespace ImageCoin

open MapEntries

def memcmpLt : Bytes → Bytes → Bool
  | a :: as, b :: bs => a < b || (a = b && memcmpLt as bs)
  | _, _ => false

def COutPoint.lt (a b : COutPoint) : Bool :=
  memcmpLt (serializeUInt256 a.hash) (serializeUInt256 b.hash) || (a.hash = b.hash && a.n < b.n)

def mapOrder (keys : List COutPoint) : List COutPoint :=
  keys.insertionSort fun a b => !b.lt a

namespace CInstantSend

variable (crypto : LockCrypto) (s : CInstantSend) (env : InstantSendEnv)

/-- Whether one of the transactions that the outpoint was voted for has the own vote. -/
def alreadyVoted (outpoint : COutPoint) : Bool :=
  match s.mapVotedOutpoints.lookup outpoint with
  | none => false
  | some hashes =>
    hashes.any fun hash =>
      match s.mapTxLockCandidates.lookup hash with
      | some candidate =>
        candidate.hasMasternodeVoted outpoint env.activeMasternode.outpoint
      | none => env.readPastEnd

inductive VoteDecision where
  /-- The loop is left. -/
  | stop
  | skip
  | sign (vote : CTxLockVote)
  deriving DecidableEq

variable (txHash : UInt256) (outpoint : COutPoint)

def voteDecision : VoteDecision :=
  match env.getUTXOCoin outpoint with
  | none => .stop
  | some coin =>
    match env.getMasternodeRank env.activeMasternode.outpoint (coin.nHeight.toNat + 4)
        minInstantsendProtoVersion with
    | none => .skip
    | some nRank =>
      if nRank > signaturesTotal then .skip
      else if s.alreadyVoted env outpoint then .skip
      else
        let vote : CTxLockVote :=
          ⟨txHash, outpoint, env.activeMasternode.outpoint, [], -1, env.getTime⟩
        match vote.sign crypto env with
        | none => .stop
        | some vote => if vote.checkSignature crypto env then .sign vote else .stop

def recordVoted (txHash : UInt256) : CInstantSend :=
  { s with
    mapVotedOutpoints := s.mapVotedOutpoints.insert outpoint
      (List.insert txHash ((s.mapVotedOutpoints.lookup outpoint).getD [])) }

def storeVote (vote : CTxLockVote) : CInstantSend :=
  { s with mapTxLockVotes := insertNew s.mapTxLockVotes (vote.getHash crypto) vote }

def storeOwnVote (key : UInt256) (vote : CTxLockVote) : CInstantSend :=
  let s := s.storeVote crypto vote
  match (s.mapTxLockCandidates.lookup key).bind (·.addVote vote) with
  | none => s
  | some candidate => (s.setCandidate key candidate).recordVoted vote.outpoint vote.txHash

def voteLoop (env : InstantSendEnv) (key txHash : UInt256) :
    List COutPoint → CInstantSend → CInstantSend × List CTxLockVote
  | [], s => (s, [])
  | outpoint :: outpoints, s =>
    match s.voteDecision crypto env txHash outpoint with
    | .stop => (s, [])
    | .skip => voteLoop env key txHash outpoints s
    | .sign vote =>
      let rest := voteLoop env key txHash outpoints (s.storeOwnVote crypto key vote)
      (rest.1, vote :: rest.2)

def voteCandidate (key : UInt256)
    (txLockCandidate : CTxLockCandidate) : CInstantSend × List CTxLockVote :=
  if !env.fMasterNode then (s, [])
  else if !env.instantSendEnabled then (s, [])
  else if (s.mapLockRequestAccepted.lookup txLockCandidate.getHash).isNone then (s, [])
  else
    voteLoop crypto env key txLockCandidate.getHash
      (mapOrder txLockCandidate.mapOutPointLocks.keys) s

def finalizeNow : CInstantSend :=
  match s.mapTxLockCandidates.lookup txHash with
  | some candidate => s.tryToFinalizeLockCandidate env candidate
  | none => s

def vote (s : CInstantSend) (env : InstantSendEnv) (txHash : UInt256) :
    CInstantSend × List CTxLockVote :=
  match s.mapTxLockCandidates.lookup txHash with
  | none => (s, [])
  | some candidate =>
    let voted := s.voteCandidate crypto env txHash candidate
    (voted.1.finalizeNow env txHash, voted.2)

/-- The verdict on a lock request: nothing passes that conflicts with a completed lock
or with a transaction of the mempool, as it has a candidate by now. -/
def acceptToMemoryPool (s : CInstantSend) (env : InstantSendEnv) (tx : CTransaction) :
    MempoolVerdict :=
  if tx.vin.any fun txin =>
      (s.mapLockedOutpoints.lookup txin.prevout).any fun hashLocked => tx.hash ≠ hashLocked
  then .refused
  else if tx.vin.any fun txin =>
      (env.mapNextTx txin.prevout).any fun hashConflicting =>
        s.hasTxLockRequest hashConflicting || s.hasTxLockRequest tx.hash
  then .refused
  else env.acceptToMemoryPool tx

def processVerdict (tx : CTransaction) : CInstantSend × List CTxLockVote :=
  if s.alreadyHave tx.hash then (s, [])
  else
    match s.acceptToMemoryPool env tx with
    | .accepted => (s.acceptLockRequest tx).vote crypto env tx.hash
    | .missingInputs => (s, [])
    | .refused => (s.rejectLockRequest tx, [])

def isEnoughOrphanVotesForTxAndOutPoint : Bool :=
  signaturesRequired ≤ (s.mapTxLockVotesOrphan.entries.filter fun e =>
    e.2.txHash = txHash && e.2.outpoint = outpoint).length

def isEnoughOrphanVotesForTx (s : CInstantSend) (txLockRequest : CTxLockRequest) : Bool :=
  txLockRequest.prevouts.all fun o =>
    s.isEnoughOrphanVotesForTxAndOutPoint txLockRequest.getHash o

def getAverageMasternodeOrphanVoteTime : ℤ :=
  if s.mapMasternodeOrphanVotes.entries.isEmpty then 0
  else
    let total := (s.mapMasternodeOrphanVotes.entries.map (·.2)).sum
    (total % 2 ^ 64 / s.mapMasternodeOrphanVotes.entries.length).bmod (2 ^ 64)

variable (vote : CTxLockVote)

def trackOrphanVote : Bool × CInstantSend :=
  -- The time is cut to an `int`.
  let nMasternodeOrphanExpireTime := (env.getTime + 60 * 10).bmod (2 ^ 32)
  let refreshed :=
    { s with
      mapMasternodeOrphanVotes := s.mapMasternodeOrphanVotes.insert vote.outpointMasternode
        nMasternodeOrphanExpireTime }
  match s.mapMasternodeOrphanVotes.lookup vote.outpointMasternode with
  | none => (true, refreshed)
  | some nPrevOrphanVote =>
    if nPrevOrphanVote > env.getTime &&
        nPrevOrphanVote > s.getAverageMasternodeOrphanVoteTime then (false, s)
    else (true, refreshed)

def knownRequest : Option CTxLockRequest :=
  (s.mapLockRequestAccepted.lookup txHash).or (s.mapLockRequestRejected.lookup txHash)

def storeOrphanVote : CInstantSend :=
  let s := s.createEmptyTxLockCandidate env vote.txHash
  { s with
    mapTxLockVotesOrphan := s.mapTxLockVotesOrphan.insert (vote.getHash crypto) vote }

def processOrphanVote : Bool × CInstantSend :=
  if (s.mapTxLockVotesOrphan.lookup (vote.getHash crypto)).isSome then
    s.trackOrphanVote env vote
  else
    let s := s.storeOrphanVote crypto env vote
    match s.knownRequest vote.txHash with
    | none => s.trackOrphanVote env vote
    | some txLockRequest =>
      if s.isEnoughOrphanVotesForTx txLockRequest then
        (true, (s.processTxLockRequest env txLockRequest).2)
      else s.trackOrphanVote env vote

/-- The loop over the other transactions that the outpoint was voted for: where the
masternode voted as well, both candidates are marked as attacked. -/
def markConflicting (vote : CTxLockVote) : List UInt256 → CInstantSend → CInstantSend
  | [], s => s
  | hash :: hashes, s =>
    let voted := hash ≠ vote.txHash && (s.mapTxLockCandidates.lookup hash).any fun other =>
      other.hasMasternodeVoted vote.outpoint vote.outpointMasternode
    if voted then
      markConflicting vote hashes
        { s with
          mapTxLockCandidates :=
            adjust (adjust s.mapTxLockCandidates vote.txHash
                (·.markOutpointAsAttacked vote.outpoint))
              hash (·.markOutpointAsAttacked vote.outpoint) }
    else markConflicting vote hashes s

def countVote : Bool × CInstantSend :=
  let hashes := (s.mapVotedOutpoints.lookup vote.outpoint).getD []
  -- The transaction is recorded for the outpoint even if it does not spend it.
  let s := (markConflicting vote hashes s).recordVoted vote.outpoint vote.txHash
  match (s.mapTxLockCandidates.lookup vote.txHash).bind (·.addVote vote) with
  | none => (false, s)
  | some candidate =>
    (true, (s.setCandidate vote.txHash candidate).tryToFinalizeLockCandidate env candidate)

def processTxLockVote : Bool × CInstantSend :=
  if !vote.isValid crypto env then (false, s)
  else
    match s.mapTxLockCandidates.lookup vote.txHash with
    | none => s.processOrphanVote crypto env vote
    | some candidate =>
      if candidate.txLockRequest.isNone then s.processOrphanVote crypto env vote
      else if candidate.isTimedOut env then (false, s)
      else s.countVote env vote

variable (nVersion : ℤ)

def ignores (vote : CTxLockVote) : Bool :=
  env.fLiteMode || !env.instantSendEnabled || nVersion < minInstantsendProtoVersion ||
    !env.isMasternodeListSynced || (s.mapTxLockVotes.lookup (vote.getHash crypto)).isSome

def processMessage (vote : CTxLockVote) : CInstantSend :=
  if s.ignores crypto env nVersion vote then s
  else ((s.storeVote crypto vote).processTxLockVote crypto env vote).2

variable (nHeightNew : ℤ)

def setVoteHeights (hashes : List UInt256)
    (votes : Map UInt256 CTxLockVote) : Map UInt256 CTxLockVote :=
  hashes.foldl (fun votes hash => adjust votes hash (·.setConfirmedHeight nHeightNew)) votes

def setOrphanHeights (hashes : List UInt256)
    (votes : Map UInt256 CTxLockVote) : Map UInt256 CTxLockVote :=
  hashes.foldl (fun votes hash =>
    votes.insert hash
      (((votes.lookup hash).getD (.empty env)).setConfirmedHeight nHeightNew)) votes

def candidateVoteHashes (candidate : CTxLockCandidate) : List UInt256 :=
  candidate.mapOutPointLocks.entries.flatMap fun e => e.2.getVotes.map (·.getHash crypto)

def orphanVoteHashes : List UInt256 :=
  (s.mapTxLockVotesOrphan.entries.filter fun e => e.2.txHash = txHash).map (·.1)

def confirmAt : CInstantSend :=
  let hashes := ((s.mapTxLockCandidates.lookup txHash).map
    (candidateVoteHashes crypto)).getD []
  { s with
    mapTxLockCandidates :=
      adjust s.mapTxLockCandidates txHash (·.setConfirmedHeight nHeightNew)
    mapTxLockVotes :=
      setOrphanHeights env nHeightNew (s.orphanVoteHashes txHash)
        (setVoteHeights nHeightNew hashes s.mapTxLockVotes) }

def syncTransaction (tx : CTransaction) (pblock : Option UInt256) : CInstantSend :=
  if tx.isCoinBase then s
  else
    match pblock with
    | none => s.confirmAt crypto env tx.hash (-1)
    | some blockHash =>
      match env.blockHeight blockHash with
      | none => s
      | some nHeight => s.confirmAt crypto env tx.hash nHeight

end CInstantSend

inductive InstantSendCall where
  /-- A `TXLOCKVOTE` message with the version of the peer that sent it. -/
  | txLockVote (nVersion : ℤ) (vote : CTxLockVote)
  | txLockRequest (tx : CTransaction)
  | verdict (tx : CTransaction)
  | updatedBlockTip (nHeight : ℤ)
  | syncTransaction (tx : CTransaction) (pblock : Option UInt256)
  | checkAndRemove

structure InstantSendStep where
  env : InstantSendEnv
  call : InstantSendCall

namespace CInstantSend

variable (crypto : LockCrypto) (s : CInstantSend) (a : InstantSendStep)

def step : CInstantSend × List CTxLockVote :=
  match a.call with
  | .txLockVote nVersion vote =>
    (s.processMessage crypto a.env nVersion (vote.received a.env), [])
  | .txLockRequest tx => ((s.processTxLockRequest a.env (some tx)).2, [])
  | .verdict tx => s.processVerdict crypto a.env tx
  | .updatedBlockTip nHeight => ({ s with nCachedBlockHeight := nHeight }, [])
  | .syncTransaction tx pblock => (s.syncTransaction crypto a.env tx pblock, [])
  | .checkAndRemove => (s.checkAndRemove a.env, [])

def next : CInstantSend := (s.step crypto a).1

def runSteps (steps : List InstantSendStep) : CInstantSend :=
  steps.foldl (next crypto) s

end CInstantSend
end ImageCoin
