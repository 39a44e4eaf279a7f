import ImageCoin.ChainParams
import ImageCoin.Coins
import ImageCoin.MapEntries
import ImageCoin.MasternodePayments

/-!
# InstantSend

`CInstantSend` of `instantx.cpp`: lock requests, the votes of masternodes on their inputs, and
the locks that follow.
-/

namespace ImageCoin

open MapEntries

def instantsendConfirmationsRequired : ℤ := 6

def minInstantsendProtoVersion : ℤ := 70208

def instantsendLockTimeoutSeconds : ℤ := 15

def instantsendFailedTimeoutSeconds : ℤ := 60

def signaturesRequired : ℕ := 6

def signaturesTotal : ℤ := 10

def nInstantSendKeepLock : Network → ℤ
  | .main => 24
  | .test => 6
  | .regtest => 6

inductive MempoolVerdict where
  | accepted
  | missingInputs
  | refused
  deriving DecidableEq

structure CActiveMasternode where
  outpoint : COutPoint
  pubKeyMasternode : Bytes
  /-- `CMessageSigner::SignMessage` with `keyMasternode` -/
  signMessage : List Char → Option Bytes

structure LockCrypto where
  /-- `CHashWriter` -/
  hash : Bytes → UInt256
  /-- `CMessageSigner::VerifyMessage` of a key, a signature and a message. -/
  verifyMessage : Bytes → Bytes → List Char → Bool

/-- What the node knows when a call is made. -/
structure InstantSendEnv where
  net : Network
  getTime : ℤ
  fLiteMode : Bool
  fEnableInstantSend : Bool
  fLargeWorkForkFound : Bool
  fLargeWorkInvalidChainFound : Bool
  /-- `SPORK_2_INSTANTSEND_ENABLED` -/
  instantSendEnabled : Bool
  /-- `SPORK_3_INSTANTSEND_BLOCK_FILTERING` -/
  blockFiltering : Bool
  /-- `SPORK_5_INSTANTSEND_MAX_VALUE` -/
  maxValue : CAmount
  isMasternodeListSynced : Bool
  chainHeight : ℤ
  checkFinalTx : CTransaction → Bool
  getUTXOCoin : COutPoint → Option Coin
  getMasternodeInfo : COutPoint → Option MasternodeInfo
  getMasternodeRank : COutPoint → ℤ → ℤ → Option ℤ
  /-- The transaction of the mempool that spends an output. -/
  mapNextTx : COutPoint → Option UInt256
  /-- What `AcceptToMemoryPool` says if no lock is in the way. -/
  acceptToMemoryPool : CTransaction → MempoolVerdict
  /-- Whether `GetTransaction` finds the transaction in a block. -/
  includedInBlock : UInt256 → Bool
  /-- The height of a block of `mapBlockIndex`. -/
  blockHeight : UInt256 → Option ℕ
  fMasterNode : Bool
  activeMasternode : CActiveMasternode
  /-- What `Vote` reads through the iterator that it does not check, if there is no
  candidate. -/
  readPastEnd : Bool

structure CTxLockVote where
  txHash : UInt256
  outpoint : COutPoint
  outpointMasternode : COutPoint
  vchMasternodeSignature : Bytes
  nConfirmedHeight : ℤ
  nTimeCreated : ℤ
  deriving DecidableEq

namespace CTxLockVote

def empty (env : InstantSendEnv) : CTxLockVote :=
  ⟨0, ⟨0, 0xffffffff⟩, ⟨0, 0xffffffff⟩, [], -1, env.getTime⟩

variable (vote : CTxLockVote) (env : InstantSendEnv)

/-- A vote read from a message: the fields that are in local memory only start anew. -/
def received : CTxLockVote :=
  { vote with nConfirmedHeight := -1, nTimeCreated := env.getTime }

def setConfirmedHeight (nConfirmedHeightIn : ℤ) (vote : CTxLockVote) : CTxLockVote :=
  { vote with nConfirmedHeight := nConfirmedHeightIn }

def strMessage : List Char :=
  uint256ToString vote.txHash ++ vote.outpoint.toStringShort

def isExpired (nHeight : ℤ) : Bool :=
  vote.nConfirmedHeight ≠ -1 && nHeight - vote.nConfirmedHeight > nInstantSendKeepLock env.net

def isTimedOut : Bool :=
  env.getTime - vote.nTimeCreated > instantsendLockTimeoutSeconds

variable (crypto : LockCrypto)

def getHash (vote : CTxLockVote) : UInt256 :=
  crypto.hash (serializeUInt256 vote.txHash ++
    (vote.outpoint.serialize ++ vote.outpointMasternode.serialize))

def checkSignature (vote : CTxLockVote) (env : InstantSendEnv) : Bool :=
  match env.getMasternodeInfo vote.outpointMasternode with
  | none => false
  | some infoMn =>
    crypto.verifyMessage infoMn.pubKeyMasternode vote.vchMasternodeSignature vote.strMessage

def isValid (vote : CTxLockVote) (env : InstantSendEnv) : Bool :=
  if (env.getMasternodeInfo vote.outpointMasternode).isNone then false
  else
    match env.getUTXOCoin vote.outpoint with
    | none => false
    | some coin =>
      match env.getMasternodeRank vote.outpointMasternode (coin.nHeight.toNat + 4)
          minInstantsendProtoVersion with
      | none => false
      | some nRank =>
        if nRank > signaturesTotal then false else vote.checkSignature crypto env

def sign (vote : CTxLockVote) (env : InstantSendEnv) : Option CTxLockVote :=
  match env.activeMasternode.signMessage vote.strMessage with
  | none => none
  | some vchSig =>
    if crypto.verifyMessage env.activeMasternode.pubKeyMasternode vchSig vote.strMessage then
      some { vote with vchMasternodeSignature := vchSig }
    else none

end CTxLockVote

/-- A lock request; `none` is the one of the default constructor, which the source tells
from others by its null hash. -/
abbrev CTxLockRequest := Option CTransaction

namespace CTxLockRequest

def minFee : CAmount := 10000

variable (request : CTxLockRequest)

def getHash : UInt256 :=
  match request with
  | none => 0
  | some tx => tx.hash

def prevouts : List COutPoint :=
  match request with
  | none => []
  | some tx => tx.vin.map (·.prevout)

def getMinFee (tx : CTransaction) : CAmount :=
  let nFee := Int64.ofNat tx.vin.length * minFee
  if minFee < nFee then nFee else minFee

/-- The loop of `IsValid` over the inputs: their value, if all are there and old
enough. -/
def valueInLoop (env : InstantSendEnv) : List CTxIn → CAmount → Option CAmount
  | [], nValueIn => some nValueIn
  | txin :: vin, nValueIn =>
    match env.getUTXOCoin txin.prevout with
    | none => none
    | some coin =>
      if env.chainHeight - coin.nHeight.toNat + 1 < instantsendConfirmationsRequired - 1 then none
      else valueInLoop env vin (nValueIn + coin.out.nValue)

def isValid (env : InstantSendEnv) : Bool :=
  match request with
  | none => false
  | some tx =>
    if tx.vout.length < 1 then false
    else if !env.checkFinalTx tx then false
    else
      match valueInLoop env tx.vin 0 with
      | none => false
      | some nValueIn =>
        if nValueIn > env.maxValue * coin then false
        else
          match tx.getValueOut with
          -- `GetValueOut` throws; nothing has been changed yet.
          | none => false
          | some nValueOut => !(nValueIn - nValueOut < getMinFee tx)

end CTxLockRequest

structure COutPointLock where
  outpoint : COutPoint
  mapMasternodeVotes : Map COutPoint CTxLockVote := ∅
  fAttacked : Bool := false

namespace COutPointLock

variable (lock : COutPointLock)

def addVote (vote : CTxLockVote) : Option COutPointLock :=
  if (lock.mapMasternodeVotes.lookup vote.outpointMasternode).isSome then none
  else
    some { lock with
      mapMasternodeVotes := lock.mapMasternodeVotes.insert vote.outpointMasternode vote }

def getVotes : List CTxLockVote :=
  lock.mapMasternodeVotes.entries.map (·.2)

def hasMasternodeVoted (outpointMasternodeIn : COutPoint) : Bool :=
  (lock.mapMasternodeVotes.lookup outpointMasternodeIn).isSome

def countVotes : ℕ :=
  if lock.fAttacked then 0 else lock.mapMasternodeVotes.entries.length

def isReady : Bool :=
  !lock.fAttacked && signaturesRequired ≤ lock.countVotes

def markAsAttacked : COutPointLock :=
  { lock with fAttacked := true }

end COutPointLock

structure CTxLockCandidate where
  nConfirmedHeight : ℤ := -1
  nTimeCreated : ℤ
  txLockRequest : CTxLockRequest
  mapOutPointLocks : Map COutPoint COutPointLock := ∅

namespace CTxLockCandidate

def getHash (candidate : CTxLockCandidate) : UInt256 := candidate.txLockRequest.getHash

variable (candidate : CTxLockCandidate) (outpoint : COutPoint)

def addOutPointLock : CTxLockCandidate :=
  { candidate with
    mapOutPointLocks :=
      insertNew candidate.mapOutPointLocks outpoint { outpoint := outpoint } }

def addOutPointLocks (prevouts : List COutPoint) : CTxLockCandidate :=
  prevouts.reverse.foldl addOutPointLock candidate

def markOutpointAsAttacked : CTxLockCandidate :=
  { candidate with
    mapOutPointLocks :=
      adjust candidate.mapOutPointLocks outpoint COutPointLock.markAsAttacked }

/-- The candidate with the vote, if it has the outpoint and the masternode has not
voted on it. -/
def addVote (candidate : CTxLockCandidate) (vote : CTxLockVote) : Option CTxLockCandidate :=
  match candidate.mapOutPointLocks.lookup vote.outpoint with
  | none => none
  | some lock =>
    match lock.addVote vote with
    | none => none
    | some lock' =>
      some { candidate with
        mapOutPointLocks := candidate.mapOutPointLocks.insert vote.outpoint lock' }

def isAllOutPointsReady : Bool :=
  !candidate.mapOutPointLocks.entries.isEmpty &&
    candidate.mapOutPointLocks.entries.all fun e => e.2.isReady

def hasMasternodeVoted (candidate : CTxLockCandidate)
    (outpointIn outpointMasternodeIn : COutPoint) : Bool :=
  match candidate.mapOutPointLocks.lookup outpointIn with
  | none => false
  | some lock => lock.hasMasternodeVoted outpointMasternodeIn

def setConfirmedHeight (nConfirmedHeightIn : ℤ) (candidate : CTxLockCandidate) : CTxLockCandidate :=
  { candidate with nConfirmedHeight := nConfirmedHeightIn }

variable (env : InstantSendEnv)

def isExpired (nHeight : ℤ) : Bool :=
  candidate.nConfirmedHeight ≠ -1 &&
    nHeight - candidate.nConfirmedHeight > nInstantSendKeepLock env.net

def isTimedOut : Bool :=
  env.getTime - candidate.nTimeCreated > instantsendLockTimeoutSeconds

end CTxLockCandidate

structure CInstantSend where
  nCachedBlockHeight : ℤ := 0
  mapLockRequestAccepted : Map UInt256 CTxLockRequest := ∅
  mapLockRequestRejected : Map UInt256 CTxLockRequest := ∅
  mapTxLockVotes : Map UInt256 CTxLockVote := ∅
  mapTxLockVotesOrphan : Map UInt256 CTxLockVote := ∅
  mapTxLockCandidates : Map UInt256 CTxLockCandidate := ∅
  mapVotedOutpoints : Map COutPoint (List UInt256) := ∅
  mapLockedOutpoints : Map COutPoint UInt256 := ∅
  mapMasternodeOrphanVotes : Map COutPoint ℤ := ∅

namespace CInstantSend

variable (s : CInstantSend)

def alreadyHave (hash : UInt256) : Bool :=
  (s.mapLockRequestAccepted.lookup hash).isSome ||
    (s.mapLockRequestRejected.lookup hash).isSome || (s.mapTxLockVotes.lookup hash).isSome

def acceptLockRequest (tx : CTransaction) : CInstantSend :=
  { s with
    mapLockRequestAccepted := insertNew s.mapLockRequestAccepted tx.hash (some tx) }

def rejectLockRequest (tx : CTransaction) : CInstantSend :=
  { s with
    mapLockRequestRejected := insertNew s.mapLockRequestRejected tx.hash (some tx) }

def hasTxLockRequest (txHash : UInt256) : Bool :=
  (s.mapTxLockCandidates.lookup txHash).isSome

def setCandidate (txHash : UInt256) (candidate : CTxLockCandidate) : CInstantSend :=
  { s with mapTxLockCandidates := s.mapTxLockCandidates.insert txHash candidate }

/-- The transaction has a candidate with outpoints, all of them locked for it. -/
def locksAll (txHash : UInt256) : Bool :=
  match s.mapTxLockCandidates.lookup txHash with
  | none => false
  | some candidate =>
    !candidate.mapOutPointLocks.keys.isEmpty && candidate.mapOutPointLocks.keys.all fun o =>
        s.mapLockedOutpoints.lookup o = some txHash

variable (env : InstantSendEnv) (txHash : UInt256)

def isLockedInstantSendTransaction : Bool :=
  if !env.fEnableInstantSend || env.fLargeWorkForkFound ||
      env.fLargeWorkInvalidChainFound || !env.blockFiltering then false
  else s.locksAll txHash

def isFailed (vote : CTxLockVote) : Bool :=
  env.getTime - vote.nTimeCreated > instantsendFailedTimeoutSeconds &&
    !s.isLockedInstantSendTransaction env vote.txHash

/-- What goes with an expired candidate: the locks and the voted transactions of all of
its outpoints, whichever transaction they are of. -/
def removeCandidate (key : UInt256) (candidate : CTxLockCandidate) : CInstantSend :=
  { s with
    mapLockedOutpoints := eraseAll s.mapLockedOutpoints candidate.mapOutPointLocks.keys
    mapVotedOutpoints := eraseAll s.mapVotedOutpoints candidate.mapOutPointLocks.keys
    mapLockRequestAccepted := s.mapLockRequestAccepted.erase candidate.getHash
    mapLockRequestRejected := s.mapLockRequestRejected.erase candidate.getHash
    mapTxLockCandidates := s.mapTxLockCandidates.erase key }

/-- The loop over the candidates; what it removes is never one it has still to visit. -/
def removeExpiredLoop (env : InstantSendEnv) :
    List (Sigma fun _ : UInt256 => CTxLockCandidate) → CInstantSend → CInstantSend
  | [], s => s
  | ⟨key, candidate⟩ :: candidates, s =>
    if candidate.isExpired env s.nCachedBlockHeight then
      removeExpiredLoop env candidates (s.removeCandidate key candidate)
    else removeExpiredLoop env candidates s

def removeExpiredCandidates : CInstantSend :=
  removeExpiredLoop env s.mapTxLockCandidates.entries s

/-- Whether a vote stays: it is not expired, is no orphan that timed out, and is not
one of a failed lock. -/
def keepsVote (hash : UInt256) (vote : CTxLockVote) : Bool :=
  !vote.isExpired env s.nCachedBlockHeight &&
    !(s.mapTxLockVotesOrphan.lookup hash).any (·.isTimedOut env) && !s.isFailed env vote

def removeOldVotes : CInstantSend :=
  { s with
    mapTxLockVotes := filterEntries s.mapTxLockVotes (s.keepsVote env)
    mapTxLockVotesOrphan :=
      filterEntries s.mapTxLockVotesOrphan fun _ vote => !vote.isTimedOut env
    mapMasternodeOrphanVotes :=
      filterEntries s.mapMasternodeOrphanVotes fun _ time => !(time < env.getTime) }

def checkAndRemove : CInstantSend :=
  if !env.isMasternodeListSynced then s
  else (s.removeExpiredCandidates env).removeOldVotes env

inductive LockConflict where
  /-- An input is locked for another transaction. -/
  | completedLock (hashConflicting : UInt256)
  | mempool
  deriving DecidableEq

def mempoolConflict (prevout : COutPoint) : Option LockConflict :=
  match env.mapNextTx prevout with
  | some hashConflicting => if txHash = hashConflicting then none else some .mempool
  | none => none

def conflictAt (prevout : COutPoint) : Option LockConflict :=
  match s.mapLockedOutpoints.lookup prevout with
  | some hashConflicting =>
    if txHash ≠ hashConflicting then some (.completedLock hashConflicting)
    else mempoolConflict env txHash prevout
  | none => mempoolConflict env txHash prevout

def findConflict (prevouts : List COutPoint) : Option LockConflict :=
  prevouts.findSome? (s.conflictAt env txHash)

def dropBoth (txHash hashConflicting : UInt256)
    (candidate conflicting : CTxLockCandidate) : CInstantSend :=
  let expired :=
    { s with
      mapTxLockCandidates :=
        adjust (adjust s.mapTxLockCandidates txHash (·.setConfirmedHeight 0))
          hashConflicting (·.setConfirmedHeight 0) }
  let removed := expired.checkAndRemove env
  { removed with
    mapLockRequestRejected :=
      insertNew (insertNew removed.mapLockRequestRejected txHash candidate.txLockRequest)
        hashConflicting conflicting.txLockRequest }

variable (txLockCandidate : CTxLockCandidate)

def resolveConflicts : Bool × CInstantSend :=
  let txHash := txLockCandidate.getHash
  if !txLockCandidate.isAllOutPointsReady then (false, s)
  else
    match s.findConflict env txHash txLockCandidate.txLockRequest.prevouts with
    | some (.completedLock hashConflicting) =>
      match s.mapTxLockCandidates.lookup txHash, s.mapTxLockCandidates.lookup hashConflicting with
      | some candidate, some conflicting =>
        (false, s.dropBoth env txHash hashConflicting candidate conflicting)
      | _, _ => (false, s)
    | some .mempool => (false, s)
    | none =>
      if env.includedInBlock txHash then (true, s)
      else
        (txLockCandidate.txLockRequest.prevouts.all fun o => (env.getUTXOCoin o).isSome, s)

def lockTransactionInputs : CInstantSend :=
  if !env.instantSendEnabled then s
  else if !txLockCandidate.isAllOutPointsReady then s
  else
    { s with
      mapLockedOutpoints := insertAllNew s.mapLockedOutpoints
        txLockCandidate.mapOutPointLocks.keys txLockCandidate.getHash }

def tryToFinalizeLockCandidate : CInstantSend :=
  if !env.instantSendEnabled then s
  else if txLockCandidate.isAllOutPointsReady &&
      !s.isLockedInstantSendTransaction env txLockCandidate.getHash then
    match s.resolveConflicts env txLockCandidate with
    | (true, s) => s.lockTransactionInputs env txLockCandidate
    | (false, s) => s
  else s

variable (txLockRequest : CTxLockRequest)

def createTxLockCandidate : Bool × CInstantSend :=
  if !txLockRequest.isValid env then (false, s)
  else
    let txHash := txLockRequest.getHash
    match s.mapTxLockCandidates.lookup txHash with
    | none =>
      let candidate : CTxLockCandidate :=
        { nTimeCreated := env.getTime, txLockRequest := txLockRequest }
      (true, s.setCandidate txHash (candidate.addOutPointLocks txLockRequest.prevouts))
    | some candidate =>
      if candidate.txLockRequest.isNone then
        -- The request is stored before the time is looked at.
        let updated := { candidate with txLockRequest := txLockRequest }
        if updated.isTimedOut env then (false, s.setCandidate txHash updated)
        else (true, s.setCandidate txHash (updated.addOutPointLocks txLockRequest.prevouts))
      else (true, s)

def createEmptyTxLockCandidate : CInstantSend :=
  if (s.mapTxLockCandidates.lookup txHash).isSome then s
  else s.setCandidate txHash { nTimeCreated := env.getTime, txLockRequest := none }

def processTxLockRequest : Bool × CInstantSend :=
  match s.createTxLockCandidate env txLockRequest with
  | (false, s) => (false, s)
  | (true, s) =>
    match s.mapTxLockCandidates.lookup txLockRequest.getHash with
    | some candidate => (true, s.tryToFinalizeLockCandidate env candidate)
    | none => (true, s)

end CInstantSend
end ImageCoin
