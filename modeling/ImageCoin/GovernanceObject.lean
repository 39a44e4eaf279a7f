import ImageCoin.GovernanceVote

/-!
# Governance objects

`CGovernanceObject` of `governance-object.cpp`: the votes that an object has of each
masternode for each signal, how a vote is taken or refused, and what the votes add up to.
-/

namespace ImageCoin.Governance

open MapEntries

def governanceUpdateMin : ℤ := 60 * 60

def governanceOrphanExpirationTime : ℤ := 10 * 60

/-- Why `ProcessVote` refuses a vote. -/
inductive VoteRefusal where
  | masternodeNotFound
  | signalNone
  | unsupportedSignal
  | obsolete
  | tooOften (nTimeDelta : ℤ)
  | invalid
  | unableToAdd
  deriving DecidableEq

structure VoteInstance where
  eOutcome : ℤ := voteOutcomeNone
  nTime : ℤ := 0
  nCreationTime : ℤ := 0
  deriving DecidableEq

structure CGovernanceObject where
  nObjectType : ℤ
  nHashParent : UInt256
  nRevision : ℤ
  nTime : ℤ
  nDeletionTime : ℤ := 0
  nCollateralHash : UInt256 := 0
  strData : Bytes
  vinMasternode : CTxIn
  vchSig : Bytes
  fCachedLocalValidity : Bool := false
  strLocalValidityError : Bytes := []
  fCachedFunding : Bool := false
  fCachedValid : Bool := true
  fCachedDelete : Bool := false
  fCachedEndorsed : Bool := false
  fDirtyCache : Bool := true
  fExpired : Bool := false
  fUnparsable : Bool := false
  /-- The `vote_rec_t` of each masternode. -/
  mapCurrentMNVotes : Map COutPoint (Map ℤ VoteInstance) := ∅
  /-- The limit is left at zero, so that a cache with items is never full. -/
  mapOrphanVotes : CacheMultiMap COutPoint VoteTimePair := ⟨0, []⟩
  fileVotes : List CGovernanceVote := []

namespace CGovernanceObject

variable (crypto : GovernanceCrypto) (govobj : CGovernanceObject)

def getHash : UInt256 :=
  crypto.hash (serializeUInt256 govobj.nHashParent ++
    (serializeInt32 (Int32.ofInt govobj.nRevision) ++
      (CGovernanceVote.serializeInt64 govobj.nTime ++ (writeBlob govobj.strData ++
        (govobj.vinMasternode.serialize ++ writeBlob govobj.vchSig)))))

def recordedVote (mn : COutPoint) (nSignal : ℤ) : Option VoteInstance :=
  (govobj.mapCurrentMNVotes.lookup mn).bind (·.lookup nSignal)

def setInstance (mn : COutPoint) (nSignal : ℤ) (voteInstance : VoteInstance) : CGovernanceObject :=
  { govobj with
    mapCurrentMNVotes := govobj.mapCurrentMNVotes.insert mn
      (((govobj.mapCurrentMNVotes.lookup mn).getD ∅).insert nSignal voteInstance) }

def addToFile (fileVotes : List CGovernanceVote) (vote : CGovernanceVote) : List CGovernanceVote :=
  if fileVotes.any fun v => v.getHash crypto = vote.getHash crypto then fileVotes
  else vote :: fileVotes

variable (env : GovernanceEnv) (fRateChecksEnabled : Bool)

def checkVote (vote : CGovernanceVote) (voteInstance : VoteInstance) : Except VoteRefusal Unit :=
  if vote.nTime < voteInstance.nCreationTime then .error .obsolete
  else if fRateChecksEnabled &&
      env.getAdjustedTime - voteInstance.nTime < governanceUpdateMin then
    .error (.tooOften (env.getAdjustedTime - voteInstance.nTime))
  else if !vote.isValid crypto env true then .error .invalid
  else if (env.getMasternodeInfo vote.getMasternodeOutpoint).isNone then .error .unableToAdd
  else .ok ()

/-- A vote that passes.  The time of the update is the one that the instance had before;
it is set to the present time only in the branch that refuses the vote. -/
def takeVote (vote : CGovernanceVote) (voteInstance : VoteInstance) : CGovernanceObject :=
  { govobj.setInstance vote.getMasternodeOutpoint vote.nVoteSignal
      ⟨vote.nVoteOutcome, voteInstance.nTime, vote.nTime⟩ with
    fileVotes := addToFile crypto govobj.fileVotes vote
    fDirtyCache := true }

/-- `ProcessVote`.  The caller adds a vote that is refused as invalid to
`mapInvalidVotes`. -/
def processVote (vote : CGovernanceVote) : Except VoteRefusal Unit × CGovernanceObject :=
  let mn := vote.getMasternodeOutpoint
  if (env.getMasternodeInfo mn).isNone then
    (.error .masternodeNotFound,
      { govobj with
        mapOrphanVotes := (govobj.mapOrphanVotes.insert VoteTimePair.lt mn
          (vote, env.getAdjustedTime + governanceOrphanExpirationTime)).2 })
  else
    let govobj :=
      { govobj with mapCurrentMNVotes := insertNew govobj.mapCurrentMNVotes mn ∅ }
    if vote.nVoteSignal = voteSignalNone then (.error .signalNone, govobj)
    else if vote.nVoteSignal > maxSupportedVoteSignal then (.error .unsupportedSignal, govobj)
    else
      let voteInstance := (govobj.recordedVote mn vote.nVoteSignal).getD {}
      match checkVote crypto env fRateChecksEnabled vote voteInstance with
      | .error refusal => (.error refusal, govobj.setInstance mn vote.nVoteSignal voteInstance)
      | .ok () => (.ok (), govobj.takeVote crypto vote voteInstance)

def countMatchingVotes (nVoteSignal nVoteOutcome : ℤ) : ℕ :=
  govobj.mapCurrentMNVotes.entries.countP fun e =>
    (e.2.lookup nVoteSignal).any fun voteInstance => voteInstance.eOutcome = nVoteOutcome

variable (nVoteSignal : ℤ)

def getYesCount : ℕ :=
  govobj.countMatchingVotes nVoteSignal voteOutcomeYes

def getNoCount : ℕ :=
  govobj.countMatchingVotes nVoteSignal voteOutcomeNo

def getAbsoluteYesCount : ℤ :=
  govobj.getYesCount nVoteSignal - govobj.getNoCount nVoteSignal

def getAbsoluteNoCount : ℤ :=
  govobj.getNoCount nVoteSignal - govobj.getYesCount nVoteSignal

def updateSentinelVariables (env : GovernanceEnv) : CGovernanceObject :=
  let nMnCount := env.countEnabled
  if nMnCount = 0 then govobj
  else
    let nAbsVoteReq := max (nGovernanceMinQuorum env.net) (nMnCount.tdiv 10)
    let nAbsDeleteReq := max (nGovernanceMinQuorum env.net) ((2 * nMnCount).tdiv 3)
    let fDelete : Bool :=
      govobj.getAbsoluteYesCount voteSignalDelete ≥ nAbsDeleteReq && !govobj.fCachedDelete
    { govobj with
      fCachedFunding := govobj.getAbsoluteYesCount voteSignalFunding ≥ nAbsVoteReq
      -- A flag that is set stays set.
      fCachedDelete := govobj.fCachedDelete || fDelete
      nDeletionTime :=
        if fDelete && govobj.nDeletionTime = 0 then env.getAdjustedTime
        else govobj.nDeletionTime
      fCachedEndorsed := govobj.getAbsoluteYesCount voteSignalEndorsed ≥ nAbsVoteReq
      fCachedValid := !(govobj.getAbsoluteNoCount voteSignalValid ≥ nAbsVoteReq)
      fDirtyCache := false }

variable (first second : CGovernanceObject)

def swapFirst : CGovernanceObject :=
  { first with
    nHashParent := second.nHashParent
    nRevision := second.nRevision
    nTime := second.nTime
    nDeletionTime := second.nDeletionTime
    nCollateralHash := second.nCollateralHash
    strData := second.strData
    nObjectType := second.nObjectType
    -- "swap all cached valid flags"
    fCachedFunding := second.fCachedFunding
    fCachedValid := second.fCachedValid
    fCachedDelete := second.fCachedDelete
    fCachedEndorsed := second.fCachedEndorsed
    fDirtyCache := second.fDirtyCache
    fExpired := second.fExpired }

def swap : CGovernanceObject × CGovernanceObject :=
  (swapFirst first second, swapFirst second first)

def assign (govobj from_ : CGovernanceObject) : CGovernanceObject := (swap govobj from_).1

/-- What the network and the votes know of an object. -/
structure SameObject (a b : CGovernanceObject) : Prop where
  hash : a.getHash crypto = b.getHash crypto
  signature : a.vchSig = b.vchSig
  masternode : a.vinMasternode = b.vinMasternode
  votes : a.mapCurrentMNVotes = b.mapCurrentMNVotes
  voteFile : a.fileVotes = b.fileVotes
  flags : a.fCachedLocalValidity = b.fCachedLocalValidity ∧
    a.fCachedFunding = b.fCachedFunding ∧ a.fCachedValid = b.fCachedValid ∧
    a.fCachedDelete = b.fCachedDelete ∧ a.fCachedEndorsed = b.fCachedEndorsed ∧
    a.fDirtyCache = b.fDirtyCache ∧ a.fExpired = b.fExpired ∧ a.fUnparsable = b.fUnparsable

/-- The members that `swap` leaves where they are. -/
structure SameUnswapped (a b : CGovernanceObject) : Prop where
  vinMasternode : a.vinMasternode = b.vinMasternode
  vchSig : a.vchSig = b.vchSig
  fCachedLocalValidity : a.fCachedLocalValidity = b.fCachedLocalValidity
  fUnparsable : a.fUnparsable = b.fUnparsable
  mapCurrentMNVotes : a.mapCurrentMNVotes = b.mapCurrentMNVotes
  fileVotes : a.fileVotes = b.fileVotes

/-- An assignment carries over what was the same before, and no more. -/
theorem sameObject_assign_iff (a b : CGovernanceObject) :
    SameObject crypto (assign a b) b ↔ SameUnswapped a b := by
  constructor
  · intro h
    exact ⟨h.masternode, h.signature, h.flags.1, h.flags.2.2.2.2.2.2.2, h.votes, h.voteFile⟩
  · intro h
    refine ⟨?_, h.vchSig, h.vinMasternode, h.mapCurrentMNVotes, h.fileVotes,
      h.fCachedLocalValidity, rfl, rfl, rfl, rfl, rfl, rfl, h.fUnparsable⟩
    simp [getHash, assign, swap, swapFirst, h.vchSig, h.vinMasternode]

def triggerOf (n : UInt32) (vchSig : Bytes) : CGovernanceObject where
  nObjectType := 2
  nHashParent := 0
  nRevision := 1
  nTime := 1000
  strData := []
  vinMasternode := ⟨⟨1, n⟩, [], 0xffffffff⟩
  vchSig := vchSig
  fileVotes := [orphanVote n]

theorem assign_keeps_signature : (assign (triggerOf 0 [1]) (triggerOf 1 [2])).vchSig = [1] ∧
      (assign (triggerOf 0 [1]) (triggerOf 1 [2])).fileVotes = [orphanVote 0] ∧
      ∀ crypto, ¬SameObject crypto (assign (triggerOf 0 [1]) (triggerOf 1 [2])) (triggerOf 1 [2]) :=
  ⟨rfl, rfl, fun _ h => nomatch h.signature⟩

end CGovernanceObject
end ImageCoin.Governance
