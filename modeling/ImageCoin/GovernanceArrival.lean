import ImageCoin.GovernanceTally

/-!
# Votes that come before their object

A vote that comes before its object waits, and is given to the object when that comes; but it
is given to an object of which a copy has been stored already.
-/

namespace ImageCoin.Governance

section
open MapEntries

def governanceObjectWatchdog : ℤ := 3

def governanceWatchdogExpirationTime : ℤ := 2 * 60 * 60

def maxCacheSize : ℕ := 1000000

structure CGovernanceManager where
  mapObjects : Map UInt256 CGovernanceObject := ∅
  mapErasedGovernanceObjects : Map UInt256 ℤ := ∅
  /-- Objects whose masternode is not known, with their expiration times. -/
  mapMasternodeOrphanObjects : Map UInt256 (CGovernanceObject × ℤ) := ∅
  mapMasternodeOrphanCounter : Map COutPoint ℤ := ∅
  mapPostponedObjects : Map UInt256 CGovernanceObject := ∅
  /-- The object that a vote with the hash belongs to. -/
  mapVoteToObject : CacheMap UInt256 UInt256 := ⟨maxCacheSize, []⟩
  mapInvalidVotes : CacheMap UInt256 CGovernanceVote := ⟨maxCacheSize, []⟩
  mapOrphanVotes : CacheMultiMap UInt256 VoteTimePair := ⟨maxCacheSize, []⟩
  mapWatchdogObjects : Map UInt256 ℤ := ∅
  nHashWatchdogCurrent : UInt256 := 0
  nTimeWatchdogCurrent : ℤ := 0
  fRateChecksEnabled : Bool := true

inductive ManagerRefusal where
  | oldInvalid
  | unknownParent
  /-- The object is expired or deleted; no exception is set. -/
  | ignored
  | object (refusal : VoteRefusal)
  deriving DecidableEq

namespace CGovernanceManager

variable (crypto : GovernanceCrypto) (m : CGovernanceManager)

def addIfInvalid (vote : CGovernanceVote) (result : Except VoteRefusal Unit) : CGovernanceManager :=
  match result with
  | .error .invalid =>
    { m with mapInvalidVotes := m.mapInvalidVotes.insert (vote.getHash crypto) vote }
  | _ => m

variable (env : GovernanceEnv)

def insertOrphanVote (vote : CGovernanceVote) : CGovernanceManager :=
  { m with
    mapOrphanVotes := (m.mapOrphanVotes.insert VoteTimePair.lt vote.nParentHash
      (vote, env.getAdjustedTime + governanceOrphanExpirationTime)).2 }

def processVote (m : CGovernanceManager) (env : GovernanceEnv) (vote : CGovernanceVote) :
    Except ManagerRefusal Unit × CGovernanceManager :=
  let nHashVote := vote.getHash crypto
  if m.mapInvalidVotes.hasKey nHashVote then (.error .oldInvalid, m)
  else
    match m.mapObjects.lookup vote.nParentHash with
    | none => (.error .unknownParent, m.insertOrphanVote env vote)
    | some govobj =>
      if govobj.fCachedDelete || govobj.fExpired then (.error .ignored, m)
      else
        match govobj.processVote crypto env m.fRateChecksEnabled vote with
        | (.error refusal, govobj) =>
          let m := { m with mapObjects := m.mapObjects.insert vote.nParentHash govobj }
          (.error (.object refusal), m.addIfInvalid crypto vote (.error refusal))
        | (.ok (), govobj) =>
          (.ok (), { m with
            mapObjects := m.mapObjects.insert vote.nParentHash govobj
            mapVoteToObject := m.mapVoteToObject.insert nHashVote vote.nParentHash })

/-- The loop of `CheckOrphanVotes`, with the object that the votes are given to.  Rate
checks are off. -/
def checkOrphanVotesLoop (env : GovernanceEnv) (nHash : UInt256) :
    List VoteTimePair → CGovernanceManager → CGovernanceObject →
      CGovernanceManager × CGovernanceObject
  | [], m, govobj => (m, govobj)
  | pairVote :: pairs, m, govobj =>
    let removed :=
      { m with mapOrphanVotes := m.mapOrphanVotes.erase VoteTimePair.lt nHash pairVote }
    if pairVote.2 < env.getAdjustedTime then
      checkOrphanVotesLoop env nHash pairs removed govobj
    else
      match govobj.processVote crypto env false pairVote.1 with
      | (.ok (), govobj) => checkOrphanVotesLoop env nHash pairs removed govobj
      | (.error refusal, govobj) =>
        checkOrphanVotesLoop env nHash pairs
          (m.addIfInvalid crypto pairVote.1 (.error refusal)) govobj

variable (govobj : CGovernanceObject)

def checkOrphanVotes : CGovernanceManager × CGovernanceObject :=
  checkOrphanVotesLoop crypto env (govobj.getHash crypto)
    (m.mapOrphanVotes.getAll VoteTimePair.lt (govobj.getHash crypto)) m govobj

variable (watchdogNew : CGovernanceObject)

def isBetterWatchdog : Bool :=
  let nExpirationDelay := governanceWatchdogExpirationTime / 2
  m.nHashWatchdogCurrent = 0 || (env.getAdjustedTime - watchdogNew.nTime < nExpirationDelay &&
      (env.getAdjustedTime - m.nTimeWatchdogCurrent > nExpirationDelay ||
        (watchdogNew.getHash crypto).toNat > m.nHashWatchdogCurrent.toNat))

def updateCurrentWatchdog : CGovernanceManager :=
  { m with
    mapObjects := adjust m.mapObjects m.nHashWatchdogCurrent fun govobj =>
      { govobj with
        fExpired := true
        nDeletionTime :=
          if govobj.nDeletionTime = 0 then env.getAdjustedTime else govobj.nDeletionTime }
    nHashWatchdogCurrent := watchdogNew.getHash crypto
    nTimeWatchdogCurrent := watchdogNew.nTime }

def inWatchdogBounds : Bool :=
  !(govobj.nTime < env.getAdjustedTime - governanceWatchdogExpirationTime ||
    govobj.nTime > env.getAdjustedTime + governanceWatchdogExpirationTime)

/-- What `AddGovernanceObject` does with an object that is not dropped.  A copy of the
object is stored; the votes that waited for it go to the original. -/
def storeObject : CGovernanceManager :=
  let nHash := govobj.getHash crypto
  let stored :=
    { m with
      mapObjects := insertNew m.mapObjects nHash govobj
      mapWatchdogObjects :=
        if govobj.nObjectType = governanceObjectWatchdog then
          m.mapWatchdogObjects.insert nHash (govobj.nTime + governanceWatchdogExpirationTime)
        else m.mapWatchdogObjects }
  (stored.checkOrphanVotes crypto env govobj).1

def addGovernanceObject (isValidLocally : Bool) (govobj : CGovernanceObject) : CGovernanceManager :=
  let govobj := govobj.updateSentinelVariables env
  if !isValidLocally then m
  else if (m.mapObjects.lookup (govobj.getHash crypto)).isSome then m
  else if govobj.nObjectType = governanceObjectWatchdog then
    if !inWatchdogBounds env govobj then m
    else if !m.isBetterWatchdog crypto env govobj then m
    else (m.updateCurrentWatchdog crypto env govobj).storeObject crypto env govobj
  else m.storeObject crypto env govobj

end CGovernanceManager
end

open MapEntries LatestWins CGovernanceVote List CGovernanceObject VoteInstance
variable {d : VoteDelivery} {vote : CGovernanceVote} {m' : CGovernanceManager}

def VoteDelivery.counts (fRate : Bool) (d : VoteDelivery) : Bool :=
  d.inRate fRate 0 && 0 ≤ d.vote.nTime

open VoteDelivery

theorem VoteDelivery.isFor_iff {mn : COutPoint} {nSignal : ℤ} : d.isFor mn nSignal ↔
    d.vote.getMasternodeOutpoint = mn ∧ d.vote.nVoteSignal = nSignal := by
  simp [isFor]

namespace CGovernanceManager

variable {crypto : GovernanceCrypto} {m : CGovernanceManager} {env : GovernanceEnv}
  {d : VoteDelivery} {ds : List VoteDelivery} {nHash : UInt256} {govobj : CGovernanceObject}

def receive (crypto : GovernanceCrypto) (m : CGovernanceManager) (d : VoteDelivery) :
    CGovernanceManager :=
  (m.processVote crypto d.env d.vote).2

def receiveAll (crypto : GovernanceCrypto) (m : CGovernanceManager)
    (ds : List VoteDelivery) : CGovernanceManager :=
  ds.foldl (receive crypto) m

/-- A valid vote on the object with the hash, not known as invalid. -/
structure OnObject (crypto : GovernanceCrypto) (m : CGovernanceManager) (nHash : UInt256)
    (d : VoteDelivery) : Prop where
  valid : d.isValid crypto
  parent : d.vote.nParentHash = nHash
  notInvalid : m.mapInvalidVotes.hasKey (d.vote.getHash crypto) = false

/-- The manager while the object is missing: only valid votes on it wait. -/
structure WaitsFor (crypto : GovernanceCrypto) (env : GovernanceEnv) (nHash : UInt256)
    (m₀ m : CGovernanceManager) : Prop where
  objects : m.mapObjects = m₀.mapObjects
  invalid : m.mapInvalidVotes = m₀.mapInvalidVotes
  rate : m.fRateChecksEnabled = m₀.fRateChecksEnabled
  watchdog : m.nHashWatchdogCurrent = m₀.nHashWatchdogCurrent ∧
    m.nTimeWatchdogCurrent = m₀.nTimeWatchdogCurrent
  orphans : ∀ pair, (nHash, pair) ∈ m.mapOrphanVotes.listItems → isValid crypto env pair.1 true

variable {m₀ : CGovernanceManager}

theorem WaitsFor.receive (hwaits : WaitsFor crypto env nHash m₀ m)
    (hmissing : m₀.mapObjects.lookup nHash = none) (hd : OnObject crypto m₀ nHash d)
    (hvalid : d.vote.isValid crypto env true) :
    WaitsFor crypto env nHash m₀ (m.receive crypto d) := by
  have hnotInvalid := hd.notInvalid
  rw [← hwaits.invalid] at hnotInvalid
  have hlookup : m.mapObjects.lookup d.vote.nParentHash = none := by
    rw [hwaits.objects, hd.parent, hmissing]
  have hreceive : m.receive crypto d = m.insertOrphanVote d.env d.vote := by
    simp [CGovernanceManager.receive, processVote, hnotInvalid, hlookup]
  rw [hreceive]
  refine ⟨hwaits.objects, hwaits.invalid, hwaits.rate, hwaits.watchdog, fun pair hpair => ?_⟩
  rcases CacheMultiMap.mem_insert hpair with heq | hold
  · rw [(Prod.mk.inj heq).2]
    exact hvalid
  · exact hwaits.orphans pair hold

theorem WaitsFor.receiveAll (hwaits : WaitsFor crypto env nHash m₀ m)
    (hmissing : m₀.mapObjects.lookup nHash = none) (hds : ∀ d ∈ ds, OnObject crypto m₀ nHash d)
    (hvalid : ∀ d ∈ ds, d.vote.isValid crypto env true) :
    WaitsFor crypto env nHash m₀ (m.receiveAll crypto ds) := by
  induction ds generalizing m with
  | nil => exact hwaits
  | cons d ds ih =>
    exact ih (hwaits.receive hmissing (hds d mem_cons_self) (hvalid d mem_cons_self))
      (fun d' hd' => hds d' (mem_cons_of_mem _ hd')) fun d' hd' => hvalid d' (mem_cons_of_mem _ hd')

/-! ## The object comes -/

theorem processVote_ne_invalid (govobj : CGovernanceObject) (fRate : Bool)
    (hvalid : vote.isValid crypto env true) :
    (govobj.processVote crypto env fRate vote).1 ≠ .error .invalid := by
  have hknown := isNone_of_isValid (d := ⟨env, vote⟩) hvalid
  by_cases hsupported : CGovernanceObject.Supported vote.nVoteSignal
  · rw [(processVote_of_supported crypto fRate govobj hknown hsupported).1]
    unfold checkVote
    split_ifs with hold hrate hinvalid
    · simp
    · simp
    · simp [hvalid] at hinvalid
    · simp
    · simp
  · unfold CGovernanceObject.processVote
    dsimp only
    rw [hknown]
    simp only [Bool.false_eq_true, if_false]
    split_ifs with hnone hmax
    · simp
    · simp
    · exact absurd ⟨hnone, not_lt.mp hmax⟩ hsupported

theorem addIfInvalid_of_ne {result : Except VoteRefusal Unit}
    (hne : result ≠ .error .invalid) : m.addIfInvalid crypto vote result = m := by
  unfold addIfInvalid
  split
  · exact absurd rfl hne
  · rfl

theorem checkOrphanVotesLoop_same (nHash : UInt256) {pairs : List VoteTimePair}
    (hpairs : ∀ pair ∈ pairs, isValid crypto env pair.1 true)
    (m : CGovernanceManager) (govobj : CGovernanceObject) :
    ∃ orphans, (checkOrphanVotesLoop crypto env nHash pairs m govobj).1 =
      { m with mapOrphanVotes := orphans } := by
  induction pairs generalizing m govobj with
  | nil => exact ⟨m.mapOrphanVotes, rfl⟩
  | cons pairVote pairs ih =>
    have hrest := fun pair hpair => hpairs pair (mem_cons_of_mem _ hpair)
    unfold checkOrphanVotesLoop
    split
    · exact ih hrest _ govobj
    · have hne := processVote_ne_invalid govobj false (hpairs pairVote mem_cons_self)
      generalize govobj.processVote crypto env false pairVote.1 = result at hne
      obtain ⟨result, govobj'⟩ := result
      cases result with
      | ok u => exact ih hrest _ govobj'
      | error refusal =>
        dsimp only
        rw [addIfInvalid_of_ne hne]
        exact ih hrest m govobj'

/-- A watchdog is taken in only within its bounds and if it is better than the present one. -/
def Admits (crypto : GovernanceCrypto) (m : CGovernanceManager) (env : GovernanceEnv)
    (govobj : CGovernanceObject) : Prop :=
  govobj.nObjectType = governanceObjectWatchdog →
    inWatchdogBounds env govobj ∧ m.isBetterWatchdog crypto env govobj

variable (crypto) in
theorem updateSentinelVariables_fields (govobj : CGovernanceObject) (env : GovernanceEnv) :
    (govobj.updateSentinelVariables env).getHash crypto = govobj.getHash crypto ∧
      (govobj.updateSentinelVariables env).nObjectType = govobj.nObjectType ∧
      (govobj.updateSentinelVariables env).nTime = govobj.nTime ∧
      (govobj.updateSentinelVariables env).fExpired = govobj.fExpired ∧
      (govobj.updateSentinelVariables env).mapCurrentMNVotes = govobj.mapCurrentMNVotes := by
  unfold updateSentinelVariables
  dsimp only
  split
  · exact ⟨rfl, rfl, rfl, rfl, rfl⟩
  · exact ⟨rfl, rfl, rfl, rfl, rfl⟩

section
variable (hmissing : m.mapObjects.lookup (govobj.getHash crypto) = none)
include hmissing

theorem storeObject_spec
    (horphans : ∀ pair, (govobj.getHash crypto, pair) ∈ m.mapOrphanVotes.listItems →
      isValid crypto env pair.1 true) :
    (m.storeObject crypto env govobj).mapObjects.lookup (govobj.getHash crypto) = some govobj ∧
      (m.storeObject crypto env govobj).mapInvalidVotes = m.mapInvalidVotes ∧
      (m.storeObject crypto env govobj).fRateChecksEnabled = m.fRateChecksEnabled := by
  unfold storeObject checkOrphanVotes
  dsimp only
  set hash := govobj.getHash crypto
  have hpairs : ∀ pair ∈ m.mapOrphanVotes.getAll VoteTimePair.lt hash,
      isValid crypto env pair.1 true := fun pair hpair =>
    horphans pair (CacheMultiMap.mem_getAll.mp hpair)
  generalize hstored : { m with
      mapObjects := insertNew m.mapObjects hash govobj
      mapWatchdogObjects :=
        if govobj.nObjectType = governanceObjectWatchdog then
          m.mapWatchdogObjects.insert hash (govobj.nTime + governanceWatchdogExpirationTime)
        else m.mapWatchdogObjects } = stored
  obtain ⟨orphans, heq⟩ := checkOrphanVotesLoop_same hash hpairs stored govobj
  rw [heq, ← hstored]
  refine ⟨?_, rfl, rfl⟩
  rw [lookup_insertNew, if_pos rfl, hmissing, Option.getD_none]

theorem addGovernanceObject_spec (hadmits : m.Admits crypto env govobj)
    (horphans : ∀ pair, (govobj.getHash crypto, pair) ∈ m.mapOrphanVotes.listItems →
      isValid crypto env pair.1 true) :
    (m.addGovernanceObject crypto env true govobj).mapObjects.lookup
        (govobj.getHash crypto) = some (govobj.updateSentinelVariables env) ∧
      (m.addGovernanceObject crypto env true govobj).mapInvalidVotes = m.mapInvalidVotes ∧
      (m.addGovernanceObject crypto env true govobj).fRateChecksEnabled =
        m.fRateChecksEnabled := by
  obtain ⟨hhash, htype, htime, -⟩ := updateSentinelVariables_fields crypto govobj env
  have hbounds : inWatchdogBounds env (govobj.updateSentinelVariables env) =
      inWatchdogBounds env govobj := by
    rw [inWatchdogBounds, htime, inWatchdogBounds]
  have hbetter : m.isBetterWatchdog crypto env (govobj.updateSentinelVariables env) =
      m.isBetterWatchdog crypto env govobj := by
    rw [isBetterWatchdog, htime, hhash, isBetterWatchdog]
  unfold addGovernanceObject
  rw [← hhash] at hmissing horphans ⊢
  simp only [hmissing, htype, hbounds, hbetter]
  by_cases hwatchdog : govobj.nObjectType = governanceObjectWatchdog
  · simp [hwatchdog, hadmits hwatchdog]
    -- The current watchdog expires, which may be any object but the missing one.
    have hmissing' : (m.updateCurrentWatchdog crypto env
        (govobj.updateSentinelVariables env)).mapObjects.lookup
          ((govobj.updateSentinelVariables env).getHash crypto) = none := by
      simp only [updateCurrentWatchdog, lookup_adjust]
      split_ifs with heq
      · rw [← heq, hmissing, Option.map_none]
      · exact hmissing
    exact storeObject_spec hmissing' horphans
  · simp [hwatchdog]
    exact storeObject_spec hmissing horphans

end

variable (crypto) in
theorem flags_processVote (govobj : CGovernanceObject) (env : GovernanceEnv) (fRate : Bool)
    (vote : CGovernanceVote) :
    (govobj.processVote crypto env fRate vote).2.fCachedDelete = govobj.fCachedDelete ∧
      (govobj.processVote crypto env fRate vote).2.fExpired = govobj.fExpired := by
  unfold CGovernanceObject.processVote
  dsimp only
  split_ifs
  · exact ⟨rfl, rfl⟩
  · exact ⟨rfl, rfl⟩
  · exact ⟨rfl, rfl⟩
  · split
    · exact ⟨rfl, rfl⟩
    · exact ⟨rfl, rfl⟩

section
variable (hobject : m.mapObjects.lookup nHash = some govobj)
include hobject

theorem receive_object (halive : govobj.fCachedDelete = false ∧ govobj.fExpired = false)
    (hd : OnObject crypto m nHash d) :
    (m.receive crypto d).mapObjects.lookup nHash =
        some (govobj.receive crypto m.fRateChecksEnabled d) ∧
      (m.receive crypto d).mapInvalidVotes = m.mapInvalidVotes ∧
      (m.receive crypto d).fRateChecksEnabled = m.fRateChecksEnabled := by
  obtain ⟨hvalid, rfl, hnotInvalid⟩ := hd
  have hne := processVote_ne_invalid govobj m.fRateChecksEnabled hvalid
  unfold receive processVote CGovernanceObject.receive
  simp only [hnotInvalid, hobject, halive.1, halive.2]
  generalize govobj.processVote crypto d.env m.fRateChecksEnabled d.vote = result at hne
  obtain ⟨result, govobj'⟩ := result
  cases result with
  | ok u => exact ⟨AList.lookup_insert _, rfl, rfl⟩
  | error refusal =>
    dsimp only
    rw [addIfInvalid_of_ne hne]
    exact ⟨AList.lookup_insert _, rfl, rfl⟩

theorem receiveAll_object (halive : govobj.fCachedDelete = false ∧ govobj.fExpired = false)
    (hds : ∀ d ∈ ds, OnObject crypto m nHash d) :
    (m.receiveAll crypto ds).mapObjects.lookup nHash =
      some (govobj.receiveAll crypto m.fRateChecksEnabled ds) := by
  induction ds generalizing m govobj with
  | nil => exact hobject
  | cons d ds ih =>
    obtain ⟨hobject', hinvalid, hrate⟩ :=
      receive_object hobject halive (hds d mem_cons_self)
    have hflags := flags_processVote crypto govobj d.env m.fRateChecksEnabled d.vote
    have hrest := ih hobject' ⟨hflags.1.trans halive.1, hflags.2.trans halive.2⟩ fun d' hd' => ?_
    · rwa [hrate] at hrest
    · obtain ⟨hvalid, hparent, hnotInvalid⟩ := hds d' (mem_cons_of_mem _ hd')
      exact ⟨hvalid, hparent, by rwa [hinvalid]⟩

end

def recordedVote (m : CGovernanceManager) (nHash : UInt256) (mn : COutPoint) (nSignal : ℤ) :
    Option VoteInstance :=
  (m.mapObjects.lookup nHash).bind (·.recordedVote mn nSignal)

def countMatchingVotes (m : CGovernanceManager) (nHash : UInt256) (nSignal nOutcome : ℤ) :
    Option ℕ :=
  (m.mapObjects.lookup nHash).map (·.countMatchingVotes nSignal nOutcome)

/-- Two managers cannot be told apart by the votes of an object. -/
def SameVotes (m m' : CGovernanceManager) (nHash : UInt256) : Prop :=
  (∀ mn nSignal, m.recordedVote nHash mn nSignal = m'.recordedVote nHash mn nSignal) ∧
    ∀ nSignal nOutcome, m.countMatchingVotes nHash nSignal nOutcome =
      m'.countMatchingVotes nHash nSignal nOutcome

/-- A vote of the same masternode for the same signal comes after the object, and is at
least as new if the first one counts at all. -/
def Overtaken (fRate : Bool) (early late : List VoteDelivery) : Prop :=
  ∀ d ∈ early, CGovernanceObject.Supported d.vote.nVoteSignal →
    ∃ d' ∈ late, d'.isFor d.vote.getMasternodeOutpoint d.vote.nVoteSignal ∧
      (d.counts fRate → d'.counts fRate ∧ d.vote.nTime ≤ d'.vote.nTime)

/-- An object that came from the network, with valid votes on it. -/
structure Arrival (crypto : GovernanceCrypto) (m : CGovernanceManager) (env : GovernanceEnv)
    (govobj : CGovernanceObject) (early late : List VoteDelivery) : Prop where
  missing : m.mapObjects.lookup (govobj.getHash crypto) = none
  orphans : ∀ pair, (govobj.getHash crypto, pair) ∉ m.mapOrphanVotes.listItems
  admits : m.Admits crypto env govobj
  noVotes : govobj.mapCurrentMNVotes = ∅
  alive : govobj.fCachedDelete = false ∧ govobj.fExpired = false
  onEarly : ∀ d ∈ early, OnObject crypto m (govobj.getHash crypto) d
  validThen : ∀ d ∈ early, d.vote.isValid crypto env true
  onLate : ∀ d ∈ late, OnObject crypto m (govobj.getHash crypto) d

theorem fCachedDelete_updateSentinelVariables (hnone : govobj.mapCurrentMNVotes = ∅)
    (halive : govobj.fCachedDelete = false) :
    (govobj.updateSentinelVariables env).fCachedDelete = false := by
  have hcount : ∀ nSignal, govobj.getAbsoluteYesCount nSignal = 0 := by
    intro nSignal
    simp [getAbsoluteYesCount, getYesCount,
      CGovernanceObject.getNoCount, CGovernanceObject.countMatchingVotes, hnone]
  have hquorum : 0 < nGovernanceMinQuorum env.net := by
    cases env.net <;> decide
  unfold updateSentinelVariables
  dsimp only
  split
  · exact halive
  · rw [halive, hcount]
    simp [hquorum]

namespace Arrival

variable {early late : List VoteDelivery} (harrival : Arrival crypto m env govobj early late)
include harrival

theorem lookup_after (hwaits : WaitsFor crypto env (govobj.getHash crypto) m m')
    (hds : ∀ d ∈ ds, OnObject crypto m (govobj.getHash crypto) d) :
    ((m'.addGovernanceObject crypto env true govobj).receiveAll crypto
        ds).mapObjects.lookup (govobj.getHash crypto) =
      some ((govobj.updateSentinelVariables env).receiveAll crypto m.fRateChecksEnabled ds) := by
  have hadmits : m'.Admits crypto env govobj := by
    intro hwatchdog
    have hbetter := harrival.admits hwatchdog
    unfold isBetterWatchdog at hbetter ⊢
    rwa [hwaits.watchdog.1, hwaits.watchdog.2]
  obtain ⟨hobject, hinvalid, hrate⟩ := addGovernanceObject_spec
    (by rw [hwaits.objects, harrival.missing]) hadmits hwaits.orphans
  obtain ⟨-, -, -, hexpired, -⟩ := updateSentinelVariables_fields crypto govobj env
  rw [receiveAll_object hobject ⟨fCachedDelete_updateSentinelVariables harrival.noVotes
    harrival.alive.1, hexpired.trans harrival.alive.2⟩ fun d hd => ?_, hrate, hwaits.rate]
  obtain ⟨hvalid, hparent, hnotInvalid⟩ := hds d hd
  exact ⟨hvalid, hparent, by rwa [hinvalid, hwaits.invalid]⟩

theorem waitsFor_self : WaitsFor crypto env (govobj.getHash crypto) m m :=
  ⟨rfl, rfl, rfl, ⟨rfl, rfl⟩, fun pair hpair => absurd hpair (harrival.orphans pair)⟩

end Arrival
end CGovernanceManager

/-! ## Records of a new object -/

namespace CGovernanceObject

variable {fRate : Bool} {mn : COutPoint} {nSignal : ℤ} {early late : List VoteDelivery}
  {ds : List VoteDelivery}

theorem mem_offers_iff {r : VoteInstance} : r ∈ offers fRate 0 mn nSignal ds ↔
    ∃ d ∈ ds, (d.isFor mn nSignal ∧ d.inRate fRate 0) ∧ d.toInstance 0 = r := by
  simp [offers, and_assoc]

theorem latest_offers_of_overtaken (hovertaken : ∀ d ∈ early, d.isFor mn nSignal → d.counts fRate →
      ∃ d' ∈ late, d'.isFor mn nSignal ∧ d'.counts fRate ∧
        d.vote.nTime ≤ d'.vote.nTime) :
    latest nCreationTime {} (offers fRate 0 mn nSignal (early ++ late)) =
      latest nCreationTime {} (offers fRate 0 mn nSignal late) := by
  rw [offers_append, latest_append]
  rcases latest_cases nCreationTime {} (offers fRate 0 mn nSignal early) with
    ⟨heq, -⟩ | hmem
  · rw [heq]
  · -- The newest of the early votes is overtaken by a late one.
    have hnonneg := le_latest nCreationTime {} (offers fRate 0 mn nSignal early)
    obtain ⟨d, hd, ⟨hfor, hrate⟩, heq⟩ := mem_offers_iff.mp hmem
    rw [← heq] at hnonneg ⊢
    have hcounts : d.counts fRate := by
      rw [counts, hrate, Bool.true_and, decide_eq_true_eq]
      exact hnonneg
    obtain ⟨d', hd', hfor', hcounts', hle⟩ := hovertaken d hd hfor hcounts
    obtain ⟨hrate', hnonneg'⟩ := Bool.and_eq_true_iff.mp hcounts'
    have hmem' := mem_offers_iff.mpr ⟨d', hd', ⟨hfor', hrate'⟩, rfl⟩
    exact latest_eq_of_exists_le ⟨_, hmem', hle⟩ ⟨_, hmem', of_decide_eq_true hnonneg'⟩

theorem overtaken_of_latest_offers (hd : d ∈ early)
    (hfor : d.isFor mn nSignal) (hrate : d.inRate fRate 0) (hpos : 0 < d.vote.nTime)
    (hsame : latest nCreationTime {} (offers fRate 0 mn nSignal (early ++ late)) =
    latest nCreationTime {} (offers fRate 0 mn nSignal late)) :
    ∃ d' ∈ late, d'.isFor mn nSignal ∧ d'.counts fRate ∧ d.vote.nTime ≤ d'.vote.nTime := by
  have hle : d.vote.nTime ≤ (latest nCreationTime {}
      (offers fRate 0 mn nSignal (early ++ late))).nCreationTime :=
    le_latest_of_mem nCreationTime (mem_offers_iff.mpr
      ⟨d, mem_append_left _ hd, ⟨hfor, hrate⟩, rfl⟩) {}
  rw [hsame] at hle
  rcases latest_cases nCreationTime {} (offers fRate 0 mn nSignal late) with
    ⟨heq, -⟩ | hmem
  · rw [heq] at hle
    exact absurd hpos hle.not_gt
  · obtain ⟨d', hd', ⟨hfor', hrate'⟩, heq⟩ := mem_offers_iff.mp hmem
    rw [← heq] at hle
    have hle' : d.vote.nTime ≤ d'.vote.nTime := hle
    refine ⟨d', hd', hfor', ?_, hle'⟩
    rw [counts, hrate', Bool.true_and, decide_eq_true_eq]
    exact hpos.le.trans hle'

theorem recordedVote_new {crypto : GovernanceCrypto} {govobj : CGovernanceObject}
    (hnone : govobj.mapCurrentMNVotes = ∅) (hvalid : ∀ d ∈ ds, d.isValid crypto)
    (hsupported : Supported nSignal) : (govobj.receiveAll crypto fRate ds).recordedVote mn nSignal =
      if ds.any (·.isFor mn nSignal) then
        some (latest nCreationTime {} (offers fRate 0 mn nSignal ds))
      else none := by
  have hrecorded : govobj.recordedVote mn nSignal = none := by
    simp [recordedVote, hnone]
  rw [recordedVote_receiveAll hvalid hsupported, hrecorded]
  rfl

end CGovernanceObject

namespace CGovernanceManager

variable {crypto : GovernanceCrypto} {m : CGovernanceManager} {env : GovernanceEnv}
  {govobj : CGovernanceObject} {early late : List VoteDelivery}

theorem sameVotes_iff {nHash : UInt256} {o o' : CGovernanceObject}
    (ho : m.mapObjects.lookup nHash = some o) (ho' : m'.mapObjects.lookup nHash = some o') :
    SameVotes m m' nHash ↔
      ∀ mn nSignal, o.recordedVote mn nSignal = o'.recordedVote mn nSignal := by
  unfold SameVotes recordedVote countMatchingVotes
  rw [ho, ho']
  refine ⟨fun hsame => hsame.1, fun hsame => ⟨hsame, fun nSignal nOutcome => ?_⟩⟩
  simp only [Option.map_some]
  rw [countMatchingVotes_congr fun mn => hsame mn nSignal]

/-- Votes that come before their object count as if they had come after it where each is
overtaken by one that does; with positive timestamps, only there. -/
theorem arrival_order (crypto : GovernanceCrypto) (m : CGovernanceManager)
    (env : GovernanceEnv) (govobj : CGovernanceObject) (early late : List VoteDelivery)
    (harrival : Arrival crypto m env govobj early late) :
    (Overtaken m.fRateChecksEnabled early late → SameVotes
        (((m.receiveAll crypto early).addGovernanceObject crypto env true govobj).receiveAll
          crypto late)
        ((m.addGovernanceObject crypto env true govobj).receiveAll crypto (early ++ late))
        (govobj.getHash crypto)) ∧
    ((∀ d ∈ early, 0 < d.vote.nTime) → SameVotes
        (((m.receiveAll crypto early).addGovernanceObject crypto env true govobj).receiveAll
          crypto late)
        ((m.addGovernanceObject crypto env true govobj).receiveAll crypto (early ++ late))
        (govobj.getHash crypto) →
      Overtaken m.fRateChecksEnabled early late) := by
  have hsplit := harrival.lookup_after (harrival.waitsFor_self.receiveAll harrival.missing
    harrival.onEarly harrival.validThen) harrival.onLate
  have hall := harrival.lookup_after harrival.waitsFor_self
    (List.forall_mem_append.mpr ⟨harrival.onEarly, harrival.onLate⟩)
  rw [sameVotes_iff hsplit hall]
  have hnone := (updateSentinelVariables_fields crypto govobj env).2.2.2.2.trans harrival.noVotes
  have hvalidLate : ∀ d ∈ late, d.isValid crypto := fun d hd => (harrival.onLate d hd).valid
  have hvalid : ∀ d ∈ early ++ late, d.isValid crypto :=
    List.forall_mem_append.mpr ⟨fun d hd => (harrival.onEarly d hd).valid, hvalidLate⟩
  generalize m.fRateChecksEnabled = fRate
  constructor
  · intro hovertaken mn nSignal
    by_cases hsupported : CGovernanceObject.Supported nSignal
    · rw [recordedVote_new hnone hvalidLate hsupported, recordedVote_new hnone hvalid hsupported]
      have hlater : ∀ d ∈ early, d.isFor mn nSignal →
          ∃ d' ∈ late, d'.isFor mn nSignal ∧ (d.counts fRate →
            d'.counts fRate ∧ d.vote.nTime ≤ d'.vote.nTime) := by
        intro d hd hfor
        obtain ⟨rfl, rfl⟩ := isFor_iff.mp hfor
        exact hovertaken d hd hsupported
      have hany : (early ++ late).any (·.isFor mn nSignal) = late.any (·.isFor mn nSignal) := by
        rw [List.any_append, Bool.or_eq_right_iff_imp, List.any_eq_true, List.any_eq_true]
        rintro ⟨d, hd, hfor⟩
        obtain ⟨d', hd', hfor', -⟩ := hlater d hd hfor
        exact ⟨d', hd', hfor'⟩
      rw [hany, latest_offers_of_overtaken fun d hd hfor hcounts => ?_]
      obtain ⟨d', hd', hfor', hnewer⟩ := hlater d hd hfor
      exact ⟨d', hd', hfor', hnewer hcounts⟩
    · rw [recordedVote_receiveAll_of_not hvalidLate hsupported,
        recordedVote_receiveAll_of_not hvalid hsupported]
  · intro hpos hsame d hd hsupported
    have hself : d.isFor d.vote.getMasternodeOutpoint d.vote.nVoteSignal :=
      isFor_iff.mpr ⟨rfl, rfl⟩
    have hany : (early ++ late).any (·.isFor d.vote.getMasternodeOutpoint d.vote.nVoteSignal) =
        true := List.any_eq_true.mpr ⟨d, List.mem_append_left _ hd, hself⟩
    have hrecord := hsame d.vote.getMasternodeOutpoint d.vote.nVoteSignal
    rw [recordedVote_new hnone hvalidLate hsupported,
      recordedVote_new hnone hvalid hsupported] at hrecord
    split_ifs at hrecord with hlate
    by_cases hcounts : d.counts fRate
    · obtain ⟨d', hd', hfor', hnewer⟩ := overtaken_of_latest_offers hd hself
        (Bool.and_eq_true_iff.mp hcounts).1 (hpos d hd) (Option.some.inj hrecord).symm
      exact ⟨d', hd', hfor', fun _ => hnewer⟩
    · obtain ⟨d', hd', hfor'⟩ := List.any_eq_true.mp hlate
      exact ⟨d', hd', hfor', fun h => absurd h hcounts⟩

def proposalVote (m : UInt32) (nOutcome nTime : ℤ) : CGovernanceVote :=
  { fundingVote m nOutcome nTime with nParentHash := emptyProposal.getHash plainGovernanceCrypto }

def earlyVotes : List VoteDelivery :=
  [deliveryAt 1530000010 (proposalVote 0 voteOutcomeYes 1530000000)]

def lateVotes : List VoteDelivery :=
  [deliveryAt 1530003620 (proposalVote 0 voteOutcomeNo 1530003610),
    deliveryAt 1530003620 (proposalVote 1 voteOutcomeYes 1530003610)]

theorem arrival_proposal (hds : ∀ d ∈ late, OnObject plainGovernanceCrypto {}
      (emptyProposal.getHash plainGovernanceCrypto) d) :
    Arrival plainGovernanceCrypto {} (governanceEnvAt 1530000020) emptyProposal earlyVotes
      late where
  missing := by decide +kernel
  orphans := fun _ => not_mem_nil
  admits := fun hwatchdog => absurd hwatchdog (by decide)
  noVotes := rfl
  alive := ⟨rfl, rfl⟩
  onEarly := by
    intro d hd
    rw [mem_singleton.mp hd]
    exact ⟨by decide +kernel, rfl, rfl⟩
  validThen := by decide +kernel
  onLate := hds

/-- The vote is missing from the stored object, and is counted if it comes after it. -/
theorem arrival_order_lost :
    Arrival plainGovernanceCrypto {} (governanceEnvAt 1530000020) emptyProposal earlyVotes [] ∧
    (((receiveAll plainGovernanceCrypto {} earlyVotes).addGovernanceObject
      plainGovernanceCrypto (governanceEnvAt 1530000020) true emptyProposal).receiveAll
        plainGovernanceCrypto []).countMatchingVotes
          (emptyProposal.getHash plainGovernanceCrypto) voteSignalFunding voteOutcomeYes =
            some 0 ∧
    ((addGovernanceObject plainGovernanceCrypto {} (governanceEnvAt 1530000020) true
      emptyProposal).receiveAll plainGovernanceCrypto (earlyVotes ++ [])).countMatchingVotes
          (emptyProposal.getHash plainGovernanceCrypto) voteSignalFunding voteOutcomeYes =
            some 1 := by
  refine ⟨arrival_proposal fun d hd => absurd hd List.not_mem_nil, ?_, ?_⟩
  · decide +kernel
  · decide +kernel

theorem arrival_order_changed :
    (((receiveAll plainGovernanceCrypto {} earlyVotes).addGovernanceObject
      plainGovernanceCrypto (governanceEnvAt 1530000020) true emptyProposal).receiveAll
        plainGovernanceCrypto lateVotes).countMatchingVotes
          (emptyProposal.getHash plainGovernanceCrypto) voteSignalFunding voteOutcomeYes =
            some 1 ∧
    SameVotes
      (((receiveAll plainGovernanceCrypto {} earlyVotes).addGovernanceObject
        plainGovernanceCrypto (governanceEnvAt 1530000020) true emptyProposal).receiveAll
          plainGovernanceCrypto lateVotes)
      ((addGovernanceObject plainGovernanceCrypto {} (governanceEnvAt 1530000020) true
        emptyProposal).receiveAll plainGovernanceCrypto (earlyVotes ++ lateVotes))
      (emptyProposal.getHash plainGovernanceCrypto) := by
  have harrival : Arrival plainGovernanceCrypto {} (governanceEnvAt 1530000020) emptyProposal
      earlyVotes lateVotes := by
    refine arrival_proposal fun d hd => ?_
    rcases List.mem_pair.mp hd with rfl | rfl
    · exact ⟨by decide +kernel, rfl, rfl⟩
    · exact ⟨by decide +kernel, rfl, rfl⟩
  refine ⟨by decide +kernel, (arrival_order plainGovernanceCrypto {} _ emptyProposal earlyVotes
    lateVotes harrival).1 fun d hd _ => ?_⟩
  rw [List.mem_singleton.mp hd]
  exact ⟨_, List.mem_cons_self, by decide +kernel, fun _ => by decide +kernel⟩

end CGovernanceManager
end ImageCoin.Governance
