import ImageCoin.MapEntries
import ImageCoin.Masternode

/-!
# The masternode list

`CMasternodeMan::CheckMnbAndUpdateMasternodeList`: a broadcast is remembered, updates
the entry of its collateral output or adds one.
-/

namespace ImageCoin

variable {Addr : Type}

/-- Peers are told apart by their addresses. -/
structure CMasternodeMan (Addr : Type) where
  mapMasternodes : AList fun _ : COutPoint => CMasternode Addr := ∅
  mapSeenMasternodeBroadcast : AList fun _ : UInt256 => ℤ × CMasternodeBroadcast Addr := ∅
  mapSeenMasternodePing : AList fun _ : UInt256 => CMasternodePing := ∅
  mMnbRecoveryRequests : AList fun _ : UInt256 => ℤ × List Addr := ∅
  mMnbRecoveryGoodReplies : AList fun _ : UInt256 => List (CMasternodeBroadcast Addr) := ∅
  nLastWatchdogVoteTime : ℤ := 0

/-- A broadcast, what the node knows then, and the address of the peer that sent it;
there is no peer in recovery. -/
structure MnbMessage (Addr : Type) where
  env : MasternodeEnv Addr
  pfrom : Option Addr
  mnb : CMasternodeBroadcast Addr

section
variable [Inhabited Addr] [DecidableEq Addr] (crypto : MasternodeCrypto Addr)
  (ledger : UInt256 → Option CTransaction)

def CMasternodeBroadcast.empty (env : MasternodeEnv Addr) : CMasternodeBroadcast Addr where
  vin := ⟨⟨0, 0xffffffff⟩, [], 0xffffffff⟩
  addr := default
  pubKeyCollateralAddress := []
  pubKeyMasternode := []
  sigTime := env.getAdjustedTime
  nProtocolVersion := protocolVersion
  vchSig := []
  nActiveState := .enabled
  lastPing := .empty
  nTimeLastWatchdogVote := 0
  nTimeLastChecked := 0
  nCollateralMinConfBlockHash := 0
  nPoSeBanScore := 0
  nPoSeBanHeight := 0
  fRecovery := false

def CMasternodeBroadcast.toMasternode (mnb : CMasternodeBroadcast Addr) : CMasternode Addr :=
  { mnb.toCMasternode with
    nTimeLastWatchdogVote := mnb.sigTime
    nTimeLastChecked := 0
    nCollateralMinConfBlockHash := 0
    nBlockLastPaid := 0
    nPoSeBanScore := 0
    nPoSeBanHeight := 0 }

def CMasternode.takeBroadcast (pmn : CMasternode Addr) (mnb : CMasternodeBroadcast Addr) :
    CMasternode Addr :=
  { pmn with
    pubKeyMasternode := mnb.pubKeyMasternode
    sigTime := mnb.sigTime
    vchSig := mnb.vchSig
    nProtocolVersion := mnb.nProtocolVersion
    addr := mnb.addr
    nPoSeBanScore := 0
    nPoSeBanHeight := 0
    nTimeLastChecked := 0 }

namespace CMasternodeMan

variable (s : CMasternodeMan Addr) (env : MasternodeEnv Addr)

def size : ℕ := s.mapMasternodes.entries.length

def isOurs (mnb : CMasternodeBroadcast Addr) : Bool :=
  env.fMasterNode && mnb.pubKeyMasternode = env.activePubKeyMasternode

def setSeenPing (hash : UInt256) (mnp : CMasternodePing) : CMasternodeMan Addr :=
  match s.mapSeenMasternodeBroadcast.lookup hash with
  | none => s
  | some (nTime, seen) =>
    { s with
      mapSeenMasternodeBroadcast :=
        s.mapSeenMasternodeBroadcast.insert hash (nTime, { seen with lastPing := mnp }) }

def insertSeenPing (mnp : CMasternodePing) : CMasternodeMan Addr :=
  match s.mapSeenMasternodePing.lookup (mnp.getHash crypto) with
  | some _ => s
  | none =>
    { s with
      mapSeenMasternodePing := s.mapSeenMasternodePing.insert (mnp.getHash crypto) mnp }

variable (pmn : CMasternode Addr)

/-- The ping of a new broadcast is stored if there is none in it or if it is right. -/
def takePing (mnp : CMasternodePing) : CMasternode Addr × CMasternodeMan Addr :=
  if mnp.same .empty then ({ pmn with lastPing := mnp }, s.insertSeenPing crypto mnp)
  else
    match mnp.checkAndUpdate crypto ledger env pmn s.size true with
    | .error _ => (pmn, s)
    | .ok accepted =>
      let s := s.setSeenPing (accepted.mn.getHash crypto) mnp
      (accepted.mn, if accepted.relayed then s.insertSeenPing crypto mnp else s)

variable (mnb : CMasternodeBroadcast Addr)

/-- `CMasternode::UpdateFromNewBroadcast`: whether it succeeds, the entry, and the list
with the pings that were seen. -/
def updateFromNewBroadcast : Bool × CMasternode Addr × CMasternodeMan Addr :=
  if mnb.sigTime ≤ pmn.sigTime && !mnb.fRecovery then (false, pmn, s)
  else
    let pinged := s.takePing crypto ledger env (pmn.takeBroadcast mnb) mnb.lastPing
    if isOurs env mnb then
      (mnb.nProtocolVersion = protocolVersion,
        { pinged.1 with nPoSeBanScore := -masternodePoseBanMaxScore }, pinged.2)
    else (true, pinged)

def setEntry (outpoint : COutPoint) (mn : CMasternode Addr) : CMasternodeMan Addr :=
  { s with mapMasternodes := s.mapMasternodes.insert outpoint mn }

def update (pmn : CMasternode Addr) (mnb : CMasternodeBroadcast Addr) :
    Except ℕ Unit × CMasternodeMan Addr :=
  if pmn.sigTime = mnb.sigTime && !mnb.fRecovery then (.error 0, s)
  else if pmn.sigTime > mnb.sigTime then (.error 0, s)
  else
    let pmn := pmn.check ledger env s.size false
    let s := s.setEntry mnb.vin.prevout pmn
    if pmn.nActiveState = .poseBan then (.error 0, s)
    else if pmn.pubKeyCollateralAddress ≠ mnb.pubKeyCollateralAddress then (.error 33, s)
    else if !mnb.checkSignature crypto then (.error 100, s)
    else if !(env.getAdjustedTime - pmn.sigTime < masternodeMinMnbSeconds) || isOurs env mnb then
      match s.updateFromNewBroadcast crypto ledger env pmn mnb with
      | (true, pmn, s) =>
        (.ok (), s.setEntry mnb.vin.prevout (pmn.check ledger env s.size false))
      | (false, pmn, s) => (.ok (), s.setEntry mnb.vin.prevout pmn)
    else (.ok (), s)

def add (mn : CMasternode Addr) : CMasternodeMan Addr :=
  if (s.mapMasternodes.lookup mn.vin.prevout).isSome then s
  else s.setEntry mn.vin.prevout mn

variable (pfrom : Option Addr)

/-- A broadcast that was seen: its time is renewed when it is about to expire, and a
good answer to a recovery request is collected. -/
def seenAgain (mnb : CMasternodeBroadcast Addr) (hash : UInt256)
    (nTime : ℤ) (seen : CMasternodeBroadcast Addr) : CMasternodeMan Addr :=
  let s :=
    if env.getTime - nTime > masternodeNewStartRequiredSeconds - masternodeMinMnpSeconds * 2 then
      { s with
        mapSeenMasternodeBroadcast :=
          s.mapSeenMasternodeBroadcast.insert hash (env.getTime, seen) }
    else s
  match pfrom, s.mMnbRecoveryRequests.lookup hash with
  | some peer, some (nUntil, peers) =>
    if env.getTime < nUntil && peers.contains peer then
      let s :=
        { s with
          mMnbRecoveryRequests :=
            s.mMnbRecoveryRequests.insert hash (nUntil, peers.erase peer) }
      let mnTemp := mnb.toMasternode.check ledger env s.size false
      if mnb.lastPing.sigTime > seen.lastPing.sigTime &&
          (mnTemp.nActiveState = .enabled || mnTemp.nActiveState = .preEnabled ||
            mnTemp.nActiveState = .expired || mnTemp.nActiveState = .watchdogExpired) then
        { s with
          mMnbRecoveryGoodReplies := s.mMnbRecoveryGoodReplies.insert hash
            ((s.mMnbRecoveryGoodReplies.lookup hash).getD [] ++ [mnb]) }
      else s
    else s
  | _, _ => s

/-- The broadcast that made an entry, by `operator[]`, which inserts a default. -/
def seenBroadcast : CMasternodeBroadcast Addr × CMasternodeMan Addr :=
  match s.mapSeenMasternodeBroadcast.lookup (pmn.getHash crypto) with
  | some (_, seen) => (seen, s)
  | none =>
    (.empty env,
      { s with
        mapSeenMasternodeBroadcast :=
          s.mapSeenMasternodeBroadcast.insert (pmn.getHash crypto) (0, .empty env) })

def eraseSeen (hash : UInt256) : CMasternodeMan Addr :=
  { s with mapSeenMasternodeBroadcast := s.mapSeenMasternodeBroadcast.erase hash }

def updateKnown (hash : UInt256) : Bool × ℕ × CMasternodeMan Addr :=
  let old := s.seenBroadcast crypto env pmn
  match old.2.update crypto ledger env pmn mnb with
  | (.error nDos, s) => (false, nDos, s)
  | (.ok (), s) =>
    let hashOld := old.1.getHash crypto
    (true, 0, if hash ≠ hashOld then s.eraseSeen hashOld else s)

def addNew (nDos : ℕ) (hash : UInt256) : Bool × ℕ × CMasternodeMan Addr :=
  match mnb.checkOutpoint crypto ledger env nDos with
  | .error refused =>
    (false, refused.nDos, if refused.eraseSeen then s.eraseSeen hash else s)
  | .ok mnb =>
    -- Our own masternode has to be activated again if its version is not ours.
    (!isOurs env mnb || mnb.nProtocolVersion = protocolVersion, 0, s.add mnb.toCMasternode)

def checkMnbAndUpdateMasternodeList (mnb : CMasternodeBroadcast Addr) :
    Bool × ℕ × CMasternodeMan Addr :=
  let hash := mnb.getHash crypto
  match s.mapSeenMasternodeBroadcast.lookup hash, mnb.fRecovery with
  | some (nTime, seen), false => (true, 0, s.seenAgain ledger env pfrom mnb hash nTime seen)
  | known, _ =>
    let s := if known.isSome then s else
      { s with
        mapSeenMasternodeBroadcast :=
          s.mapSeenMasternodeBroadcast.insert hash (env.getTime, mnb) }
    match mnb.simpleCheck crypto env with
    | (nDos, none) => (false, nDos, s)
    | (nDos, some mnb) =>
      match s.mapMasternodes.lookup mnb.vin.prevout with
      | some pmn => s.updateKnown crypto ledger env pmn mnb hash
      | none => s.addNew crypto ledger env mnb nDos hash

def processBroadcasts (messages : List (MnbMessage Addr)) : CMasternodeMan Addr :=
  messages.foldl (fun s message =>
    (s.checkMnbAndUpdateMasternodeList crypto ledger message.env message.pfrom message.mnb).2.2) s

end CMasternodeMan
end

/-! ## What changes the masternode list -/

section
open MapEntries CMasternode
variable {Addr : Type}

namespace CMasternode

variable (mn : CMasternode Addr)

def isPoSeBanned : Bool := mn.nActiveState = .poseBan

def increasePoSeBanScore : CMasternode Addr :=
  if mn.nPoSeBanScore < masternodePoseBanMaxScore then
    { mn with nPoSeBanScore := mn.nPoSeBanScore + 1 }
  else mn

def decreasePoSeBanScore : CMasternode Addr :=
  if mn.nPoSeBanScore > -masternodePoseBanMaxScore then
    { mn with nPoSeBanScore := mn.nPoSeBanScore - 1 }
  else mn

def poSeBan : CMasternode Addr := { mn with nPoSeBanScore := masternodePoseBanMaxScore }

def updateWatchdogVoteTime (env : MasternodeEnv Addr) (nVoteTime : ℤ) : CMasternode Addr :=
  { mn with nTimeLastWatchdogVote := if nVoteTime = 0 then env.getAdjustedTime else nVoteTime }

end CMasternode

def CMasternodeBroadcast.received (mnb : CMasternodeBroadcast Addr) : CMasternodeBroadcast Addr :=
  { mnb with
    nActiveState := .enabled
    nTimeLastWatchdogVote := 0
    nTimeLastChecked := 0
    nCollateralMinConfBlockHash := 0
    nBlockLastPaid := 0
    nPoSeBanScore := 0
    nPoSeBanHeight := 0 }

inductive ScoreChange where
  | increase
  | decrease
  | ban
  deriving DecidableEq

def ScoreChange.apply : ScoreChange → CMasternode Addr → CMasternode Addr
  | .increase => increasePoSeBanScore
  | .decrease => decreasePoSeBanScore
  | .ban => poSeBan

theorem checkAndUpdate_ok {crypto : MasternodeCrypto Addr}
    {ledger : UInt256 → Option CTransaction} {env : MasternodeEnv Addr} {pmn : CMasternode Addr}
    {mnp : CMasternodePing} {size : ℕ} {fFromNewBroadcast : Bool} {accepted : AcceptedPing Addr}
    (hok : mnp.checkAndUpdate crypto ledger env pmn size fFromNewBroadcast = .ok accepted) :
    crypto.verifyMessage pmn.pubKeyMasternode mnp.vchSig (mnp.strMessage crypto) ∧
      accepted.mn = check ledger env { pmn with lastPing := mnp } size true := by
  unfold CMasternodePing.checkAndUpdate at hok
  cases hsimple : mnp.simpleCheck env with
  | error nDos => simp [hsimple, bind, Except.bind] at hok
  | ok =>
    simp only [hsimple, bind, Except.bind, throw, throwThe, MonadExceptOf.throw] at hok
    split_ifs at hok with _ _ _ hsigned
    cases hok
    exact ⟨by simpa using hsigned, rfl⟩

abbrev ListedMasternode (Addr : Type) : Type := (_ : COutPoint) × CMasternode Addr

namespace CMasternodeMan

variable [Inhabited Addr] [DecidableEq Addr] (crypto : MasternodeCrypto Addr)
  (ledger : UInt256 → Option CTransaction) (s : CMasternodeMan Addr) (env : MasternodeEnv Addr)

def watchdogEnv : MasternodeEnv Addr :=
  { env with
    isWatchdogActive := env.getTime - s.nLastWatchdogVoteTime ≤ masternodeWatchdogMaxSeconds }

def updateWatchdogVoteTime (outpoint : COutPoint) (nVoteTime : ℤ) : CMasternodeMan Addr :=
  match s.mapMasternodes.lookup outpoint with
  | none => s
  | some pmn =>
    { s.setEntry outpoint (pmn.updateWatchdogVoteTime env nVoteTime) with
      nLastWatchdogVoteTime := env.getTime }

def updatePing (pmn : CMasternode Addr) (mnp : CMasternodePing) : CMasternodeMan Addr :=
  if pmn.nActiveState = .newStartRequired then s
  else
    match mnp.checkAndUpdate crypto ledger (s.watchdogEnv env) pmn s.size false with
    | .error _ => s
    | .ok accepted =>
      (s.setSeenPing (accepted.mn.getHash crypto) mnp).setEntry mnp.vin.prevout accepted.mn

/-- `MNPING`: the ping is remembered, and the watchdog time set, before the signature is
checked. -/
def processPing (mnp : CMasternodePing) : CMasternodeMan Addr :=
  if !env.isBlockchainSynced then s
  else if (s.mapSeenMasternodePing.lookup (mnp.getHash crypto)).isSome then s
  else
    let s := s.insertSeenPing crypto mnp
    let s :=
      if mnp.fSentinelIsCurrent then s.updateWatchdogVoteTime env mnp.vin.prevout mnp.sigTime
      else s
    match s.mapMasternodes.lookup mnp.vin.prevout with
    | none => s
    | some pmn => s.updatePing crypto ledger env pmn mnp

def processAnnounce (pfrom : Option Addr) (mnb : CMasternodeBroadcast Addr) : CMasternodeMan Addr :=
  if !env.isBlockchainSynced && !mnb.fRecovery then s
  else
    (s.checkMnbAndUpdateMasternodeList crypto ledger (s.watchdogEnv env) pfrom mnb.received).2.2

variable (mnb : CMasternodeBroadcast Addr)

def insertSeenBroadcast : CMasternodeMan Addr :=
  { s with
    mapSeenMasternodeBroadcast :=
      insertNew s.mapSeenMasternodeBroadcast (mnb.getHash crypto) (env.getTime, mnb) }

/-- `UpdateMasternodeList`, for a broadcast of the node itself.  Unlike
`CMasternodeBroadcast::Update` it updates a banned masternode. -/
def updateMasternodeList : CMasternodeMan Addr :=
  let s := (s.insertSeenPing crypto mnb.lastPing).insertSeenBroadcast crypto env mnb
  match s.mapMasternodes.lookup mnb.vin.prevout with
  | none => s.add mnb.toCMasternode
  | some pmn =>
    let old := s.seenBroadcast crypto env pmn
    match old.2.updateFromNewBroadcast crypto ledger (s.watchdogEnv env) pmn mnb with
    | (true, pmn, s) => (s.setEntry mnb.vin.prevout pmn).eraseSeen (old.1.getHash crypto)
    | (false, pmn, s) => s.setEntry mnb.vin.prevout pmn

def sendEntries (outpoints : List COutPoint) : CMasternodeMan Addr :=
  outpoints.foldl (fun s outpoint =>
    match s.mapMasternodes.lookup outpoint with
    | none => s
    | some mn =>
      (s.insertSeenBroadcast crypto env { mn with fRecovery := false }).insertSeenPing crypto
        mn.lastPing) s

def checkAll : CMasternodeMan Addr :=
  { s with
    mapMasternodes := mapValues s.mapMasternodes fun mn =>
      mn.check ledger (s.watchdogEnv env) s.size false }

def changeScore (change : ScoreChange) (outpoint : COutPoint) : CMasternodeMan Addr :=
  { s with mapMasternodes := adjust s.mapMasternodes outpoint change.apply }

end CMasternodeMan

/-- What happens to the list, and what the node knows then. -/
inductive MasternodeStep (Addr : Type) where
  | announce (env : MasternodeEnv Addr) (pfrom : Option Addr) (mnb : CMasternodeBroadcast Addr)
  | ping (env : MasternodeEnv Addr) (mnp : CMasternodePing)
  | dseg (env : MasternodeEnv Addr) (outpoints : List COutPoint)
  | start (env : MasternodeEnv Addr) (mnb : CMasternodeBroadcast Addr)
  | check (env : MasternodeEnv Addr)
  | watchdogVote (env : MasternodeEnv Addr) (outpoint : COutPoint)
  | score (change : ScoreChange) (outpoint : COutPoint)

def CMasternodeMan.step [Inhabited Addr] [DecidableEq Addr] (crypto : MasternodeCrypto Addr)
    (ledger : UInt256 → Option CTransaction) (s : CMasternodeMan Addr) :
    MasternodeStep Addr → CMasternodeMan Addr
  | .announce env pfrom mnb => s.processAnnounce crypto ledger env pfrom mnb
  | .ping env mnp => s.processPing crypto ledger env mnp
  | .dseg env outpoints => s.sendEntries crypto env outpoints
  | .start env mnb => s.updateMasternodeList crypto ledger env mnb.received
  | .check env => s.checkAll ledger env
  | .watchdogVote env outpoint => s.updateWatchdogVoteTime env outpoint 0
  | .score change outpoint => s.changeScore change outpoint

end
end ImageCoin
