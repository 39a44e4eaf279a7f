import ImageCoin.ChainParams
import ImageCoin.Spork
import Mathlib.Data.List.AList

/-!
# Masternodes and their broadcasts

Entries of the masternode list with the checks of `masternode.cpp`: the state that `Check`
gives an entry, pings, and the broadcasts that announce a masternode for a collateral output.
-/

namespace ImageCoin

open ByteStream

abbrev CPubKey := Bytes

def masternodePrice : CAmount := 10000 * coin

def protocolVersion : ℤ := 70224

def masternodeCheckSeconds : ℤ := 5

def masternodeMinMnbSeconds : ℤ := 5 * 60

def masternodeMinMnpSeconds : ℤ := 10 * 60

def masternodeExpirationSeconds : ℤ := 65 * 60

def masternodeWatchdogMaxSeconds : ℤ := 120 * 60

def masternodeNewStartRequiredSeconds : ℤ := 180 * 60

def masternodePoseBanMaxScore : ℤ := 5

def nMasternodeMinimumConfirmations : Network → ℤ
  | .main => 15
  | .test => 1
  | .regtest => 1

inductive MasternodeState where
  | preEnabled
  | enabled
  | expired
  | outpointSpent
  | updateRequired
  | watchdogExpired
  | newStartRequired
  | poseBan
  deriving DecidableEq

structure CMasternodePing where
  vin : CTxIn
  blockHash : UInt256
  sigTime : ℤ
  vchSig : Bytes
  /-- Neither the hash nor the signature covers this flag. -/
  fSentinelIsCurrent : Bool := false
  deriving DecidableEq

def CMasternodePing.empty : CMasternodePing where
  vin := ⟨⟨0, 0xffffffff⟩, [], 0xffffffff⟩
  blockHash := 0
  sigTime := 0
  vchSig := []

def CMasternodePing.same (a b : CMasternodePing) : Bool :=
  a.vin = b.vin && a.blockHash = b.blockHash

structure CMasternode (Addr : Type) where
  vin : CTxIn
  addr : Addr
  pubKeyCollateralAddress : CPubKey
  pubKeyMasternode : CPubKey
  sigTime : ℤ
  nProtocolVersion : ℤ
  vchSig : Bytes
  nActiveState : MasternodeState
  lastPing : CMasternodePing
  nTimeLastWatchdogVote : ℤ
  nTimeLastChecked : ℤ
  nCollateralMinConfBlockHash : UInt256
  nBlockLastPaid : ℤ := 0
  nPoSeBanScore : ℤ
  nPoSeBanHeight : ℤ

structure CMasternodeBroadcast (Addr : Type) extends CMasternode Addr where
  fRecovery : Bool

/-- Hashing, signatures and texts. -/
structure MasternodeCrypto (Addr : Type) where
  /-- `CHashWriter` -/
  hash : Bytes → UInt256
  /-- `CPubKey::GetID` -/
  getID : CPubKey → BitVec 160
  /-- `CMessageSigner::VerifyMessage` of a key, a signature and a message. -/
  verifyMessage : CPubKey → Bytes → List Char → Bool
  addrToString : Addr → List Char
  txInToString : CTxIn → List Char

/-- What the node knows when a message is handled. -/
structure MasternodeEnv (Addr : Type) where
  net : Network
  getTime : ℤ
  getAdjustedTime : ℤ
  shutdownRequested : Bool
  /-- Whether `TRY_LOCK(cs_main)` succeeds. -/
  lockMain : Bool
  chainHeight : ℤ
  /-- `chainActive[nHeight]`: the hash and the time of a block. -/
  blockAt : ℤ → Option (UInt256 × ℤ)
  /-- The height of a block in `mapBlockIndex`. -/
  blockHeight : UInt256 → Option ℤ
  /-- The block of a transaction that `GetTransaction` finds. -/
  blockOfTransaction : UInt256 → Option UInt256
  /-- The height of a coin that `GetUTXOCoin` finds. -/
  coinHeight : COutPoint → Option ℤ
  fMasterNode : Bool
  activeOutpoint : COutPoint
  activePubKeyMasternode : CPubKey
  isBlockchainSynced : Bool := true
  isMasternodeListSynced : Bool
  isSynced : Bool
  isWatchdogActive : Bool
  getMinMasternodePaymentsProto : ℤ
  /-- `IsIPv4`, `IsReachable` and `IsRoutable` -/
  isRoutableIPv4 : Addr → Bool
  getPort : Addr → ℕ

section
variable {Addr : Type} (crypto : MasternodeCrypto Addr)
  -- The transactions by their hashes, whether the node has them or not.
  (ledger : UInt256 → Option CTransaction) (env : MasternodeEnv Addr)

inductive CollateralStatus where
  | ok (nHeight : ℤ)
  | utxoNotFound
  | invalidAmount
  deriving DecidableEq

variable (outpoint : COutPoint)

def getUTXOCoin : Option (CTxOut × ℤ) := do
  let nHeight ← env.coinHeight outpoint
  let tx ← ledger outpoint.hash
  let out ← tx.vout[outpoint.n.toNat]?
  pure (out, nHeight)

def checkCollateral : CollateralStatus :=
  match getUTXOCoin ledger env outpoint with
  | none => .utxoNotFound
  | some (out, nHeight) => if out.nValue ≠ masternodePrice then .invalidAmount else .ok nHeight

def getScriptForDestination (keyID : BitVec 160) : CScript :=
  [OP_DUP, OP_HASH160, 20] ++ leBytes 20 keyID.toNat ++ [OP_EQUALVERIFY, OP_CHECKSIG]

variable (mn : CMasternode Addr)

/-- `CMasternode::IsInputAssociatedWithPubkey`: some output of the transaction pays the
price to the key, not necessarily the output that is named. -/
def CMasternode.isInputAssociatedWithPubkey : Bool :=
  let payee := getScriptForDestination (crypto.getID mn.pubKeyCollateralAddress)
  match env.blockOfTransaction mn.vin.prevout.hash, ledger mn.vin.prevout.hash with
  | some _, some tx =>
    tx.vout.any fun out => out.nValue = masternodePrice && out.scriptPubKey = payee
  | _, _ => false

def CMasternode.isPingedWithin (nSeconds : ℤ) (nTimeToCheckAt : ℤ := -1) : Bool :=
  let nTimeToCheckAt := if nTimeToCheckAt = -1 then env.getAdjustedTime else nTimeToCheckAt
  !mn.lastPing.same .empty && nTimeToCheckAt - mn.lastPing.sigTime < nSeconds

/-- The end of `Check`, for an entry whose collateral is there and that is not banned. -/
def CMasternode.checkedState : MasternodeState :=
  let fOurMasternode := env.fMasterNode && env.activePubKeyMasternode = mn.pubKeyMasternode
  let fRequireUpdate := mn.nProtocolVersion < env.getMinMasternodePaymentsProto ||
    (fOurMasternode && mn.nProtocolVersion < protocolVersion)
  let pingedWithin := fun nSeconds => mn.isPingedWithin env nSeconds
  let fWaitForPing := !env.isMasternodeListSynced && !pingedWithin masternodeMinMnpSeconds
  let fExpires := !fWaitForPing || fOurMasternode
  let fWatchdogExpired := env.isSynced && env.isWatchdogActive &&
    env.getAdjustedTime - mn.nTimeLastWatchdogVote > masternodeWatchdogMaxSeconds
  if fRequireUpdate then .updateRequired
  else if fWaitForPing && !fOurMasternode &&
      (mn.nActiveState = .expired || mn.nActiveState = .watchdogExpired ||
        mn.nActiveState = .newStartRequired) then mn.nActiveState
  else if fExpires && !pingedWithin masternodeNewStartRequiredSeconds then .newStartRequired
  else if fExpires && fWatchdogExpired then .watchdogExpired
  else if fExpires && !pingedWithin masternodeExpirationSeconds then .expired
  else if mn.lastPing.sigTime - mn.sigTime < masternodeMinMnpSeconds then .preEnabled
  else .enabled

def CMasternode.check (mn : CMasternode Addr) (size : ℕ) (fForce : Bool) : CMasternode Addr :=
  if env.shutdownRequested then mn
  else if !fForce && env.getTime - mn.nTimeLastChecked < masternodeCheckSeconds then mn
  else
    let mn := { mn with nTimeLastChecked := env.getTime }
    if mn.nActiveState = .outpointSpent then mn
    else if !env.lockMain then mn
    else if checkCollateral ledger env mn.vin.prevout = .utxoNotFound then
      { mn with nActiveState := .outpointSpent }
    else if mn.nActiveState = .poseBan then
      if env.chainHeight < mn.nPoSeBanHeight then mn
      else
        -- Back in the list, but on the edge.
        let mn :=
          { mn with
            nPoSeBanScore :=
              if mn.nPoSeBanScore > -masternodePoseBanMaxScore then mn.nPoSeBanScore - 1
              else mn.nPoSeBanScore }
        { mn with nActiveState := mn.checkedState env }
    else if mn.nPoSeBanScore ≥ masternodePoseBanMaxScore then
      { mn with nActiveState := .poseBan, nPoSeBanHeight := env.chainHeight + size }
    else { mn with nActiveState := mn.checkedState env }

variable (mnp : CMasternodePing)

def CMasternodePing.getHash : UInt256 :=
  crypto.hash (mnp.vin.serialize ++ serializeAmount (Int64.ofInt mnp.sigTime))

def CMasternodePing.strMessage : List Char :=
  crypto.txInToString mnp.vin ++ (uint256ToString mnp.blockHash ++ lexicalCast mnp.sigTime)

def CMasternodePing.simpleCheck : Except ℕ Unit :=
  if mnp.sigTime > env.getAdjustedTime + 60 * 60 then .error 1
  else if (env.blockHeight mnp.blockHash).isNone then .error 0
  else .ok ()

/-- A ping that was stored, and whether it is relayed. -/
structure AcceptedPing (Addr : Type) where
  mn : CMasternode Addr
  relayed : Bool

/-- `CMasternodePing::CheckAndUpdate` of a known masternode, with `nDos` if the ping is
not stored. -/
def CMasternodePing.checkAndUpdate (pmn : CMasternode Addr)
    (size : ℕ) (fFromNewBroadcast : Bool) : Except ℕ (AcceptedPing Addr) := do
  mnp.simpleCheck env
  if !fFromNewBroadcast &&
      (pmn.nActiveState = .updateRequired || pmn.nActiveState = .newStartRequired) then
    throw 0
  if ((env.blockHeight mnp.blockHash).any fun nHeight => nHeight < env.chainHeight - 24) then
    throw 0
  if pmn.isPingedWithin env (masternodeMinMnpSeconds - 60) mnp.sigTime then throw 0
  if !crypto.verifyMessage pmn.pubKeyMasternode mnp.vchSig (mnp.strMessage crypto) then
    throw 33
  let pmn := CMasternode.check ledger env { pmn with lastPing := mnp } size true
  pure ⟨pmn, pmn.nActiveState = .enabled || pmn.nActiveState = .expired ||
    pmn.nActiveState = .watchdogExpired⟩

structure BroadcastContent (Addr : Type) where
  outpoint : COutPoint
  addr : Addr
  pubKeyCollateralAddress : CPubKey
  pubKeyMasternode : CPubKey
  sigTime : ℤ
  nProtocolVersion : ℤ
  deriving DecidableEq

def BroadcastContent.strMessage (content : BroadcastContent Addr) : List Char :=
  crypto.addrToString content.addr ++ (lexicalCast content.sigTime ++
    (hexText 40 (crypto.getID content.pubKeyCollateralAddress).toNat ++
      (hexText 40 (crypto.getID content.pubKeyMasternode).toNat ++
        lexicalCast content.nProtocolVersion)))

def CMasternode.content : BroadcastContent Addr where
  outpoint := mn.vin.prevout
  addr := mn.addr
  pubKeyCollateralAddress := mn.pubKeyCollateralAddress
  pubKeyMasternode := mn.pubKeyMasternode
  sigTime := mn.sigTime
  nProtocolVersion := mn.nProtocolVersion

def CMasternode.getHash : UInt256 :=
  crypto.hash (mn.vin.serialize ++ (writeBlob mn.pubKeyCollateralAddress ++
    serializeAmount (Int64.ofInt mn.sigTime)))

def CMasternode.checkSignature : Bool :=
  crypto.verifyMessage mn.pubKeyCollateralAddress mn.vchSig (mn.content.strMessage crypto)

def mainnetDefaultPort : ℕ := 6998

variable (mnb : CMasternodeBroadcast Addr)

/-- A broadcast whose ping is missing or not right is marked as expired; `nDos` is that
of the ping. -/
def CMasternodeBroadcast.checkPing : ℕ × CMasternodeBroadcast Addr :=
  if mnb.lastPing.same .empty then (0, { mnb with nActiveState := .expired })
  else
    match mnb.lastPing.simpleCheck env with
    | .error nDos => (nDos, { mnb with nActiveState := .expired })
    | .ok () => (0, mnb)

/-- `CMasternodeBroadcast::SimpleCheck`: `nDos`, and the broadcast if it passes. -/
def CMasternodeBroadcast.simpleCheck : ℕ × Option (CMasternodeBroadcast Addr) :=
  let checked := mnb.checkPing env
  if !(env.net = .regtest || env.isRoutableIPv4 mnb.addr) then (0, none)
  else if mnb.sigTime > env.getAdjustedTime + 60 * 60 then (1, none)
  else if mnb.nProtocolVersion < env.getMinMasternodePaymentsProto then (checked.1, none)
  else if (getScriptForDestination (crypto.getID mnb.pubKeyCollateralAddress)).length ≠ 25 then
    (100, none)
  else if (getScriptForDestination (crypto.getID mnb.pubKeyMasternode)).length ≠ 25 then
    (100, none)
  else if !mnb.vin.scriptSig.isEmpty then (100, none)
  else if env.net = .main && env.getPort mnb.addr ≠ mainnetDefaultPort then (checked.1, none)
  else if env.net ≠ .main && env.getPort mnb.addr = mainnetDefaultPort then (checked.1, none)
  else (checked.1, some checked.2)

/-- A broadcast that `CheckOutpoint` refuses; some may be checked again later. -/
structure RefusedOutpoint where
  nDos : ℕ
  eraseSeen : Bool
  deriving DecidableEq

/-- `CMasternodeBroadcast::CheckOutpoint`: the broadcast with the block that gave the
collateral its confirmations. -/
def CMasternodeBroadcast.checkOutpoint (nDos : ℕ) :
    Except RefusedOutpoint (CMasternodeBroadcast Addr) :=
  let nConfirmations := nMasternodeMinimumConfirmations env.net
  if env.fMasterNode && mnb.vin.prevout = env.activeOutpoint &&
      mnb.pubKeyMasternode = env.activePubKeyMasternode then .error ⟨nDos, false⟩
  else if !mnb.checkSignature crypto then .error ⟨100, false⟩
  else if !env.lockMain then .error ⟨0, true⟩
  else
    match checkCollateral ledger env mnb.vin.prevout with
    | .utxoNotFound => .error ⟨0, false⟩
    | .invalidAmount => .error ⟨0, false⟩
    | .ok nHeight =>
      if env.chainHeight - nHeight + 1 < nConfirmations then .error ⟨0, true⟩
      else
        let block := env.blockAt (nHeight + nConfirmations - 1)
        let mnb :=
          { mnb with nCollateralMinConfBlockHash := (block.map Prod.fst).getD 0 }
        if !mnb.isInputAssociatedWithPubkey crypto ledger env then .error ⟨33, false⟩
        else
          let pMNIndex := (env.blockOfTransaction mnb.vin.prevout.hash).bind env.blockHeight
          match pMNIndex with
          | none => .ok mnb
          | some nHeight =>
            match env.blockAt (nHeight + nConfirmations - 1) with
            -- A null pointer in the source.
            | none => .error ⟨0, false⟩
            | some pConfIndex =>
              if pConfIndex.2 > mnb.sigTime then .error ⟨0, false⟩ else .ok mnb

end
end ImageCoin
