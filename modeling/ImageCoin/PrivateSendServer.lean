import ImageCoin.Bip69
import ImageCoin.SignatureChecker

/-!
# The PrivateSend server

The mixing session of a masternode, after `privatesend-server.cpp`: users join the queue, hand
in their entries, and sign the final transaction.
-/

namespace ImageCoin.PrivateSend

inductive PoolMessage where
  | errAlreadyHave
  | errEntriesFull
  | errExistingTx
  | errFees
  | errInvalidCollateral
  | errInvalidInput
  | errInvalidScript
  | errInvalidTx
  | errMaximum
  | errMissingTx
  | errNonStandardPubkey
  | errSession
  deriving DecidableEq

inductive PoolState where
  | idle
  | queue
  | acceptingEntries
  | signing
  | error
  | success
  deriving DecidableEq

/-- An input of an entry; `nSentTimes` is not used by the server. -/
structure CTxDSIn extends CTxIn where
  prevPubKey : CScript := []
  fHasSig : Bool := false
  deriving DecidableEq

structure CDarkSendEntry where
  vecTxDSIn : List CTxDSIn
  vecTxOut : List CTxOut
  txCollateral : CTransaction
  deriving DecidableEq

/-- An entry as it is read from the network: of an input only the fields of `CTxIn` are
serialized, the others are "memory only". -/
def CDarkSendEntry.read (vecTxIn : List CTxIn) (txCollateral : CTransaction)
    (vecTxOut : List CTxOut) : CDarkSendEntry :=
  ⟨vecTxIn.map fun txin => { txin with }, vecTxOut, txCollateral⟩

structure CPrivateSendServer where
  nState : PoolState := .idle
  nSessionID : ℕ := 0
  nSessionDenom : Int32 := 0
  vecSessionCollaterals : List CTransaction := []
  vecEntries : List CDarkSendEntry := []
  finalMutableTransaction : CMutableTransaction := ⟨1, [], [], 0⟩
  deriving DecidableEq

/-- What the session asks of the rest of the node. -/
structure Node where
  ops : SignatureOps
  crypto : Crypto
  sortInputs : Sorting compareInputBIP69
  sortOutputs : Sorting compareOutputBIP69
  isAcceptableDenomAndCollateral : Int32 → CTransaction → Bool
  isCollateralValid : CTransaction → Bool
  getDenominations : List CTxOut → Int32
  getUTXOCoin : COutPoint → Option CTxOut
  /-- a dry run, which does not look at the scripts -/
  acceptToMemoryPool : CMutableTransaction → Bool

def maxPoolTransactions : ℕ := 3

def entryMaxSize : ℕ := 9

variable (vecEntries : List CDarkSendEntry)

def inputs : List CTxDSIn :=
  vecEntries.flatMap CDarkSendEntry.vecTxDSIn

def outputs : List CTxOut :=
  vecEntries.flatMap CDarkSendEntry.vecTxOut

def poolTransaction : CMutableTransaction :=
  ⟨1, (inputs vecEntries).map CTxDSIn.toCTxIn, outputs vecEntries, 0⟩

namespace CPrivateSendServer

variable (node : Node) (s : CPrivateSendServer)

def setNull : CPrivateSendServer :=
  { finalMutableTransaction := { s.finalMutableTransaction with vin := [], vout := [] } }

def setState (nStateNew : PoolState) : CPrivateSendServer :=
  if nStateNew = .error ∨ nStateNew = .success then s else { s with nState := nStateNew }

def isSessionReady : Bool := s.vecSessionCollaterals.length ≥ maxPoolTransactions

variable (nDenom : Int32) (txCollateral : CTransaction)

def createNewSession (nRand : ℕ) : CPrivateSendServer :=
  if s.nSessionID ≠ 0 ∨ s.nState ≠ .idle then s
  else if !node.isAcceptableDenomAndCollateral nDenom txCollateral then s
  else
    let s := { s with nSessionID := nRand + 1, nSessionDenom := nDenom }.setState .queue
    { s with vecSessionCollaterals := s.vecSessionCollaterals ++ [txCollateral] }

def addUserToExistingSession : CPrivateSendServer :=
  if s.nSessionID = 0 ∨ s.isSessionReady then s
  else if !node.isAcceptableDenomAndCollateral nDenom txCollateral then s
  else if s.nState ≠ .queue then s
  else if nDenom ≠ s.nSessionDenom then s
  else { s with vecSessionCollaterals := s.vecSessionCollaterals ++ [txCollateral] }

def processDsAccept (nRand : ℕ) : CPrivateSendServer :=
  if s.isSessionReady then s
  else if s.nSessionID = 0 then s.createNewSession node nDenom txCollateral nRand
  else s.addUserToExistingSession node nDenom txCollateral

def checkForCompleteQueue : CPrivateSendServer :=
  if s.nState = .queue ∧ s.isSessionReady then s.setState .acceptingEntries else s

def isOutputsCompatibleWithSessionDenom (vecTxOut : List CTxOut) : Bool :=
  node.getDenominations vecTxOut ≠ 0 && s.vecEntries.all fun entry =>
      node.getDenominations vecTxOut = node.getDenominations entry.vecTxOut

def checkOutput (txout : CTxOut) : Except PoolMessage Unit :=
  if txout.scriptPubKey.length ≠ 25 then .error .errNonStandardPubkey
  else if !isPayToPublicKeyHash txout.scriptPubKey then .error .errInvalidScript
  else .ok ()

variable (entry : CDarkSendEntry)

/-- "check it like a transaction" -/
def checkLikeTransaction : Except PoolMessage Unit := do
  entry.vecTxOut.forM checkOutput
  let nValueIn ← entry.vecTxDSIn.foldlM (fun (nValueIn : CAmount) txin =>
    match node.getUTXOCoin txin.prevout with
    | some out => .ok (nValueIn + out.nValue)
    | none => .error .errMissingTx) 0
  let nValueOut := (entry.vecTxOut.map CTxOut.nValue).sum
  if nValueIn - nValueOut ≠ 0 then .error .errFees
  else if !node.acceptToMemoryPool (poolTransaction [entry]) then .error .errInvalidTx
  else .ok ()

def checkEntry : Except PoolMessage Unit :=
  if !s.isSessionReady then .error .errSession
  else if entry.vecTxDSIn.length > entryMaxSize then .error .errMaximum
  else if entry.vecTxOut.length > entryMaxSize then .error .errMaximum
  else if !s.isOutputsCompatibleWithSessionDenom node entry.vecTxOut then .error .errExistingTx
  else checkLikeTransaction node entry

def addEntry (entryNew : CDarkSendEntry) : Except PoolMessage CPrivateSendServer :=
  if entryNew.vecTxDSIn.any (·.prevout.isNull) then .error .errInvalidInput
  else if !node.isCollateralValid entryNew.txCollateral then .error .errInvalidCollateral
  else if s.vecEntries.length ≥ maxPoolTransactions then .error .errEntriesFull
  else if entryNew.vecTxDSIn.any fun txin =>
      (inputs s.vecEntries).any fun txdsin => txdsin.prevout = txin.prevout then
    .error .errAlreadyHave
  else .ok { s with vecEntries := s.vecEntries ++ [entryNew] }

/-- The clients are connected: if the final transaction reaches none of them, `RelayStatus` calls
`SetNull`, and a signing state with an empty pool follows that is not modelled. -/
def createFinalTransaction : CPrivateSendServer :=
  let txNew := poolTransaction s.vecEntries
  { s with
    finalMutableTransaction :=
      { txNew with
        vin := node.sortInputs.sort txNew.vin
        vout := node.sortOutputs.sort txNew.vout } }.setState .signing

end CPrivateSendServer

/-- The loop that looks for an input of the pool: the last one with this `prevout`. -/
def findInput (prevout : COutPoint) : ℕ → List CTxDSIn → Option (ℕ × CScript) → Option (ℕ × CScript)
  | _, [], found => found
  | i, txdsin :: rest, found =>
    findInput prevout (i + 1) rest
      (if txdsin.prevout = prevout then some (i, txdsin.prevPubKey) else found)

def verifyFlags : UInt32 := SCRIPT_VERIFY_P2SH ||| SCRIPT_VERIFY_STRICTENC

/-- The first input with this `prevout` and sequence number gets the signature, unless it
has one. -/
def addScriptSigTo (txin : CTxIn) : List CTxDSIn → Option (List CTxDSIn)
  | [] => none
  | txdsin :: rest =>
    if txdsin.prevout = txin.prevout ∧ txdsin.nSequence = txin.nSequence then
      if txdsin.fHasSig then none
      else some ({ txdsin with scriptSig := txin.scriptSig, fHasSig := true } :: rest)
    else (addScriptSigTo txin rest).map (txdsin :: ·)

def CDarkSendEntry.addScriptSig (txin : CTxIn) (entry : CDarkSendEntry) : Option CDarkSendEntry :=
  (addScriptSigTo txin entry.vecTxDSIn).map fun vecTxDSIn => { entry with vecTxDSIn }

def addScriptSigToEntries (txin : CTxIn) : List CDarkSendEntry → Option (List CDarkSendEntry)
  | [] => none
  | entry :: rest =>
    match entry.addScriptSig txin with
    | some entry => some (entry :: rest)
    | none => (addScriptSigToEntries txin rest).map (entry :: ·)

def setScriptSig (txinNew : CTxIn) (vin : List CTxIn) : List CTxIn :=
  vin.map fun txin =>
    if txinNew.prevout = txin.prevout ∧ txin.nSequence = txinNew.nSequence then
      { txin with scriptSig := txinNew.scriptSig }
    else txin

namespace CPrivateSendServer

variable (node : Node) (s : CPrivateSendServer)

def isInputScriptSigValid (txin : CTxIn) : Bool :=
  match findInput txin.prevout 0 (inputs s.vecEntries) none with
  | none => false
  | some (nTxInIndex, sigPubKey) =>
    let txNew := poolTransaction s.vecEntries
    let vin := txNew.vin.modify nTxInIndex fun txin' =>
      { txin' with scriptSig := txin.scriptSig }
    verifyInput node.ops node.crypto verifyFlags { txNew with vin } nTxInIndex
      txin.scriptSig sigPubKey

def addScriptSig (txinNew : CTxIn) : Bool × CPrivateSendServer :=
  if (inputs s.vecEntries).any fun txdsin => txdsin.scriptSig = txinNew.scriptSig then (false, s)
  else if !s.isInputScriptSigValid node txinNew then (false, s)
  else
    let s := { s with
      finalMutableTransaction :=
        { s.finalMutableTransaction with
          vin := setScriptSig txinNew s.finalMutableTransaction.vin } }
    match addScriptSigToEntries txinNew s.vecEntries with
    | some vecEntries => (true, { s with vecEntries })
    | none => (false, s)

def isSignaturesComplete : Bool := (inputs s.vecEntries).all CTxDSIn.fHasSig

def addScriptSigs : List CTxIn → CPrivateSendServer → Bool × CPrivateSendServer
  | [], s => (true, s)
  | txin :: rest, s =>
    let r := s.addScriptSig node txin
    if r.1 then addScriptSigs rest r.2 else r

end CPrivateSendServer

/-- The session, and the transactions that `CommitFinalTransaction` was called for. -/
structure Session where
  server : CPrivateSendServer := {}
  committed : List CMutableTransaction := []
  deriving DecidableEq

inductive Message where
  | dsAccept (nDenom : Int32) (txCollateral : CTransaction) (nRand : ℕ)
  | checkForCompleteQueue
  | dsVin (entry : CDarkSendEntry)
  | dsSignFinalTx (vecTxIn : List CTxIn)
  | checkTimeout (fTimeout : Bool)

namespace Session

variable (node : Node) (x : Session)

def commitFinalTransaction : Session :=
  ⟨x.server.setNull, x.committed ++ [x.server.finalMutableTransaction]⟩

def checkPool : Session :=
  if x.server.nState = .acceptingEntries ∧ x.server.vecEntries.length ≥ maxPoolTransactions then
    { x with server := x.server.createFinalTransaction node }
  else if x.server.nState = .signing ∧ x.server.isSignaturesComplete then
    x.commitFinalTransaction
  else x

def processDsVin (entry : CDarkSendEntry) : Session :=
  match x.server.checkEntry node entry with
  | .error _ => x
  | .ok () =>
    match x.server.addEntry node entry with
    | .ok server => { x with server }.checkPool node
    | .error _ => { x with server := x.server.setNull }

def processDsSignFinalTx (vecTxIn : List CTxIn) : Session :=
  let r := CPrivateSendServer.addScriptSigs node vecTxIn x.server
  if r.1 then { x with server := r.2 }.checkPool node else { x with server := r.2 }

def checkTimeout (fTimeout : Bool) : Session :=
  if x.server.nState ≠ .idle ∧ fTimeout then
    { x with server := x.server.setNull.setState .error }
  else x

def step : Message → Session
  | .dsAccept nDenom txCollateral nRand =>
    { x with server := x.server.processDsAccept node nDenom txCollateral nRand }
  | .checkForCompleteQueue => { x with server := x.server.checkForCompleteQueue }
  | .dsVin entry => x.processDsVin node entry
  | .dsSignFinalTx vecTxIn => x.processDsSignFinalTx node vecTxIn
  | .checkTimeout fTimeout => x.checkTimeout fTimeout

end Session
end ImageCoin.PrivateSend
