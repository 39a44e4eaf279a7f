import ImageCoin.Spork
import Mathlib.Data.List.AList

/-!
# Masternode payment votes

`CMasternodePayments` of `masternode-payments.cpp`: the votes that were seen, the payees of
each height with the hashes of the votes counted for them, and the last height each masternode
voted for.
-/

namespace ImageCoin

def mnpaymentsSignaturesRequired : ℕ := 6

def mnpaymentsSignaturesTotal : ℤ := 10

def minMasternodePaymentProtoVersion1 : ℤ := 70221

def minMasternodePaymentProtoVersion2 : ℤ := 70222

structure CMasternodePaymentVote where
  /-- `vinMasternode.prevout` -/
  outMasternode : COutPoint
  nBlockHeight : ℤ
  payee : CScript
  vchSig : Bytes
  deriving DecidableEq

def CMasternodePaymentVote.isVerified (vote : CMasternodePaymentVote) : Bool :=
  !vote.vchSig.isEmpty

def CMasternodePaymentVote.markAsNotVerified (vote : CMasternodePaymentVote) :
    CMasternodePaymentVote :=
  { vote with vchSig := [] }

structure CMasternodePayee where
  scriptPubKey : CScript
  vecVoteHashes : List UInt256
  deriving DecidableEq

def CMasternodePayee.getVoteCount (payee : CMasternodePayee) : ℕ :=
  payee.vecVoteHashes.length

structure CMasternodeBlockPayees where
  nBlockHeight : ℤ
  vecPayees : List CMasternodePayee
  deriving DecidableEq

def addPayeeLoop (script : CScript) (hash : UInt256) : List CMasternodePayee → List CMasternodePayee
  | [] => [⟨script, [hash]⟩]
  | payee :: payees =>
    if payee.scriptPubKey = script then
      { payee with vecVoteHashes := payee.vecVoteHashes ++ [hash] } :: payees
    else payee :: addPayeeLoop script hash payees

def getBestPayeeLoop : List CMasternodePayee → ℤ → Option CScript → Option CScript
  | [], nVotes, payeeRet => if nVotes > -1 then payeeRet else none
  | payee :: payees, nVotes, payeeRet =>
    if (payee.getVoteCount : ℤ) > nVotes then
      getBestPayeeLoop payees payee.getVoteCount payee.scriptPubKey
    else getBestPayeeLoop payees nVotes payeeRet

def CMasternodeBlockPayees.getBestPayee (block : CMasternodeBlockPayees) : Option CScript :=
  if block.vecPayees.isEmpty then none else getBestPayeeLoop block.vecPayees (-1) none

/-- Hashing, signatures and the text of a script, which are not modelled. -/
structure VoteCrypto where
  /-- `CHashWriter` -/
  hash : Bytes → UInt256
  scriptToAsmStr : CScript → List Char
  /-- `CMessageSigner::VerifyMessage` of a key, a signature and a message. -/
  verifyMessage : Bytes → Bytes → List Char → Bool

structure MasternodeInfo where
  nProtocolVersion : ℤ
  pubKeyMasternode : Bytes
  deriving DecidableEq

/-- What the node knows when a message is handled. -/
structure PaymentEnv where
  fLiteMode : Bool
  fMasterNode : Bool
  isMasternodeListSynced : Bool
  /-- `SPORK_10_MASTERNODE_PAY_UPDATED_NODES` -/
  payUpdatedNodes : Bool
  nCachedBlockHeight : ℤ
  getStorageLimit : ℤ
  getMasternodeInfo : COutPoint → Option MasternodeInfo
  /-- The rank of a masternode by the block at a height among those with a
  protocol version. -/
  getMasternodeRank : COutPoint → ℤ → ℤ → Option ℤ
  /-- Whether the active chain has a block at the height. -/
  getBlockHash : ℤ → Bool

def PaymentEnv.getMinMasternodePaymentsProto (env : PaymentEnv) : ℤ :=
  if env.payUpdatedNodes then minMasternodePaymentProtoVersion2
  else minMasternodePaymentProtoVersion1

section
variable (crypto : VoteCrypto) (vote : CMasternodePaymentVote)

def CMasternodePaymentVote.getHash : UInt256 :=
  crypto.hash (writeBlob vote.payee ++
    (serializeInt32 (Int32.ofInt vote.nBlockHeight) ++ vote.outMasternode.serialize))

def CMasternodePaymentVote.strMessage : List Char :=
  vote.outMasternode.toStringShort ++ (lexicalCast vote.nBlockHeight ++
    crypto.scriptToAsmStr vote.payee)

variable (env : PaymentEnv)

def CMasternodePaymentVote.checkSignature (pubKeyMasternode : Bytes) : Except ℕ Unit :=
  if crypto.verifyMessage pubKeyMasternode vote.vchSig (vote.strMessage crypto) then .ok ()
  -- Only a vote for a future block is worth a ban.
  else if env.isMasternodeListSynced && vote.nBlockHeight > env.nCachedBlockHeight then
    .error 20
  else .error 0

/-- A vote that `IsValid` refuses: `strError` and the score of the peer. -/
structure InvalidVote where
  strError : String
  misbehaving : ℕ
  deriving DecidableEq

def CMasternodePaymentVote.isValid : Except InvalidVote Unit :=
  match env.getMasternodeInfo vote.outMasternode with
  | none =>
    .error ⟨"Unknown Masternode: prevout=" ++ String.ofList vote.outMasternode.toStringShort, 0⟩
  | some mnInfo =>
    let nMinRequiredProtocol :=
      if vote.nBlockHeight ≥ env.nCachedBlockHeight then
        env.getMinMasternodePaymentsProto
      else minMasternodePaymentProtoVersion1
    if mnInfo.nProtocolVersion < nMinRequiredProtocol then
      .error ⟨s!"Masternode protocol is too old: nProtocolVersion=" ++
        s!"{mnInfo.nProtocolVersion}, nMinRequiredProtocol={nMinRequiredProtocol}", 0⟩
    -- Only masternodes rank the voters of old blocks.
    else if !env.fMasterNode && vote.nBlockHeight < env.nCachedBlockHeight then .ok ()
    else
      match env.getMasternodeRank vote.outMasternode (vote.nBlockHeight - 101)
          nMinRequiredProtocol with
      | none => .error ⟨"", 0⟩
      | some nRank =>
        if nRank > mnpaymentsSignaturesTotal then
          if nRank > mnpaymentsSignaturesTotal * 2 &&
              vote.nBlockHeight > env.nCachedBlockHeight then
            .error ⟨s!"Masternode is not in the top {mnpaymentsSignaturesTotal * 2} " ++
              s!"({nRank})", 20⟩
          else
            .error ⟨s!"Masternode is not in the top {mnpaymentsSignaturesTotal} " ++
              s!"({nRank})", 0⟩
        else .ok ()

structure CMasternodePayments where
  mapMasternodePaymentVotes : AList fun _ : UInt256 => CMasternodePaymentVote := ∅
  mapMasternodeBlocks : AList fun _ : ℤ => CMasternodeBlockPayees := ∅
  mapMasternodesLastVote : AList fun _ : COutPoint => ℤ := ∅

open CMasternodePayments

namespace CMasternodePayments

variable (s : CMasternodePayments)

def recordVoter (outMasternode : COutPoint) (nBlockHeight : ℤ) : CMasternodePayments :=
  { s with
    mapMasternodesLastVote := s.mapMasternodesLastVote.insert outMasternode nBlockHeight }

def canVote (outMasternode : COutPoint) (nBlockHeight : ℤ) : Bool × CMasternodePayments :=
  if s.mapMasternodesLastVote.lookup outMasternode = some nBlockHeight then (false, s)
  else (true, s.recordVoter outMasternode nBlockHeight)

def hasVerifiedPaymentVote (hashIn : UInt256) : Bool :=
  match s.mapMasternodePaymentVotes.lookup hashIn with
  | some vote => vote.isVerified
  | none => false

def blockPayees (nBlockHeight : ℤ) : CMasternodeBlockPayees :=
  (s.mapMasternodeBlocks.lookup nBlockHeight).getD ⟨nBlockHeight, []⟩

def countVote (vote : CMasternodePaymentVote) : CMasternodePayments :=
  let block := s.blockPayees vote.nBlockHeight
  { s with
    mapMasternodePaymentVotes :=
      s.mapMasternodePaymentVotes.insert (vote.getHash crypto) vote
    mapMasternodeBlocks := s.mapMasternodeBlocks.insert vote.nBlockHeight
      { block with
        vecPayees := addPayeeLoop vote.payee (vote.getHash crypto) block.vecPayees } }

def addPaymentVote (env : PaymentEnv)
    (vote : CMasternodePaymentVote) : Bool × CMasternodePayments :=
  if !env.getBlockHash (vote.nBlockHeight - 101) then (false, s)
  else if s.hasVerifiedPaymentVote (vote.getHash crypto) then (false, s)
  else (true, s.countVote crypto vote)

def markSeen (vote : CMasternodePaymentVote) : CMasternodePayments :=
  { s with
    mapMasternodePaymentVotes :=
      s.mapMasternodePaymentVotes.insert (vote.getHash crypto) vote.markAsNotVerified }

end CMasternodePayments

/-- What becomes of a vote message. -/
inductive VoteOutcome where
  | liteMode
  | oldPeer
  | listNotSynced
  | seen
  | outOfRange
  | invalid (error : InvalidVote)
  | alreadyVoted
  | missing
  | badSignature (nDos : ℕ)
  | notAdded
  | added
  deriving DecidableEq

/-- A `MASTERNODEPAYMENTVOTE` message with the version of the peer that sent it. -/
structure VoteMessage where
  env : PaymentEnv
  nVersion : ℤ
  vote : CMasternodePaymentVote

def CMasternodePayments.dropped (s : CMasternodePayments) (message : VoteMessage) :
    Option VoteOutcome :=
  if message.env.fLiteMode then some .liteMode
  else if message.nVersion < message.env.getMinMasternodePaymentsProto then some .oldPeer
  else if !message.env.isMasternodeListSynced then some .listNotSynced
  else if (s.mapMasternodePaymentVotes.lookup (message.vote.getHash crypto)).isSome then
    some .seen
  else none

def VoteMessage.checkVote (message : VoteMessage) : Except VoteOutcome Unit :=
  let nFirstBlock := message.env.nCachedBlockHeight - message.env.getStorageLimit
  if message.vote.nBlockHeight < nFirstBlock ||
      message.vote.nBlockHeight > message.env.nCachedBlockHeight + 20 then
    .error .outOfRange
  else
    match message.vote.isValid message.env with
    | .error error => .error (.invalid error)
    | .ok () => .ok ()

def VoteMessage.checkVoter (message : VoteMessage) : Except VoteOutcome Unit :=
  match message.env.getMasternodeInfo message.vote.outMasternode with
  | none => .error .missing
  | some mnInfo =>
    match message.vote.checkSignature crypto message.env mnInfo.pubKeyMasternode with
    | .error nDos => .error (.badSignature nDos)
    | .ok () => .ok ()

def CMasternodePayments.processMessage (s : CMasternodePayments) (message : VoteMessage) :
    VoteOutcome × CMasternodePayments :=
  match s.dropped crypto message with
  | some outcome => (outcome, s)
  | none =>
    let s := s.markSeen crypto message.vote
    match message.checkVote with
    | .error outcome => (outcome, s)
    | .ok () =>
      match s.canVote message.vote.outMasternode message.vote.nBlockHeight with
      | (false, s) => (.alreadyVoted, s)
      | (true, s) =>
        match message.checkVoter crypto with
        | .error outcome => (outcome, s)
        | .ok () =>
          match s.addPaymentVote crypto message.env message.vote with
          | (false, s) => (.notAdded, s)
          | (true, s) => (.added, s)

variable {crypto} {s : CMasternodePayments} {message : VoteMessage}

theorem processMessage_of_kept (hkept : s.dropped crypto message = none) :
    s.processMessage crypto message = let marked := s.markSeen crypto message.vote
      match message.checkVote with
      | .error outcome => (outcome, marked)
      | .ok () =>
        if s.mapMasternodesLastVote.lookup message.vote.outMasternode =
            some message.vote.nBlockHeight then (.alreadyVoted, marked)
        else
          let voted :=
            marked.recordVoter message.vote.outMasternode message.vote.nBlockHeight
          match message.checkVoter crypto with
          | .error outcome => (outcome, voted)
          | .ok () =>
            if message.env.getBlockHash (message.vote.nBlockHeight - 101) then
              (.added, voted.countVote crypto message.vote)
            else (.notAdded, voted) := by
  have hfresh : ((s.markSeen crypto message.vote).recordVoter message.vote.outMasternode
      message.vote.nBlockHeight).hasVerifiedPaymentVote (message.vote.getHash crypto) =
        false := by
    simp [hasVerifiedPaymentVote, recordVoter, markSeen, CMasternodePaymentVote.isVerified,
      CMasternodePaymentVote.markAsNotVerified]
  rw [processMessage, hkept]
  cases hvote : message.checkVote with
  | error outcome => rfl
  | ok =>
    dsimp only
    by_cases hlast : s.mapMasternodesLastVote.lookup message.vote.outMasternode =
        some message.vote.nBlockHeight
    · simp [canVote, markSeen, hlast]
    · have hmarked : (s.markSeen crypto message.vote).mapMasternodesLastVote =
          s.mapMasternodesLastVote := rfl
      rw [canVote, hmarked, if_neg hlast, if_neg hlast]
      cases hvoter : message.checkVoter crypto with
      | error outcome => rfl
      | ok =>
        cases hblock : message.env.getBlockHash (message.vote.nBlockHeight - 101) with
        | false => simp [addPaymentVote, hblock]
        | true => simp [addPaymentVote, hblock, hfresh]

theorem processMessage_cases (s : CMasternodePayments) (message : VoteMessage) :
    (s.processMessage crypto message).2 = s ∨ s.dropped crypto message = none ∧
        ((s.processMessage crypto message).2 = s.markSeen crypto message.vote ∨
          message.checkVote = .ok () ∧
            s.mapMasternodesLastVote.lookup message.vote.outMasternode ≠
              some message.vote.nBlockHeight ∧
            let voted := (s.markSeen crypto message.vote).recordVoter
              message.vote.outMasternode message.vote.nBlockHeight
            ((s.processMessage crypto message).2 = voted ∨ message.checkVoter crypto = .ok () ∧
                (s.processMessage crypto message).2 = voted.countVote crypto message.vote)) := by
  cases hdropped : s.dropped crypto message with
  | some outcome =>
    left
    rw [processMessage, hdropped]
  | none =>
    right
    refine ⟨rfl, ?_⟩
    rw [processMessage_of_kept hdropped]
    cases hvote : message.checkVote with
    | error outcome => exact .inl rfl
    | ok =>
      by_cases hlast : s.mapMasternodesLastVote.lookup message.vote.outMasternode =
          some message.vote.nBlockHeight
      · simp [hlast]
      · right
        refine ⟨rfl, hlast, ?_⟩
        simp only [hlast]
        cases hvoter : message.checkVoter crypto with
        | error outcome => exact .inl rfl
        | ok =>
          cases message.env.getBlockHash (message.vote.nBlockHeight - 101) with
          | false => exact .inl rfl
          | true => exact .inr ⟨rfl, rfl⟩

end
end ImageCoin
