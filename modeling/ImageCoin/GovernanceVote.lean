import ImageCoin.CacheMaps
import ImageCoin.InstantSendCalls

/-!
# Governance votes

`CGovernanceVote` of `governance-vote.cpp`.  Signals and outcomes are the integers that
are sent; a conversion to the enumeration keeps them.
-/

namespace ImageCoin.Governance

open List

def voteOutcomeNone : ℤ := 0

def voteOutcomeYes : ℤ := 1

def voteOutcomeNo : ℤ := 2

def voteSignalNone : ℤ := 0

def voteSignalFunding : ℤ := 1

def voteSignalValid : ℤ := 2

def voteSignalDelete : ℤ := 3

def voteSignalEndorsed : ℤ := 4

def maxSupportedVoteSignal : ℤ := voteSignalEndorsed

structure CGovernanceVote where
  nVoteSignal : ℤ
  vinMasternode : CTxIn
  nParentHash : UInt256
  nVoteOutcome : ℤ
  nTime : ℤ
  vchSig : Bytes
  deriving DecidableEq

open CGovernanceVote

def nGovernanceMinQuorum : Network → ℤ
  | .main => 10
  | .test => 1
  | .regtest => 1

/-- Hashing and signatures, which are not modelled. -/
structure GovernanceCrypto where
  /-- `CHashWriter` -/
  hash : Bytes → UInt256
  /-- `CMessageSigner::VerifyMessage` of a key, a signature and a message. -/
  verifyMessage : Bytes → Bytes → List Char → Bool

/-- What the node knows when a governance message is handled. -/
structure GovernanceEnv where
  getAdjustedTime : ℤ
  /-- The masternode list: `Has`, `GetMasternodeInfo` and `Find`. -/
  getMasternodeInfo : COutPoint → Option MasternodeInfo
  countEnabled : ℤ
  net : Network

namespace CGovernanceVote

def getMasternodeOutpoint (vote : CGovernanceVote) : COutPoint := vote.vinMasternode.prevout

def serializeInt64 (n : ℤ) : Bytes := serializeAmount (Int64.ofInt n)

variable (crypto : GovernanceCrypto)

def getHash (vote : CGovernanceVote) : UInt256 :=
  crypto.hash (vote.vinMasternode.serialize ++ (serializeUInt256 vote.nParentHash ++
    (serializeInt32 (Int32.ofInt vote.nVoteSignal) ++
      (serializeInt32 (Int32.ofInt vote.nVoteOutcome) ++ serializeInt64 vote.nTime))))

def strMessage (vote : CGovernanceVote) : List Char :=
  vote.getMasternodeOutpoint.toStringShort ++ '|' :: (uint256ToString vote.nParentHash ++
    '|' :: (lexicalCast vote.nVoteSignal ++ '|' :: (lexicalCast vote.nVoteOutcome ++
      '|' :: lexicalCast vote.nTime)))

def isValid (env : GovernanceEnv) (vote : CGovernanceVote) (fSignatureCheck : Bool) : Bool :=
  if vote.nTime > env.getAdjustedTime + 60 * 60 then false
  else if vote.nVoteSignal > maxSupportedVoteSignal then false
  else if vote.nVoteOutcome > 3 then false
  else
    match env.getMasternodeInfo vote.getMasternodeOutpoint with
    | none => false
    | some infoMn =>
      if !fSignatureCheck then true
      else crypto.verifyMessage infoMn.pubKeyMasternode vote.vchSig vote.strMessage

def lt (vote1 vote2 : CGovernanceVote) : Bool :=
  if !vote1.vinMasternode.prevout.lt vote2.vinMasternode.prevout then false
  else
    let fResult : Bool := vote1.vinMasternode = vote2.vinMasternode
    let fResult := fResult && memcmpLt (serializeUInt256 vote1.nParentHash)
      (serializeUInt256 vote2.nParentHash)
    if !fResult then false
    else
      let fResult := fResult && vote1.nParentHash = vote2.nParentHash
      let fResult := fResult && vote1.nVoteOutcome < vote2.nVoteOutcome
      if !fResult then false
      else
        let fResult := fResult && vote1.nVoteOutcome = vote2.nVoteOutcome
        let fResult := fResult && vote1.nVoteSignal = vote2.nVoteSignal
        if !fResult then false
        else
          let fResult := fResult && vote1.nVoteSignal = vote2.nVoteSignal
          fResult && vote1.nTime < vote2.nTime

end CGovernanceVote

theorem memcmpLt_self (bytes : Bytes) : memcmpLt bytes bytes = false := by
  induction bytes with
  | nil => rfl
  | cons b bytes ih => simp [memcmpLt, ih]

theorem COutPoint.lt_self (o : COutPoint) : o.lt o = false := by
  simp [ImageCoin.COutPoint.lt, memcmpLt_self]

variable (vote1 vote2 : CGovernanceVote)

theorem CGovernanceVote.lt_eq_false : vote1.lt vote2 = false := by
  unfold lt
  by_cases hvin : vote1.vinMasternode = vote2.vinMasternode
  · simp [hvin, COutPoint.lt_self]
  · simp [hvin]

abbrev VoteTimePair := CGovernanceVote × ℤ

def VoteTimePair.lt (p1 p2 : VoteTimePair) : Bool := CGovernanceVote.lt p1.1 p2.1

def CGovernanceVote.same : Bool :=
  vote1.vinMasternode = vote2.vinMasternode && vote1.nParentHash = vote2.nParentHash &&
    vote1.nVoteOutcome = vote2.nVoteOutcome && vote1.nVoteSignal = vote2.nVoteSignal &&
    vote1.nTime = vote2.nTime

/-- A strict weak order which among `l` tells apart just what `same` tells apart. -/
structure OrdersLike {α : Type} (lt same : α → α → Bool) (l : List α) : Prop where
  irrefl : ∀ a, lt a a = false
  trans : ∀ a b c, lt a b → lt b c → lt a c
  incomparable : ∀ a b c, lt a b = false → lt b a = false → lt b c = false → lt c b = false →
    lt a c = false ∧ lt c a = false
  same_iff : ∀ a ∈ l, ∀ b ∈ l, (lt a b = false ∧ lt b a = false) ↔ same a b

def VoteTimePair.same (p1 p2 : VoteTimePair) : Bool := p1.1.same p2.1 && p1.2 = p2.2

theorem CGovernanceVote.same_self (vote : CGovernanceVote) : vote.same vote := by
  simp [same]

theorem ordersLike_iff {α : Type} {lt same : α → α → Bool} {l : List α}
    (hlt : ∀ a b, lt a b = false) (hsame : ∀ a, same a a)
    (hdifferent : l.Pairwise fun a b => same a b = false) :
    OrdersLike lt same l ↔ l.length ≤ 1 := by
  constructor
  · intro horders
    match l with
    | [] => simp
    | [a] => simp
    | a :: b :: l =>
      have hne := (pairwise_cons.mp hdifferent).1 b mem_cons_self
      have heq := (horders.same_iff a mem_cons_self b (by simp)).mp ⟨hlt a b, hlt b a⟩
      rw [heq] at hne
      exact nomatch hne
  · intro hlength
    refine ⟨fun a => hlt a a, fun a b _ hab => ?_, fun a _ c _ _ _ _ => ⟨hlt a c, hlt c a⟩, ?_⟩
    · rw [hlt] at hab
      exact nomatch hab
    · intro a ha b hb
      have heq : a = b := by
        match l with
        | [] => exact nomatch ha
        | [c] => rw [mem_singleton.mp ha, mem_singleton.mp hb]
        | _ :: _ :: _ => simp at hlength
      rw [heq, hsame, hlt]
      simp

/-- All orphan votes for an object are returned, and the orders tell them apart, if there is
one at most. -/
theorem getAll_orphanVotes_iff {cache : CacheMultiMap UInt256 VoteTimePair} {nHash : UInt256}
    {pairs : List VoteTimePair} (hempty : ∀ item ∈ cache.listItems, item.1 ≠ nHash)
    (hroom : cache.listItems.length + pairs.length ≤ cache.nMaxSize)
    (hdifferent : pairs.Pairwise fun p q => p.1.same q.1 = false) :
    ((∀ p ∈ pairs, p ∈ (cache.insertAll VoteTimePair.lt nHash pairs).getAll VoteTimePair.lt nHash) ∧
      OrdersLike lt same (pairs.map Prod.fst) ∧
      OrdersLike VoteTimePair.lt VoteTimePair.same pairs) ↔ pairs.length ≤ 1 := by
  have hlt : ∀ p q : VoteTimePair, VoteTimePair.lt p q = false :=
    fun p q => CGovernanceVote.lt_eq_false p.1 q.1
  have hnodup : pairs.Nodup := hdifferent.imp fun {p q} hne heq => by
    rw [heq, same_self] at hne
    exact nomatch hne
  have hvotes : OrdersLike lt same (pairs.map Prod.fst) ↔ pairs.length ≤ 1 := by
    rw [ordersLike_iff lt_eq_false same_self (pairwise_map.mpr hdifferent), length_map]
  have hpairs : OrdersLike VoteTimePair.lt VoteTimePair.same pairs ↔ pairs.length ≤ 1 :=
    ordersLike_iff hlt (fun p => by simp [VoteTimePair.same, same_self])
      (hdifferent.imp fun hne => by simp [VoteTimePair.same, hne])
  rw [CacheMultiMap.getAll_insertAll_iff hempty hroom hnodup, hvotes, hpairs, and_self,
    and_iff_right_iff_imp]
  intro hlength
  match pairs with
  | [] => exact List.Pairwise.nil
  | [p] => exact pairwise_singleton _ _
  | _ :: _ :: _ => simp at hlength

def orphanVote (n : UInt32) : CGovernanceVote where
  nVoteSignal := voteSignalFunding
  vinMasternode := ⟨⟨1, n⟩, [], 0xffffffff⟩
  nParentHash := 7
  nVoteOutcome := voteOutcomeYes
  nTime := 1000
  vchSig := []

theorem getAll_orphanVotes_one : ((orphanVote 0, 4600) : VoteTimePair) ∈
    (CacheMultiMap.insertAll VoteTimePair.lt ⟨2, []⟩ 7 [(orphanVote 0, 4600)]).getAll
      VoteTimePair.lt 7 := by
  have hempty : ∀ item ∈ (⟨2, []⟩ : CacheMultiMap UInt256 VoteTimePair).listItems, item.1 ≠ 7 := by
    simp
  have hdifferent : [((orphanVote 0, 4600) : VoteTimePair)].Pairwise fun p q =>
      p.1.same q.1 = false :=
    pairwise_singleton _ _
  exact ((getAll_orphanVotes_iff hempty (by decide) hdifferent).mpr (by decide)).1 _ mem_cons_self

/-- Different votes are equivalent in the order, and the second is dropped. -/
theorem getAll_orphanVotes_lost : (orphanVote 0).same (orphanVote 1) = false ∧
      (CacheMultiMap.insertAll VoteTimePair.lt ⟨2, []⟩ 7
        [(orphanVote 0, 4600), (orphanVote 1, 4601)]).getAll VoteTimePair.lt 7 =
          [(orphanVote 0, 4600)] := by
  decide +kernel

end ImageCoin.Governance
