import ImageCoin.GovernanceObject
import ImageCoin.LatestWins
import ImageCoin.StepRuns

/-!
# Votes of a governance object

Whatever happens to the rate, an object has of each masternode and signal the vote with the
latest timestamp, and of those with equal timestamps the one that came last.
-/

namespace ImageCoin.Governance

open MapEntries LatestWins VoteInstance

namespace CGovernanceObject

variable {crypto : GovernanceCrypto} {env : GovernanceEnv} {fRate : Bool}
  {govobj : CGovernanceObject} {vote : CGovernanceVote} {mn : COutPoint} {nSignal : ℤ}
  {nVoteSignal : ℤ}

theorem recordedVote_setInstance (govobj : CGovernanceObject) (mn mn' : COutPoint)
    (nSignal nSignal' : ℤ) (voteInstance : VoteInstance) :
    (govobj.setInstance mn nSignal voteInstance).recordedVote mn' nSignal' =
      if mn' = mn ∧ nSignal' = nSignal then some voteInstance
      else govobj.recordedVote mn' nSignal' := by
  unfold recordedVote setInstance
  rw [lookup_insert_eq]
  by_cases hmn : mn' = mn
  · subst hmn
    rw [if_pos rfl, Option.bind_some, lookup_insert_eq]
    by_cases hsignal : nSignal' = nSignal
    · simp [hsignal]
    · simp
      cases govobj.mapCurrentMNVotes.lookup mn' with
      | none => rfl
      | some instances => rfl
  · simp [hmn]

theorem recordedVote_insertNew (govobj : CGovernanceObject) (mn mn' : COutPoint) (nSignal : ℤ) :
    recordedVote { govobj with
      mapCurrentMNVotes := insertNew govobj.mapCurrentMNVotes mn ∅ } mn' nSignal =
        govobj.recordedVote mn' nSignal := by
  unfold recordedVote
  rw [lookup_insertNew]
  split_ifs with heq
  · subst heq
    cases govobj.mapCurrentMNVotes.lookup mn' with
    | none => rfl
    | some instances => rfl
  · rfl

/-- As in `ProcessVote` there is no lower bound: a negative signal is taken too. -/
def Supported (nSignal : ℤ) : Prop :=
  nSignal ≠ voteSignalNone ∧ nSignal ≤ maxSupportedVoteSignal

instance (nSignal : ℤ) : Decidable (Supported nSignal) :=
  inferInstanceAs (Decidable (_ ∧ _))

/-- The vote of the masternode of a vote for its signal, or the one of a new record. -/
def previous (govobj : CGovernanceObject) (vote : CGovernanceVote) : VoteInstance :=
  (govobj.recordedVote vote.getMasternodeOutpoint vote.nVoteSignal).getD {}

variable (crypto fRate govobj) in
theorem processVote_of_supported
    (hknown : (env.getMasternodeInfo vote.getMasternodeOutpoint).isNone = false)
    (hsupported : Supported vote.nVoteSignal) :
    (govobj.processVote crypto env fRate vote).1 =
        checkVote crypto env fRate vote (govobj.previous vote) ∧
      ∀ mn nSignal, (govobj.processVote crypto env fRate vote).2.recordedVote mn nSignal =
        if mn = vote.getMasternodeOutpoint ∧ nSignal = vote.nVoteSignal then
          some (if checkVote crypto env fRate vote (govobj.previous vote) = .ok () then
            ⟨vote.nVoteOutcome, (govobj.previous vote).nTime, vote.nTime⟩
          else govobj.previous vote)
        else govobj.recordedVote mn nSignal := by
  have hprevious : (recordedVote { govobj with
      mapCurrentMNVotes := insertNew govobj.mapCurrentMNVotes vote.getMasternodeOutpoint ∅ }
        vote.getMasternodeOutpoint vote.nVoteSignal).getD {} = govobj.previous vote := by
    rw [recordedVote_insertNew, previous]
  unfold processVote
  simp only [hknown, hsupported.1, hsupported.2.not_gt, hprevious]
  cases hcheck : checkVote crypto env fRate vote (govobj.previous vote) with
  | error refusal =>
    refine ⟨rfl, fun mn nSignal => ?_⟩
    simp [recordedVote_setInstance, recordedVote_insertNew]
  | ok u =>
    refine ⟨rfl, fun mn nSignal => ?_⟩
    have htaken : ∀ o : CGovernanceObject,
        (o.takeVote crypto vote (govobj.previous vote)).recordedVote mn nSignal =
          (o.setInstance vote.getMasternodeOutpoint vote.nVoteSignal ⟨vote.nVoteOutcome,
            (govobj.previous vote).nTime, vote.nTime⟩).recordedVote mn nSignal :=
      fun _ => rfl
    simp [htaken, recordedVote_setInstance, recordedVote_insertNew]

variable (crypto fRate govobj) in
theorem processVote_of_not (hnot : (env.getMasternodeInfo vote.getMasternodeOutpoint).isNone ∨
      ¬Supported vote.nVoteSignal) :
    (∃ refusal, (govobj.processVote crypto env fRate vote).1 = .error refusal) ∧
      ∀ mn nSignal, (govobj.processVote crypto env fRate vote).2.recordedVote mn nSignal =
        govobj.recordedVote mn nSignal := by
  unfold processVote
  by_cases hunknown : (env.getMasternodeInfo vote.getMasternodeOutpoint).isNone
  · simp only [hunknown]
    exact ⟨⟨_, rfl⟩, fun _ _ => rfl⟩
  · simp only [hunknown]
    have hunsupported := hnot.resolve_left hunknown
    by_cases hnone : vote.nVoteSignal = voteSignalNone
    · simp only [hnone]
      exact ⟨⟨_, rfl⟩, fun mn nSignal => recordedVote_insertNew govobj _ mn nSignal⟩
    · have hgt : vote.nVoteSignal > maxSupportedVoteSignal := by
        by_contra hle
        exact hunsupported ⟨hnone, not_lt.mp hle⟩
      simp only [hnone, hgt]
      exact ⟨⟨_, rfl⟩, fun mn nSignal => recordedVote_insertNew govobj _ mn nSignal⟩

end CGovernanceObject

/-! ## Runs -/

/-- A vote and the node that it comes to. -/
structure VoteDelivery where
  env : GovernanceEnv
  vote : CGovernanceVote

open VoteDelivery

namespace VoteDelivery

def isValid (crypto : GovernanceCrypto) (d : VoteDelivery) : Bool :=
  d.vote.isValid crypto d.env true

def isFor (mn : COutPoint) (nSignal : ℤ) (d : VoteDelivery) : Bool :=
  d.vote.getMasternodeOutpoint = mn && d.vote.nVoteSignal = nSignal

/-- The time of the delivery passes the rate check for a vote that was updated at
`nTime`. -/
def inRate (fRate : Bool) (nTime : ℤ) (d : VoteDelivery) : Bool :=
  !fRate || governanceUpdateMin ≤ d.env.getAdjustedTime - nTime

def toInstance (nTime : ℤ) (d : VoteDelivery) : VoteInstance :=
  ⟨d.vote.nVoteOutcome, nTime, d.vote.nTime⟩

end VoteDelivery

namespace CGovernanceObject

variable {crypto : GovernanceCrypto} {fRate : Bool} {govobj : CGovernanceObject}
  {mn : COutPoint} {nSignal : ℤ} {d : VoteDelivery} {ds ds' : List VoteDelivery}

def receive (crypto : GovernanceCrypto) (fRate : Bool) (govobj : CGovernanceObject)
    (d : VoteDelivery) : CGovernanceObject :=
  (govobj.processVote crypto d.env fRate d.vote).2

def receiveAll (crypto : GovernanceCrypto) (fRate : Bool) (govobj : CGovernanceObject)
    (ds : List VoteDelivery) : CGovernanceObject :=
  ds.foldl (receive crypto fRate) govobj

/-- The votes for a masternode and a signal that pass the rate check, as they would be
recorded over a vote that was updated at `nTime`. -/
def offers (fRate : Bool) (nTime : ℤ) (mn : COutPoint) (nSignal : ℤ)
    (ds : List VoteDelivery) : List VoteInstance :=
  (ds.filter fun d => d.isFor mn nSignal && d.inRate fRate nTime).map (·.toInstance nTime)

section
variable (hvalid : d.isValid crypto)
include hvalid

theorem isNone_of_isValid :
    (d.env.getMasternodeInfo d.vote.getMasternodeOutpoint).isNone = false := by
  unfold isValid CGovernanceVote.isValid at hvalid
  cases hmn : d.env.getMasternodeInfo d.vote.getMasternodeOutpoint with
  | none => simp [hmn] at hvalid
  | some info => rfl

theorem checkVote_of_isValid (r : VoteInstance) : checkVote crypto d.env fRate d.vote r = .ok () ↔
    ¬d.vote.nTime < r.nCreationTime ∧ d.inRate fRate r.nTime := by
  have hvalid' : d.vote.isValid crypto d.env true := hvalid
  unfold checkVote inRate
  rw [hvalid', isNone_of_isValid hvalid]
  by_cases hobsolete : d.vote.nTime < r.nCreationTime
  · simp [hobsolete]
  · cases fRate with
    | false => simp
    | true =>
      by_cases hoften : d.env.getAdjustedTime - r.nTime < governanceUpdateMin
      · simp [hobsolete]
      · simp [hoften, not_lt.mp hoften]

theorem recordedVote_receive (hsupported : Supported nSignal) :
    (govobj.receive crypto fRate d).recordedVote mn nSignal = if d.isFor mn nSignal then
        some (latest nCreationTime ((govobj.recordedVote mn nSignal).getD {})
          (offers fRate ((govobj.recordedVote mn nSignal).getD {}).nTime mn nSignal [d]))
      else govobj.recordedVote mn nSignal := by
  by_cases hfor : d.isFor mn nSignal
  · obtain ⟨rfl, rfl⟩ : d.vote.getMasternodeOutpoint = mn ∧ d.vote.nVoteSignal = nSignal := by
      simpa [isFor] using hfor
    rw [receive, (processVote_of_supported crypto fRate govobj (isNone_of_isValid hvalid)
        hsupported).2, if_pos hfor, ← previous, if_congr (checkVote_of_isValid hvalid _) rfl rfl]
    by_cases hrate : d.inRate fRate (govobj.previous d.vote).nTime
    · by_cases hobsolete : d.vote.nTime < (govobj.previous d.vote).nCreationTime
      · simp [offers, hfor, hrate, take, toInstance, hobsolete]
      · simp [offers, hfor, hrate, take, toInstance, hobsolete]
    · simp [offers, hrate]
  · rw [if_neg hfor]
    have hne : ¬(mn = d.vote.getMasternodeOutpoint ∧ nSignal = d.vote.nVoteSignal) := by
      rintro ⟨rfl, rfl⟩
      simp [isFor] at hfor
    by_cases hd : Supported d.vote.nVoteSignal
    · rw [receive, (processVote_of_supported crypto fRate govobj (isNone_of_isValid hvalid) hd).2,
        if_neg hne]
    · exact (processVote_of_not crypto fRate govobj (.inr hd)).2 mn nSignal

end

theorem offers_append (nTime : ℤ) (ds ds' : List VoteDelivery) :
    offers fRate nTime mn nSignal (ds ++ ds') =
      offers fRate nTime mn nSignal ds ++ offers fRate nTime mn nSignal ds' := by
  simp [offers]

theorem nTime_latest_offers (r : VoteInstance) (ds : List VoteDelivery) :
    (latest nCreationTime r (offers fRate r.nTime mn nSignal ds)).nTime = r.nTime := by
  rcases latest_cases nCreationTime r (offers fRate r.nTime mn nSignal ds) with
    ⟨heq, -⟩ | hmem
  · rw [heq]
  · obtain ⟨d, -, heq⟩ := List.mem_map.mp hmem
    rw [← heq]
    rfl

theorem recordedVote_receiveAll (hvalid : ∀ d ∈ ds, d.isValid crypto)
    (hsupported : Supported nSignal) : (govobj.receiveAll crypto fRate ds).recordedVote mn nSignal =
      if ds.any (·.isFor mn nSignal) then
        some (latest nCreationTime ((govobj.recordedVote mn nSignal).getD {})
          (offers fRate ((govobj.recordedVote mn nSignal).getD {}).nTime mn nSignal ds))
      else govobj.recordedVote mn nSignal := by
  induction ds generalizing govobj with
  | nil => rfl
  | cons d ds ih =>
    have hstep : govobj.receiveAll crypto fRate (d :: ds) =
      (govobj.receive crypto fRate d).receiveAll crypto fRate ds := rfl
    generalize hr : (govobj.recordedVote mn nSignal).getD {} = r
    have hsplit : offers fRate r.nTime mn nSignal (d :: ds) =
        offers fRate r.nTime mn nSignal [d] ++ offers fRate r.nTime mn nSignal ds :=
      offers_append r.nTime [d] ds
    rw [hstep, ih fun d' hd' => hvalid d' (List.mem_cons_of_mem _ hd'),
      recordedVote_receive (hvalid d List.mem_cons_self) hsupported, hr, hsplit]
    by_cases hfor : d.isFor mn nSignal
    · simp only [hfor, if_true, Option.getD_some, nTime_latest_offers, List.any_cons,
        Bool.true_or, latest_append]
      split_ifs with hany
      · rfl
      · -- Nothing else comes for the masternode and the signal.
        have hnone : offers fRate r.nTime mn nSignal ds = [] := by
          simp only [offers, List.map_eq_nil_iff, List.filter_eq_nil_iff]
          intro d' hd' hfor'
          exact hany (List.any_eq_true.mpr ⟨d', hd', (Bool.and_eq_true_iff.mp hfor').1⟩)
        rw [hnone, latest_nil]
    · have hskip : offers fRate r.nTime mn nSignal [d] = [] := by
        simp [offers, hfor]
      simp [hfor, hskip, hr]

theorem recordedVote_receiveAll_of_not (hvalid : ∀ d ∈ ds, d.isValid crypto)
    (hunsupported : ¬Supported nSignal) :
    (govobj.receiveAll crypto fRate ds).recordedVote mn nSignal =
      govobj.recordedVote mn nSignal := by
  induction ds generalizing govobj with
  | nil => rfl
  | cons d ds ih =>
    have hstep : govobj.receiveAll crypto fRate (d :: ds) =
      (govobj.receive crypto fRate d).receiveAll crypto fRate ds := rfl
    rw [hstep, ih fun d' hd' => hvalid d' (List.mem_cons_of_mem _ hd'), receive]
    by_cases hd : Supported d.vote.nVoteSignal
    · have hne : ¬(mn = d.vote.getMasternodeOutpoint ∧ nSignal = d.vote.nVoteSignal) := by
        rintro ⟨-, rfl⟩
        exact hunsupported hd
      rw [(processVote_of_supported crypto fRate govobj
        (isNone_of_isValid (hvalid d List.mem_cons_self)) hd).2, if_neg hne]
    · exact (processVote_of_not crypto fRate govobj (.inr hd)).2 mn nSignal

def matching (govobj : CGovernanceObject) (nVoteSignal nVoteOutcome : ℤ) : List COutPoint :=
  (govobj.mapCurrentMNVotes.entries.filter fun e =>
    (e.2.lookup nVoteSignal).any fun voteInstance =>
      voteInstance.eOutcome = nVoteOutcome).map (·.1)

theorem countMatchingVotes_eq_length (govobj : CGovernanceObject) (nVoteSignal nVoteOutcome : ℤ) :
    govobj.countMatchingVotes nVoteSignal nVoteOutcome =
      (govobj.matching nVoteSignal nVoteOutcome).length := by
  rw [countMatchingVotes, matching, List.length_map, List.countP_eq_length_filter]

theorem nodup_matching (govobj : CGovernanceObject) (nVoteSignal nVoteOutcome : ℤ) :
    (govobj.matching nVoteSignal nVoteOutcome).Nodup :=
  govobj.mapCurrentMNVotes.nodupKeys.sublist List.filter_sublist

theorem mem_matching {nVoteOutcome : ℤ} :
    mn ∈ govobj.matching nVoteSignal nVoteOutcome ↔ (govobj.recordedVote mn nVoteSignal).any
        (fun voteInstance => voteInstance.eOutcome = nVoteOutcome) := by
  unfold matching recordedVote
  simp only [List.mem_map, List.mem_filter, Sigma.exists, exists_and_right, exists_eq_right]
  constructor
  · rintro ⟨instances, hmem, hany⟩
    have hlookup : govobj.mapCurrentMNVotes.lookup mn = some instances :=
      AList.mem_lookup_iff.mpr hmem
    rwa [hlookup]
  · intro hany
    cases hlookup : govobj.mapCurrentMNVotes.lookup mn with
    | none => simp [hlookup] at hany
    | some instances =>
      rw [hlookup] at hany
      exact ⟨instances, AList.mem_lookup_iff.mp hlookup, hany⟩

theorem countMatchingVotes_congr {govobj' : CGovernanceObject}
    (hsame : ∀ mn, govobj.recordedVote mn nVoteSignal = govobj'.recordedVote mn nVoteSignal)
    (nVoteOutcome : ℤ) :
    govobj.countMatchingVotes nVoteSignal nVoteOutcome =
      govobj'.countMatchingVotes nVoteSignal nVoteOutcome := by
  rw [countMatchingVotes_eq_length, countMatchingVotes_eq_length]
  refine ((List.perm_ext_iff_of_nodup (nodup_matching ..) (nodup_matching ..)).mpr ?_).length_eq
  intro mn
  rw [mem_matching, mem_matching, hsame]

/-- Votes of one masternode and signal with one timestamp have one outcome. -/
def TiesAgree (ds : List VoteDelivery) : Prop :=
  ∀ d ∈ ds, ∀ d' ∈ ds, d.vote.getMasternodeOutpoint = d'.vote.getMasternodeOutpoint →
    d.vote.nVoteSignal = d'.vote.nVoteSignal → d.vote.nTime = d'.vote.nTime →
      d.vote.nVoteOutcome = d'.vote.nVoteOutcome

theorem mem_offers {nTime : ℤ} {r : VoteInstance} : r ∈ offers false nTime mn nSignal ds ↔
    ∃ vote ∈ ds.map (·.vote), (vote.getMasternodeOutpoint = mn ∧ vote.nVoteSignal = nSignal) ∧
      ⟨vote.nVoteOutcome, nTime, vote.nTime⟩ = r := by
  simp [offers, isFor, inRate, toInstance, and_assoc]

theorem any_isFor_iff : ds.any (·.isFor mn nSignal) ↔
    ∃ vote ∈ ds.map (·.vote), vote.getMasternodeOutpoint = mn ∧ vote.nVoteSignal = nSignal := by
  simp [isFor]

/-- Any two orders of the same valid votes give the same votes and counts, if ties agree. -/
theorem receiveAll_order (crypto : GovernanceCrypto) (govobj : CGovernanceObject)
    (ds ds' : List VoteDelivery) (hvalid : ∀ d ∈ ds, d.isValid crypto)
    (hvalid' : ∀ d ∈ ds', d.isValid crypto)
    (hsame : ∀ vote, vote ∈ ds.map (·.vote) ↔ vote ∈ ds'.map (·.vote)) (hties : TiesAgree ds) :
    (∀ mn nSignal, (govobj.receiveAll crypto false ds).recordedVote mn nSignal =
      (govobj.receiveAll crypto false ds').recordedVote mn nSignal) ∧
    ∀ nSignal, (govobj.receiveAll crypto false ds).getAbsoluteYesCount nSignal =
      (govobj.receiveAll crypto false ds').getAbsoluteYesCount nSignal := by
  have hrecorded : ∀ mn nSignal, (govobj.receiveAll crypto false ds).recordedVote mn nSignal =
        (govobj.receiveAll crypto false ds').recordedVote mn nSignal := by
    intro mn nSignal
    by_cases hsupported : Supported nSignal
    · rw [recordedVote_receiveAll hvalid hsupported, recordedVote_receiveAll hvalid' hsupported]
      have hany : ds.any (·.isFor mn nSignal) = ds'.any (·.isFor mn nSignal) := by
        rw [Bool.eq_iff_iff, any_isFor_iff, any_isFor_iff]
        simp only [hsame]
      generalize (govobj.recordedVote mn nSignal).getD {} = r
      have hlatest : latest nCreationTime r (offers false r.nTime mn nSignal ds) =
          latest nCreationTime r (offers false r.nTime mn nSignal ds') := by
        refine latest_congr (fun a => ?_) ?_ r
        · rw [mem_offers, mem_offers]
          simp only [hsame]
        · intro a ha b hb hstamp
          obtain ⟨_, hv, ⟨hmn, hsig⟩, rfl⟩ := mem_offers.mp ha
          obtain ⟨_, hw, ⟨hmn', hsig'⟩, rfl⟩ := mem_offers.mp hb
          obtain ⟨d, hd, rfl⟩ := List.mem_map.mp hv
          obtain ⟨d', hd', rfl⟩ := List.mem_map.mp hw
          have htime : d.vote.nTime = d'.vote.nTime := hstamp
          have houtcome := hties d hd d' hd' (hmn.trans hmn'.symm) (hsig.trans hsig'.symm) htime
          rw [houtcome, htime]
      rw [hany, hlatest]
    · rw [recordedVote_receiveAll_of_not hvalid hsupported,
        recordedVote_receiveAll_of_not hvalid' hsupported]
  refine ⟨hrecorded, fun nSignal => ?_⟩
  have hcount := countMatchingVotes_congr fun mn => hrecorded mn nSignal
  simp [getAbsoluteYesCount, getYesCount, getNoCount, hcount]

instance (ds : List VoteDelivery) : Decidable (TiesAgree ds) :=
  inferInstanceAs (Decidable (∀ d ∈ ds, ∀ d' ∈ ds, _ → _ → _ → _))

end CGovernanceObject

def plainGovernanceCrypto : GovernanceCrypto where
  hash := fun bytes => BitVec.ofNat 256
    (bytes.foldl (fun acc byte => (acc * 257 + byte.toNat) % 2 ^ 256) 0)
  verifyMessage := fun _ sig _ => sig = [1]

def governanceEnvAt (nTime : ℤ) : GovernanceEnv where
  getAdjustedTime := nTime
  getMasternodeInfo := fun o => if o.hash = 9 then some ⟨70208, [2]⟩ else none
  countEnabled := 10
  net := .main

def fundingVote (m : UInt32) (nOutcome nTime : ℤ) : CGovernanceVote :=
  ⟨voteSignalFunding, ⟨⟨9, m⟩, [], 0xffffffff⟩, 33, nOutcome, nTime, [1]⟩

def deliveryAt (nTime : ℤ) (vote : CGovernanceVote) : VoteDelivery := ⟨governanceEnvAt nTime, vote⟩

def emptyProposal : CGovernanceObject where
  nObjectType := 1
  nHashParent := 0
  nRevision := 1
  nTime := 1530000000
  strData := []
  vinMasternode := ⟨⟨0, 0xffffffff⟩, [], 0xffffffff⟩
  vchSig := []

namespace CGovernanceObject

def tiedDeliveries : List VoteDelivery :=
  [deliveryAt 1530000010 (fundingVote 0 voteOutcomeYes 1530000000),
    deliveryAt 1530000020 (fundingVote 0 voteOutcomeNo 1530000000)]

/-- Two votes made in one second: the one that comes last counts. -/
theorem receiveAll_tied : (∀ d ∈ tiedDeliveries, d.isValid plainGovernanceCrypto) ∧
    (emptyProposal.receiveAll plainGovernanceCrypto false
      tiedDeliveries).getAbsoluteYesCount voteSignalFunding = -1 ∧
    (emptyProposal.receiveAll plainGovernanceCrypto false
      tiedDeliveries.reverse).getAbsoluteYesCount voteSignalFunding = 1 := by
  decide +kernel

def changedDeliveries : List VoteDelivery :=
  [deliveryAt 1530000010 (fundingVote 0 voteOutcomeYes 1530000000),
    deliveryAt 1530000020 (fundingVote 0 voteOutcomeNo 1530000005),
    deliveryAt 1530000030 (fundingVote 1 voteOutcomeYes 1530000000)]

theorem receiveAll_order_changed : (emptyProposal.receiveAll plainGovernanceCrypto false
      changedDeliveries).getAbsoluteYesCount voteSignalFunding = 0 ∧
    (emptyProposal.receiveAll plainGovernanceCrypto false
      changedDeliveries.reverse).getAbsoluteYesCount voteSignalFunding = 0 := by
  have hzero : (emptyProposal.receiveAll plainGovernanceCrypto false
      changedDeliveries).getAbsoluteYesCount voteSignalFunding = 0 := by
    decide +kernel
  have horder := receiveAll_order plainGovernanceCrypto emptyProposal changedDeliveries
    changedDeliveries.reverse (by decide +kernel) (by decide +kernel) (by simp) (by decide +kernel)
  exact ⟨hzero, (horder.2 voteSignalFunding).symm.trans hzero⟩

end CGovernanceObject
end ImageCoin.Governance
