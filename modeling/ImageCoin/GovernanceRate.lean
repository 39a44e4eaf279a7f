import ImageCoin.GovernanceTally

/-!
# The rate of governance votes

A masternode may update its vote on an object once in `GOVERNANCE_UPDATE_MIN` seconds.
-/

namespace ImageCoin.Governance

open List

namespace CGovernanceObject

variable {crypto : GovernanceCrypto} {fRate : Bool} {govobj : CGovernanceObject}
  {mn : COutPoint} {nSignal t : ℤ} {d : VoteDelivery} {ds : List VoteDelivery} {i j : ℕ}

def HasVoteSince (govobj : CGovernanceObject) (mn : COutPoint) (nSignal t : ℤ) : Prop :=
  ∃ r, govobj.recordedVote mn nSignal = some r ∧ t ≤ r.nCreationTime

variable {r : VoteInstance}

theorem not_lt_of_checkVote_eq_ok {env : GovernanceEnv} {vote : CGovernanceVote}
    (hok : checkVote crypto env fRate vote r = .ok ()) : r.nCreationTime ≤ vote.nTime := by
  unfold checkVote at hok
  split_ifs at hok with hobsolete
  exact not_lt.mp hobsolete

theorem isValid_of_checkVote_eq_ok
    (hok : checkVote crypto d.env fRate d.vote r = .ok ()) : d.isValid crypto := by
  unfold checkVote at hok
  split_ifs at hok with _ _ hinvalid
  simpa [VoteDelivery.isValid] using hinvalid

def accepts (crypto : GovernanceCrypto) (fRate : Bool) (govobj : CGovernanceObject)
    (d : VoteDelivery) : Prop :=
  (govobj.processVote crypto d.env fRate d.vote).1 = .ok ()

section
variable (hok : govobj.accepts crypto fRate d)
include hok

theorem accepts.judged : (d.env.getMasternodeInfo d.vote.getMasternodeOutpoint).isNone = false ∧
    Supported d.vote.nVoteSignal := by
  by_contra hnot
  have hcases : (d.env.getMasternodeInfo d.vote.getMasternodeOutpoint).isNone ∨
      ¬Supported d.vote.nVoteSignal := by
    rwa [not_and_or, Bool.not_eq_false] at hnot
  obtain ⟨⟨refusal, herror⟩, -⟩ := processVote_of_not crypto fRate govobj hcases
  simp [accepts, herror] at hok

theorem accepts.isValid : d.isValid crypto := by
  obtain ⟨hknown, hsupported⟩ := hok.judged
  rw [accepts, (processVote_of_supported crypto fRate govobj hknown hsupported).1] at hok
  exact isValid_of_checkVote_eq_ok hok

theorem accepts.hasVoteSince : (govobj.previous d.vote).nCreationTime ≤ d.vote.nTime ∧
    (govobj.receive crypto fRate d).HasVoteSince d.vote.getMasternodeOutpoint
      d.vote.nVoteSignal d.vote.nTime := by
  obtain ⟨hknown, hsupported⟩ := hok.judged
  obtain ⟨hfst, hrecorded⟩ := processVote_of_supported crypto fRate govobj hknown hsupported
  rw [accepts, hfst] at hok
  refine ⟨not_lt_of_checkVote_eq_ok hok,
    ⟨d.vote.nVoteOutcome, (govobj.previous d.vote).nTime, d.vote.nTime⟩, ?_, le_rfl⟩
  rw [receive, hrecorded, if_pos ⟨rfl, rfl⟩, if_pos hok]

end

theorem HasVoteSince.receive (hsince : govobj.HasVoteSince mn nSignal t) (d : VoteDelivery) :
    (govobj.receive crypto fRate d).HasVoteSince mn nSignal t := by
  obtain ⟨r, hr, hle⟩ := hsince
  unfold HasVoteSince CGovernanceObject.receive
  by_cases hjudged : (d.env.getMasternodeInfo d.vote.getMasternodeOutpoint).isNone = false ∧
      Supported d.vote.nVoteSignal
  · rw [(processVote_of_supported crypto fRate govobj hjudged.1 hjudged.2).2]
    split_ifs with hkey hok
    · obtain ⟨rfl, rfl⟩ := hkey
      refine ⟨_, rfl, hle.trans ?_⟩
      have hprevious : govobj.previous d.vote = r := by rw [previous, hr, Option.getD_some]
      exact hprevious ▸ not_lt_of_checkVote_eq_ok hok
    · obtain ⟨rfl, rfl⟩ := hkey
      exact ⟨r, by rw [previous, hr, Option.getD_some], hle⟩
    · exact ⟨r, hr, hle⟩
  · rw [not_and_or, Bool.not_eq_false] at hjudged
    rw [(processVote_of_not crypto fRate govobj hjudged).2]
    exact ⟨r, hr, hle⟩

theorem HasVoteSince.receiveAll (hsince : govobj.HasVoteSince mn nSignal t)
    (ds : List VoteDelivery) : (govobj.receiveAll crypto fRate ds).HasVoteSince mn nSignal t := by
  induction ds generalizing govobj with
  | nil => exact hsince
  | cons d ds ih => exact ih (hsince.receive d)

def acceptsAt (crypto : GovernanceCrypto) (fRate : Bool) (govobj : CGovernanceObject)
    (ds : List VoteDelivery) (i : ℕ) (d : VoteDelivery) : Prop :=
  ds[i]? = some d ∧ (govobj.receiveAll crypto fRate (ds.take i)).accepts crypto fRate d

theorem receiveAll_append (govobj : CGovernanceObject) (ds ds' : List VoteDelivery) :
    govobj.receiveAll crypto fRate (ds ++ ds') =
      (govobj.receiveAll crypto fRate ds).receiveAll crypto fRate ds' :=
  foldl_append

theorem acceptsAt.nTime_le {d' : VoteDelivery} (hi : govobj.acceptsAt crypto fRate ds i d)
    (hj : govobj.acceptsAt crypto fRate ds j d') (hij : i < j)
    (hmn : d.vote.getMasternodeOutpoint = d'.vote.getMasternodeOutpoint)
    (hsignal : d.vote.nVoteSignal = d'.vote.nVoteSignal) : d.vote.nTime ≤ d'.vote.nTime := by
  obtain ⟨hd, hok⟩ := hi
  obtain ⟨-, hok'⟩ := hj
  have hsplit : ds.take j = ds.take i ++ d :: (ds.take j).drop (i + 1) := by
    have hget : (ds.take j)[i]? = some d := by rw [getElem?_take_of_lt hij, hd]
    have hdrop : (ds.take j).drop i = d :: (ds.take j).drop (i + 1) := by
      rw [drop_eq_getElem?_toList_append, hget, Option.toList_some, singleton_append]
    have htake : (ds.take j).take i = ds.take i := by
      rw [take_take, min_eq_left hij.le]
    rw [← hdrop, ← htake, take_append_drop]
  have hsince : (govobj.receiveAll crypto fRate (ds.take j)).HasVoteSince
      d'.vote.getMasternodeOutpoint d'.vote.nVoteSignal d.vote.nTime := by
    rw [hsplit, receiveAll_append, ← hmn, ← hsignal]
    exact hok.hasVoteSince.2.receiveAll _
  obtain ⟨r, hr, hle⟩ := hsince
  have hprevious := hok'.hasVoteSince.1
  rw [previous, hr, Option.getD_some] at hprevious
  exact hle.trans hprevious

/-- Of two valid votes of one masternode for one signal, the one that comes later comes
after `GOVERNANCE_UPDATE_MIN` seconds or has an older timestamp. -/
def SpacedOut (crypto : GovernanceCrypto) (d d' : VoteDelivery) : Prop :=
  d.isValid crypto → d'.isValid crypto →
    d.vote.getMasternodeOutpoint = d'.vote.getMasternodeOutpoint →
      d.vote.nVoteSignal = d'.vote.nVoteSignal →
        governanceUpdateMin ≤ d'.env.getAdjustedTime - d.env.getAdjustedTime ∨
          d'.vote.nTime < d.vote.nTime

instance (crypto : GovernanceCrypto) (d d' : VoteDelivery) : Decidable (SpacedOut crypto d d') :=
  inferInstanceAs (Decidable (_ → _ → _ → _ → _ ∨ _))

/-- Accepted votes keep their distance in runs in which the votes that come do. -/
theorem acceptsAt_spaced (crypto : GovernanceCrypto) (govobj : CGovernanceObject)
    (ds : List VoteDelivery) (hspaced : ds.Pairwise (SpacedOut crypto)) (i j : ℕ) (hij : i < j)
    (d d' : VoteDelivery) (hi : govobj.acceptsAt crypto true ds i d)
    (hj : govobj.acceptsAt crypto true ds j d')
    (hmn : d.vote.getMasternodeOutpoint = d'.vote.getMasternodeOutpoint)
    (hsignal : d.vote.nVoteSignal = d'.vote.nVoteSignal) :
    governanceUpdateMin ≤ d'.env.getAdjustedTime - d.env.getAdjustedTime := by
  have hpair : SpacedOut crypto d d' := by
    obtain ⟨hilt, hi'⟩ := List.getElem?_eq_some_iff.mp hi.1
    obtain ⟨hjlt, hj'⟩ := List.getElem?_eq_some_iff.mp hj.1
    rw [← hi', ← hj']
    exact pairwise_iff_getElem.mp hspaced i j hilt hjlt hij
  rcases hpair hi.2.isValid hj.2.isValid hmn hsignal with hfar | holder
  · exact hfar
  · exact absurd (hi.nTime_le hj hij hmn hsignal) holder.not_ge

instance (crypto : GovernanceCrypto) (fRate : Bool) (govobj : CGovernanceObject)
    (d : VoteDelivery) : Decidable (govobj.accepts crypto fRate d) :=
  match h : (govobj.processVote crypto d.env fRate d.vote).1 with
  | .ok () => .isTrue h
  | .error _ => .isFalse (by simp [accepts, h])

/-- A masternode changes its vote after ten seconds, with rate checks on. -/
theorem acceptsAt_tenSeconds :
    emptyProposal.acceptsAt plainGovernanceCrypto true changedDeliveries 0
      (deliveryAt 1530000010 (fundingVote 0 voteOutcomeYes 1530000000)) ∧
    emptyProposal.acceptsAt plainGovernanceCrypto true changedDeliveries 1
      (deliveryAt 1530000020 (fundingVote 0 voteOutcomeNo 1530000005)) := by
  refine ⟨⟨rfl, ?_⟩, ⟨rfl, ?_⟩⟩
  · decide +kernel
  · decide +kernel

def hourlyDeliveries : List VoteDelivery :=
  [deliveryAt 1530000010 (fundingVote 0 voteOutcomeYes 1530000000),
    deliveryAt 1530003610 (fundingVote 0 voteOutcomeNo 1530003600)]

theorem acceptsAt_spaced_hourly :
    emptyProposal.acceptsAt plainGovernanceCrypto true hourlyDeliveries 1
      (deliveryAt 1530003610 (fundingVote 0 voteOutcomeNo 1530003600)) ∧
    governanceUpdateMin ≤ (1530003610 - 1530000010 : ℤ) := by
  have hfirst : emptyProposal.acceptsAt plainGovernanceCrypto true hourlyDeliveries 0
      (deliveryAt 1530000010 (fundingVote 0 voteOutcomeYes 1530000000)) :=
    ⟨rfl, by decide +kernel⟩
  have hsecond : emptyProposal.acceptsAt plainGovernanceCrypto true hourlyDeliveries 1
      (deliveryAt 1530003610 (fundingVote 0 voteOutcomeNo 1530003600)) :=
    ⟨rfl, by decide +kernel⟩
  exact ⟨hsecond, acceptsAt_spaced plainGovernanceCrypto emptyProposal hourlyDeliveries
    (by decide +kernel) 0 1 (by decide) _ _ hfirst hsecond rfl rfl⟩

end CGovernanceObject
end ImageCoin.Governance
