import ImageCoin.BlockPayments
import ImageCoin.MapEntries

/-!
# The votes counted for a payee

`mapMasternodeBlocks` counts what `mapMasternodePaymentVotes` stores: the count of a payee is
the number of verified votes for it, however votes arrive and `CheckAndRemove` prunes them.
-/

namespace ImageCoin.CMasternodePayments

open MapEntries CMasternodePayee CMasternodePaymentVote List

def isOld (nCachedBlockHeight nLimit : ℤ) (vote : CMasternodePaymentVote) : Bool :=
  nCachedBlockHeight - vote.nBlockHeight > nLimit

def oldHeights (s : CMasternodePayments) (nCachedBlockHeight nLimit : ℤ) : List ℤ :=
  (s.mapMasternodePaymentVotes.entries.filter fun e =>
    isOld nCachedBlockHeight nLimit e.2).map fun e => e.2.nBlockHeight

def checkAndRemove (s : CMasternodePayments) (isBlockchainSynced : Bool)
    (nCachedBlockHeight nLimit : ℤ) : CMasternodePayments :=
  if !isBlockchainSynced then s
  else
    { s with
      mapMasternodePaymentVotes := filterEntries s.mapMasternodePaymentVotes
        fun _ vote => !isOld nCachedBlockHeight nLimit vote
      mapMasternodeBlocks :=
        eraseAll s.mapMasternodeBlocks (s.oldHeights nCachedBlockHeight nLimit) }

/-- A vote of a peer, an own vote, or a call of `CheckAndRemove`. -/
inductive TallyStep where
  | message (message : VoteMessage)
  | add (env : PaymentEnv) (vote : CMasternodePaymentVote)
  | checkAndRemove (isBlockchainSynced : Bool) (nCachedBlockHeight nLimit : ℤ)

def tallyStep (crypto : VoteCrypto) (s : CMasternodePayments) : TallyStep → CMasternodePayments
  | .message message => (s.processMessage crypto message).2
  | .add env vote => (s.addPaymentVote crypto env vote).2
  | .checkAndRemove isBlockchainSynced nCachedBlockHeight nLimit =>
    s.checkAndRemove isBlockchainSynced nCachedBlockHeight nLimit

def tallyRun (crypto : VoteCrypto) (steps : List TallyStep) : CMasternodePayments :=
  steps.foldl (tallyStep crypto) {}

def countOf (payee : CScript) (payees : List CMasternodePayee) : ℕ :=
  (payees.find? fun p => p.scriptPubKey = payee).elim 0 getVoteCount

def storedCount (s : CMasternodePayments) (h : ℤ) (payee : CScript) : ℕ :=
  countOf payee (s.blockPayees h).vecPayees

def isFor (h : ℤ) (payee : CScript) (vote : CMasternodePaymentVote) : Bool :=
  vote.isVerified && (vote.nBlockHeight = h && vote.payee = payee)

def verifiedVotes (s : CMasternodePayments) (h : ℤ) (payee : CScript) : ℕ :=
  countEntries s.mapMasternodePaymentVotes (isFor h payee)

def payeesAt (s : CMasternodePayments) (h : ℤ) : List CScript :=
  (s.blockPayees h).vecPayees.map scriptPubKey

/-- The counts are right, and each payee of a height is listed once, with a vote. -/
structure Tallies (s : CMasternodePayments) : Prop where
  counts : ∀ h payee, s.storedCount h payee = s.verifiedVotes h payee
  nodup : ∀ h, (s.payeesAt h).Nodup
  voted : ∀ h, ∀ payee ∈ s.payeesAt h, 0 < s.storedCount h payee

variable {crypto : VoteCrypto} {s s' : CMasternodePayments} {vote : CMasternodePaymentVote}
  {h : ℤ} {payee : CScript}

theorem countOf_cons_of_ne {first : CMasternodePayee} (hne : first.scriptPubKey ≠ payee)
    (rest : List CMasternodePayee) : countOf payee (first :: rest) = countOf payee rest := by
  simp [countOf, hne]

theorem countOf_addPayeeLoop (payee script : CScript) (hash : UInt256)
    (payees : List CMasternodePayee) : countOf payee (addPayeeLoop script hash payees) =
      countOf payee payees + if script = payee then 1 else 0 := by
  induction payees with
  | nil =>
    by_cases hscript : script = payee <;>
      simp [addPayeeLoop, countOf, hscript, getVoteCount]
  | cons first payees ih =>
    rw [addPayeeLoop]
    by_cases hfirst : first.scriptPubKey = script
    · by_cases hscript : script = payee
      · simp [countOf, hfirst, hscript, getVoteCount]
      · simp [countOf, hfirst, hscript]
    · rw [if_neg hfirst]
      by_cases hpayee : first.scriptPubKey = payee
      · rw [if_neg fun hscript => hfirst (hpayee.trans hscript.symm)]
        simp [countOf, hpayee]
      · rw [countOf_cons_of_ne hpayee, ih, countOf_cons_of_ne hpayee]

theorem scripts_addPayeeLoop (script : CScript) (hash : UInt256) (payees : List CMasternodePayee) :
    (addPayeeLoop script hash payees).map scriptPubKey = if script ∈ payees.map scriptPubKey then
        payees.map scriptPubKey
      else payees.map scriptPubKey ++ [script] := by
  induction payees with
  | nil => rfl
  | cons first payees ih =>
    rw [addPayeeLoop]
    by_cases hfirst : first.scriptPubKey = script
    · simp [hfirst]
    · rw [if_neg hfirst, map_cons, ih, map_cons]
      simp only [mem_cons, Ne.symm hfirst, false_or]
      split_ifs <;> rfl

variable {payees : List CMasternodePayee}

theorem countOf_eq_zero (hnot : payee ∉ payees.map scriptPubKey) : countOf payee payees = 0 := by
  have hnone : payees.find? (fun p => p.scriptPubKey = payee) = none :=
    find?_eq_none.mpr fun p hp heq => hnot (mem_map.mpr ⟨p, hp, by simpa using heq⟩)
  simp [countOf, hnone]

theorem nodup_addPayeeLoop {script : CScript} {hash : UInt256}
    (hnodup : (payees.map scriptPubKey).Nodup) :
    ((addPayeeLoop script hash payees).map scriptPubKey).Nodup := by
  rw [scripts_addPayeeLoop]
  split_ifs with hmem
  · exact hnodup
  · exact nodup_append.mpr ⟨hnodup, nodup_singleton _,
      fun a ha b hb heq => hmem (mem_singleton.mp hb ▸ heq ▸ ha)⟩

theorem countOf_of_mem {p : CMasternodePayee} (hnodup : (payees.map scriptPubKey).Nodup)
    (hmem : p ∈ payees) : countOf p.scriptPubKey payees = p.getVoteCount := by
  induction payees with
  | nil => exact absurd hmem not_mem_nil
  | cons first payees ih =>
    obtain ⟨hnew, hnodup⟩ := nodup_cons.mp hnodup
    rcases mem_cons.mp hmem with rfl | hmem
    · simp [countOf]
    · have hne : first.scriptPubKey ≠ p.scriptPubKey := fun heq =>
        hnew (heq ▸ mem_map_of_mem hmem)
      rw [countOf_cons_of_ne hne, ih hnodup hmem]

/-! ## The steps -/

section
variable (htallies : s.Tallies)
include htallies

theorem Tallies.of_same (hblocks : s'.mapMasternodeBlocks = s.mapMasternodeBlocks)
    (hvotes : ∀ h payee, s'.verifiedVotes h payee = s.verifiedVotes h payee) : s'.Tallies := by
  have hpayees : ∀ h, s'.blockPayees h = s.blockPayees h := by
    intro h
    rw [blockPayees, hblocks, ← blockPayees]
  refine ⟨fun h payee => ?_, fun h => ?_, fun h payee => ?_⟩
  · rw [storedCount, hpayees, ← storedCount, htallies.counts, hvotes]
  · rw [payeesAt, hpayees]
    exact htallies.nodup h
  · rw [payeesAt, storedCount, hpayees]
    exact htallies.voted h payee

theorem Tallies.markSeen (hnew : s.mapMasternodePaymentVotes.lookup (vote.getHash crypto) = none) :
    (s.markSeen crypto vote).Tallies := by
  refine htallies.of_same rfl fun h payee => ?_
  have hcount := countEntries_insert s.mapMasternodePaymentVotes (isFor h payee)
    (vote.getHash crypto) vote.markAsNotVerified
  have hnot : isFor h payee vote.markAsNotVerified = false := rfl
  rwa [hnew] at hcount

omit htallies in
theorem verifiedVotes_countVote (hnew : s.hasVerifiedPaymentVote (vote.getHash crypto) = false)
    (hsigned : vote.isVerified) (h : ℤ) (payee : CScript) :
    (s.countVote crypto vote).verifiedVotes h payee = s.verifiedVotes h payee +
      if vote.nBlockHeight = h ∧ vote.payee = payee then 1 else 0 := by
  have hfor : (isFor h payee vote).toNat =
      if vote.nBlockHeight = h ∧ vote.payee = payee then 1 else 0 := by
    rw [isFor, hsigned, ← Bool.decide_and]
    split_ifs with hboth <;> simp [hboth]
  have hold : (s.mapMasternodePaymentVotes.lookup (vote.getHash crypto)).elim 0
      (fun old => (isFor h payee old).toNat) = 0 := by
    unfold hasVerifiedPaymentVote at hnew
    cases hlook : s.mapMasternodePaymentVotes.lookup (vote.getHash crypto) with
    | none => rfl
    | some old =>
      rw [hlook] at hnew
      simp [isFor, hnew]
  have hcount := countEntries_insert s.mapMasternodePaymentVotes (isFor h payee)
    (vote.getHash crypto) vote
  rwa [hold, hfor] at hcount

theorem Tallies.countVote (hnew : s.hasVerifiedPaymentVote (vote.getHash crypto) = false)
    (hsigned : vote.isVerified) : (s.countVote crypto vote).Tallies := by
  refine ⟨fun h payee => ?_, fun h => ?_, fun h payee => ?_⟩
  · rw [verifiedVotes_countVote hnew hsigned, ← htallies.counts, storedCount, blockPayees_countVote]
    by_cases hheight : h = vote.nBlockHeight
    · rw [if_pos hheight, countOf_addPayeeLoop, ← storedCount]
      simp [hheight]
    · simp [hheight, storedCount, Ne.symm hheight]
  · rw [payeesAt, blockPayees_countVote]
    split_ifs
    · exact nodup_addPayeeLoop (htallies.nodup h)
    · exact htallies.nodup h
  · rw [payeesAt, storedCount, blockPayees_countVote]
    split_ifs
    · rw [scripts_addPayeeLoop, countOf_addPayeeLoop, ← payeesAt]
      intro hmem
      by_cases hpayee : vote.payee = payee
      · simp [hpayee]
      · have hold : payee ∈ s.payeesAt h := by
          split_ifs at hmem
          · exact hmem
          · simpa [Ne.symm hpayee] using hmem
        exact Nat.add_pos_left (htallies.voted h payee hold) _
    · exact htallies.voted h payee

omit htallies in
theorem isVerified_of_checkVoter {message : VoteMessage}
    (hempty : ∀ key text, crypto.verifyMessage key [] text = false)
    (hvoter : message.checkVoter crypto = .ok ()) : message.vote.isVerified := by
  unfold VoteMessage.checkVoter at hvoter
  cases hinfo : message.env.getMasternodeInfo message.vote.outMasternode with
  | none => simp [hinfo] at hvoter
  | some mnInfo =>
    rw [isVerified]
    by_contra hnot
    have hsig : message.vote.vchSig = [] := by simpa using hnot
    have hbad : ∃ nDos, message.vote.checkSignature crypto message.env mnInfo.pubKeyMasternode =
        .error nDos := by
      rw [checkSignature, hsig, hempty, if_neg Bool.false_ne_true]
      split_ifs
      · exact ⟨20, rfl⟩
      · exact ⟨0, rfl⟩
    obtain ⟨nDos, hbad⟩ := hbad
    simp [hinfo, hbad] at hvoter

theorem Tallies.processMessage (hempty : ∀ key text, crypto.verifyMessage key [] text = false)
    (message : VoteMessage) : (s.processMessage crypto message).2.Tallies := by
  rcases processMessage_cases s message with hsame | ⟨hkept, hcases⟩
  · rw [hsame]
    exact htallies
  · have hmarked := htallies.markSeen (lookup_of_kept hkept)
    rcases hcases with hseen | ⟨-, -, hrecorded | ⟨hvoter, hadded⟩⟩
    · rw [hseen]
      exact hmarked
    · rw [hrecorded]
      exact hmarked.of_same rfl fun _ _ => rfl
    · rw [hadded]
      have hvoted : ((s.markSeen crypto message.vote).recordVoter message.vote.outMasternode
          message.vote.nBlockHeight).Tallies := hmarked.of_same rfl fun _ _ => rfl
      refine hvoted.countVote ?_ (isVerified_of_checkVoter hempty hvoter)
      simp [hasVerifiedPaymentVote, recordVoter, CMasternodePayments.markSeen,
        isVerified, markAsNotVerified]

theorem Tallies.addPaymentVote (env : PaymentEnv)
    (hsigned : vote.isVerified) : (s.addPaymentVote crypto env vote).2.Tallies := by
  unfold CMasternodePayments.addPaymentVote
  split_ifs with hblock hknown
  · exact htallies
  · exact htallies
  · exact htallies.countVote (by simpa using hknown) hsigned

omit htallies in
theorem vecPayees_checkAndRemove (s : CMasternodePayments) (nCachedBlockHeight nLimit h : ℤ) :
    ((s.checkAndRemove true nCachedBlockHeight nLimit).blockPayees h).vecPayees =
      if h ∈ s.oldHeights nCachedBlockHeight nLimit then [] else (s.blockPayees h).vecPayees := by
  rw [blockPayees, CMasternodePayments.checkAndRemove, if_neg (by simp), lookup_eraseAll]
  split_ifs <;> rfl

/-- The votes of a height are pruned together, and its payees with them. -/
theorem Tallies.checkAndRemove (isBlockchainSynced : Bool) (nCachedBlockHeight nLimit : ℤ) :
    (s.checkAndRemove isBlockchainSynced nCachedBlockHeight nLimit).Tallies := by
  cases isBlockchainSynced with
  | false => exact htallies
  | true =>
    set s' := s.checkAndRemove true nCachedBlockHeight nLimit with hs'
    have hblock := vecPayees_checkAndRemove s nCachedBlockHeight nLimit
    rw [← hs'] at hblock
    have hvotes : ∀ h payee, s'.verifiedVotes h payee =
        if nCachedBlockHeight - h > nLimit then 0 else s.verifiedVotes h payee := by
      intro h payee
      have hfiltered : s'.verifiedVotes h payee = s.mapMasternodePaymentVotes.entries.countP
          fun e => !isOld nCachedBlockHeight nLimit e.2 && isFor h payee e.2 := by
        rw [verifiedVotes, hs', CMasternodePayments.checkAndRemove]
        simp [countEntries, filterEntries, countP_filter, Bool.and_comm]
      rw [hfiltered]
      split_ifs with hold
      · refine countP_eq_zero.mpr fun e _ => ?_
        simp only [isOld, isFor, Bool.and_eq_true, Bool.not_eq_true', decide_eq_false_iff_not,
          decide_eq_true_eq]
        rintro ⟨hkept, -, rfl, -⟩
        exact hkept hold
      · refine countP_congr fun e _ => ?_
        simp only [isOld, isFor, Bool.and_eq_true, Bool.not_eq_true', decide_eq_false_iff_not,
          decide_eq_true_eq, and_iff_right_iff_imp]
        rintro ⟨-, rfl, -⟩
        exact hold
    refine ⟨fun h payee => ?_, fun h => ?_, fun h payee => ?_⟩
    · rw [hvotes, storedCount, hblock]
      by_cases hlisted : h ∈ s.oldHeights nCachedBlockHeight nLimit
      · obtain ⟨e, he, rfl⟩ := mem_map.mp hlisted
        have hold := (mem_filter.mp he).2
        simp only [isOld, decide_eq_true_eq] at hold
        rw [if_pos hlisted, if_pos hold]
        rfl
      · rw [if_neg hlisted, ← storedCount, htallies.counts]
        split_ifs with hold
        · -- no vote of this height is stored
          refine countP_eq_zero.mpr fun e he hfor => hlisted (mem_map.mpr ⟨e, ?_, ?_⟩)
          · refine mem_filter.mpr ⟨he, ?_⟩
            simp only [isFor, Bool.and_eq_true, decide_eq_true_eq] at hfor
            simpa [isOld, hfor.2.1] using hold
          · simp only [isFor, Bool.and_eq_true, decide_eq_true_eq] at hfor
            exact hfor.2.1
        · rfl
    · rw [payeesAt, hblock]
      split_ifs
      · exact nodup_nil
      · exact htallies.nodup h
    · rw [payeesAt, storedCount, hblock]
      split_ifs
      · exact fun hmem => absurd hmem not_mem_nil
      · exact htallies.voted h payee

end

/-- Own votes are signed before they are added. -/
def OwnVotesSigned (steps : List TallyStep) : Prop :=
  ∀ env vote, TallyStep.add env vote ∈ steps → vote.isVerified

theorem tallies_tallyRun (hempty : ∀ key text, crypto.verifyMessage key [] text = false)
    {steps : List TallyStep} (hsigned : OwnVotesSigned steps) :
    (tallyRun crypto steps).Tallies := by
  have hstart : Tallies {} := ⟨fun _ _ => rfl, fun _ => nodup_nil, fun _ _ => nofun⟩
  refine foldlRecOn steps _ hstart fun s hs step hmem => ?_
  cases step with
  | message message => exact hs.processMessage hempty message
  | add env vote => exact hs.addPaymentVote env (hsigned env vote hmem)
  | checkAndRemove isBlockchainSynced nCachedBlockHeight nLimit =>
    exact hs.checkAndRemove isBlockchainSynced nCachedBlockHeight nLimit

/-! ## The order of arrival -/

/-- At some time of the run there was no vote for `second`, and from then on there always was one
for `first`. -/
def ArrivedBefore (crypto : VoteCrypto) (steps : List TallyStep) (h : ℤ) (first second : CScript) :
    Prop :=
  ∃ front, front <+: steps ∧ (tallyRun crypto front).verifiedVotes h second = 0 ∧
    ∀ mid, front <+: mid → mid <+: steps → 0 < (tallyRun crypto mid).verifiedVotes h first

theorem payeesAt_countVote (h : ℤ) : (s.countVote crypto vote).payeesAt h = s.payeesAt h ∨
    vote.payee ∉ s.payeesAt h ∧
      (s.countVote crypto vote).payeesAt h = s.payeesAt h ++ [vote.payee] := by
  rw [payeesAt, blockPayees_countVote]
  split_ifs
  · rw [scripts_addPayeeLoop, ← payeesAt]
    split_ifs with hmem
    · exact .inl rfl
    · exact .inr ⟨hmem, rfl⟩
  · exact .inl rfl

/-- A step leaves the payees of a height, adds one at the end, or removes them all. -/
theorem payeesAt_tallyStep (s : CMasternodePayments) (step : TallyStep) (h : ℤ) :
    (tallyStep crypto s step).payeesAt h = s.payeesAt h ∨
      (∃ payee ∉ s.payeesAt h, (tallyStep crypto s step).payeesAt h = s.payeesAt h ++ [payee]) ∨
      (tallyStep crypto s step).payeesAt h = [] := by
  have hcount : ∀ {t : CMasternodePayments} {vote}, t.mapMasternodeBlocks = s.mapMasternodeBlocks →
      (t.countVote crypto vote).payeesAt h = s.payeesAt h ∨ ∃ payee ∉ s.payeesAt h,
        (t.countVote crypto vote).payeesAt h = s.payeesAt h ++ [payee] := by
    intro t vote hblocks
    have hsame : t.payeesAt h = s.payeesAt h := by rw [payeesAt, blockPayees, hblocks]; rfl
    rw [← hsame]
    exact (payeesAt_countVote h).imp_right fun hadded => ⟨_, hadded⟩
  cases step with
  | message message =>
    rcases @processMessage_cases crypto s message with
      hstep | ⟨-, hstep | ⟨-, -, hstep | ⟨-, hstep⟩⟩⟩
    · exact .inl (by rw [tallyStep, hstep])
    · exact .inl (by rw [tallyStep, hstep]; rfl)
    · exact .inl (by rw [tallyStep, hstep]; rfl)
    · rw [tallyStep, hstep]
      exact or_assoc.mp (.inl (hcount rfl))
  | add env vote =>
    rw [tallyStep, addPaymentVote]
    split_ifs
    · exact .inl rfl
    · exact .inl rfl
    · exact or_assoc.mp (.inl (hcount rfl))
  | checkAndRemove isBlockchainSynced nCachedBlockHeight nLimit =>
    cases isBlockchainSynced with
    | false => exact .inl rfl
    | true =>
      rw [tallyStep, payeesAt, vecPayees_checkAndRemove]
      split_ifs
      · exact .inr (.inr rfl)
      · exact .inl rfl

/-- The order stays after one more step, as long as the first payee still has a vote. -/
theorem ArrivedBefore.concat {steps : List TallyStep} {step : TallyStep} {first second : CScript}
    (harrived : ArrivedBefore crypto steps h first second)
    (hvoted : 0 < (tallyRun crypto (steps ++ [step])).verifiedVotes h first) :
    ArrivedBefore crypto (steps ++ [step]) h first second := by
  obtain ⟨front, hfront, hsecond, hfirst⟩ := harrived
  refine ⟨front, hfront.trans (prefix_append _ _), hsecond, fun mid hmid hwithin => ?_⟩
  rcases prefix_concat_iff.mp hwithin with rfl | hwithin
  · exact hvoted
  · exact hfirst mid hmid hwithin

/-- The payees of a height are listed in the order of their first votes. -/
theorem pairwise_arrivedBefore (hempty : ∀ key text, crypto.verifyMessage key [] text = false)
    {steps : List TallyStep} (hsigned : OwnVotesSigned steps) (h : ℤ) :
    ((tallyRun crypto steps).payeesAt h).Pairwise (ArrivedBefore crypto steps h) := by
  induction steps using reverseRecOn with
  | nil => exact .nil
  | append_singleton steps step ih =>
    have hbefore : OwnVotesSigned steps := fun env vote hmem =>
      hsigned env vote (mem_append_left _ hmem)
    have hold := tallies_tallyRun hempty hbefore
    have hnew := tallies_tallyRun hempty hsigned
    have hrun : tallyRun crypto (steps ++ [step]) = tallyStep crypto (tallyRun crypto steps) step :=
      foldl_append ..
    have hkept : ∀ {first second}, first ∈ (tallyRun crypto (steps ++ [step])).payeesAt h →
        ArrivedBefore crypto steps h first second →
        ArrivedBefore crypto (steps ++ [step]) h first second := by
      intro first second hlisted harrived
      refine harrived.concat ?_
      rw [← hnew.counts]
      exact hnew.voted h first hlisted
    rcases payeesAt_tallyStep (tallyRun crypto steps) step h with
      hsame | ⟨payee, hpayee, hadded⟩ | hnone
    · rw [← hrun] at hsame
      rw [hsame]
      refine (ih hbefore).imp_of_mem fun {first second} hmem _ => hkept ?_
      rwa [hsame]
    · rw [← hrun] at hadded
      rw [hadded, pairwise_append]
      refine ⟨(ih hbefore).imp_of_mem fun {first second} hmem _ => hkept ?_, pairwise_singleton _ _,
        fun first hmem second hsecond => hkept ?_ ?_⟩
      · simp [hadded, hmem]
      · simp [hadded, hmem]
      · obtain rfl := mem_singleton.mp hsecond
        refine ⟨steps, prefix_rfl, ?_, fun mid hmid hwithin => ?_⟩
        · rw [← hold.counts]
          exact countOf_eq_zero hpayee
        · rw [hwithin.eq_of_length_le hmid.length_le, ← hold.counts]
          exact hold.voted h first hmem
    · rw [← hrun] at hnone
      rw [hnone]
      exact .nil

/-! ## The best payee -/

/-- The same verified votes for a height. -/
def SameVotes (s s' : CMasternodePayments) (h : ℤ) : Prop :=
  ∀ hash vote, vote.isVerified → vote.nBlockHeight = h →
    (s.mapMasternodePaymentVotes.lookup hash = some vote ↔
      s'.mapMasternodePaymentVotes.lookup hash = some vote)

theorem SameVotes.verifiedVotes_eq (hsame : SameVotes s s' h) (payee : CScript) :
    s.verifiedVotes h payee = s'.verifiedVotes h payee := by
  have hnodup : ∀ t : CMasternodePayments,
      (t.mapMasternodePaymentVotes.entries.filter fun e => isFor h payee e.2).Nodup :=
    fun t => t.mapMasternodePaymentVotes.nodupKeys.nodup.filter _
  rw [verifiedVotes, verifiedVotes, countEntries, countEntries, countP_eq_length_filter,
    countP_eq_length_filter]
  refine ((perm_ext_iff_of_nodup (hnodup s) (hnodup s')).mpr fun e => ?_).length_eq
  rw [mem_filter, mem_filter, and_congr_left_iff]
  intro hfor
  simp only [isFor, Bool.and_eq_true, decide_eq_true_eq] at hfor
  have hiff := hsame e.1 e.2 hfor.1 hfor.2.1
  rw [← Option.mem_def, ← Option.mem_def, AList.mem_lookup_iff, AList.mem_lookup_iff] at hiff
  exact hiff

theorem Tallies.getBestPayee_most (htallies : s.Tallies)
    (hbest : (s.blockPayees h).getBestPayee = some payee) (other : CScript) :
    s.storedCount h other ≤ s.storedCount h payee := by
  rw [storedCount, countOf]
  cases hfind : (s.blockPayees h).vecPayees.find? fun p => p.scriptPubKey = other with
  | none => exact Nat.zero_le _
  | some p =>
    obtain ⟨best, hmem, hmost, heq⟩ := getBestPayee_of_mem (mem_of_find?_eq_some hfind)
    obtain rfl : best.scriptPubKey = payee := Option.some.inj (heq.symm.trans hbest)
    rw [storedCount, countOf_of_mem (htallies.nodup h) hmem]
    exact hmost

theorem exists_payee_of_voted (hsome : 0 < s.storedCount h payee) :
    ∃ p ∈ (s.blockPayees h).vecPayees, p.scriptPubKey = payee := by
  by_contra hnone
  rw [storedCount, countOf_eq_zero (by simpa using hnone)] at hsome
  exact hsome.false

theorem Tallies.getBestPayee_of_most (htallies : s.Tallies)
    (hmost : ∀ other ≠ payee, s.storedCount h other < s.storedCount h payee)
    (hsome : 0 < s.storedCount h payee) : (s.blockPayees h).getBestPayee = some payee := by
  obtain ⟨p, hp, rfl⟩ := exists_payee_of_voted hsome
  obtain ⟨best, -, -, hbest⟩ := getBestPayee_of_mem hp
  rw [hbest]
  by_contra hne
  have hless := hmost best.scriptPubKey fun heq => hne (congrArg some heq)
  exact absurd (htallies.getBestPayee_most hbest p.scriptPubKey) (Nat.not_le.mpr hless)

theorem Tallies.getBestPayee_voted (htallies : s.Tallies) {best : CScript}
    (hbest : (s.blockPayees h).getBestPayee = some best) : 0 < s.storedCount h best := by
  refine htallies.voted h best ?_
  rw [payeesAt]
  cases hpayees : (s.blockPayees h).vecPayees with
  | nil => simp [CMasternodeBlockPayees.getBestPayee, hpayees] at hbest
  | cons p payees =>
    obtain ⟨b, hb, -, heq⟩ := getBestPayee_of_mem (hpayees ▸ mem_cons_self (a := p) (l := payees))
    exact mem_map.mpr ⟨b, hpayees ▸ hb, Option.some.inj (heq.symm.trans hbest)⟩

/-- Of several payees with the most votes, the best one is listed first. -/
theorem Tallies.getBestPayee_first (htallies : s.Tallies) {best : CScript}
    (hbest : (s.blockPayees h).getBestPayee = some best) (hne : payee ≠ best)
    (htie : s.storedCount h payee = s.storedCount h best) (hvoted : 0 < s.storedCount h payee)
    {R : CScript → CScript → Prop} (hR : (s.payeesAt h).Pairwise R) : R best payee := by
  obtain ⟨p, hp, rfl⟩ := exists_payee_of_voted hvoted
  obtain ⟨front, b, back, hpayees, hfront, hback, heq⟩ := exists_best_of_mem hp
  obtain rfl : b.scriptPubKey = best := Option.some.inj (heq.symm.trans hbest)
  have hb : b ∈ (s.blockPayees h).vecPayees := by simp [hpayees]
  rw [storedCount, storedCount, countOf_of_mem (htallies.nodup h) hp,
    countOf_of_mem (htallies.nodup h) hb] at htie
  rw [hpayees, mem_append, mem_cons] at hp
  rw [payeesAt, hpayees, map_append, map_cons, pairwise_append, pairwise_cons] at hR
  rcases hp with hp | rfl | hp
  · exact absurd htie (hfront p hp).ne
  · exact absurd rfl hne
  · exact hR.2.1.1 _ (mem_map_of_mem hp)

/-- The count of each payee is the number of verified votes for it.  The best payee has the
most votes, and if no other payee has as many it is determined by the votes; of several with the
most votes it is the one whose first vote arrived first. -/
theorem tallyRun_counts_and_best (crypto : VoteCrypto)
    (hempty : ∀ key text, crypto.verifyMessage key [] text = false) (steps : List TallyStep)
    (hsigned : OwnVotesSigned steps) :
    (∀ h payee, (tallyRun crypto steps).storedCount h payee =
      (tallyRun crypto steps).verifiedVotes h payee) ∧
    (∀ h best, ((tallyRun crypto steps).blockPayees h).getBestPayee = some best →
      ∀ payee, (tallyRun crypto steps).verifiedVotes h payee ≤
        (tallyRun crypto steps).verifiedVotes h best) ∧
    (∀ h best, ((tallyRun crypto steps).blockPayees h).getBestPayee = some best →
      ∀ payee ≠ best, (tallyRun crypto steps).verifiedVotes h payee =
        (tallyRun crypto steps).verifiedVotes h best → ArrivedBefore crypto steps h best payee) ∧
    ∀ steps', OwnVotesSigned steps' → ∀ h,
      SameVotes (tallyRun crypto steps) (tallyRun crypto steps') h → ∀ best,
      0 < (tallyRun crypto steps).verifiedVotes h best →
      (∀ payee ≠ best, (tallyRun crypto steps).verifiedVotes h payee <
        (tallyRun crypto steps).verifiedVotes h best) →
      ((tallyRun crypto steps).blockPayees h).getBestPayee = some best ∧
        ((tallyRun crypto steps').blockPayees h).getBestPayee = some best := by
  have htallies := tallies_tallyRun hempty hsigned
  refine ⟨htallies.counts, fun h best hbest payee => ?_, fun h best hbest payee hne htie => ?_, ?_⟩
  · rw [← htallies.counts, ← htallies.counts]
    exact htallies.getBestPayee_most hbest payee
  · rw [← htallies.counts, ← htallies.counts] at htie
    exact htallies.getBestPayee_first hbest hne htie
      (htie ▸ htallies.getBestPayee_voted hbest) (pairwise_arrivedBefore hempty hsigned h)
  · intro steps' hsigned' h hsame best hsome hmost
    have htallies' := tallies_tallyRun hempty hsigned'
    constructor
    · refine htallies.getBestPayee_of_most (fun other hne => ?_) ?_
      · rw [htallies.counts, htallies.counts]
        exact hmost other hne
      · rwa [htallies.counts]
    · refine htallies'.getBestPayee_of_most (fun other hne => ?_) ?_
      · rw [htallies'.counts, htallies'.counts, ← hsame.verifiedVotes_eq, ← hsame.verifiedVotes_eq]
        exact hmost other hne
      · rwa [htallies'.counts, ← hsame.verifiedVotes_eq]

def payeeCrypto : VoteCrypto where
  hash bytes := BitVec.ofNat 256 (bytes.getD 1 0).toNat
  scriptToAsmStr _ := []
  verifyMessage _ vchSig _ := !vchSig.isEmpty

def openEnv : PaymentEnv where
  fLiteMode := false
  fMasterNode := true
  isMasternodeListSynced := true
  payUpdatedNodes := false
  nCachedBlockHeight := 200
  getStorageLimit := 5000
  getMasternodeInfo _ := none
  getMasternodeRank _ _ _ := none
  getBlockHash _ := true

def voteFor (payee : UInt8) : TallyStep :=
  .add openEnv ⟨⟨payee.toNat, 0⟩, 200, [payee], [1]⟩

theorem ownVotesSigned_voteFor (payees : List UInt8) : OwnVotesSigned (payees.map voteFor) := by
  intro env vote hmem
  obtain ⟨payee, -, heq⟩ := mem_map.mp hmem
  obtain ⟨rfl, rfl⟩ := TallyStep.add.inj heq
  rfl

theorem tallyRun_counts_twoPayees :
    (tallyRun payeeCrypto ([1, 2].map voteFor)).storedCount 200 [1] =
        (tallyRun payeeCrypto ([1, 2].map voteFor)).verifiedVotes 200 [1] ∧
      (tallyRun payeeCrypto ([1, 2].map voteFor)).storedCount 200 [1] = 1 ∧
      ArrivedBefore payeeCrypto ([1, 2].map voteFor) 200 [1] [2] := by
  obtain ⟨hcounts, -, htie, -⟩ :=
    tallyRun_counts_and_best payeeCrypto (fun _ _ => rfl) _ (ownVotesSigned_voteFor [1, 2])
  refine ⟨hcounts 200 [1], by decide +kernel, ?_⟩
  exact htie 200 [1] (by decide +kernel) [2] (by decide) (by decide +kernel)

/-- The same two votes in the other order make the other payee the best one. -/
theorem getBestPayee_depends_on_order :
    (tallyRun payeeCrypto ([1, 2].map voteFor)).mapMasternodePaymentVotes.entries.Perm
        (tallyRun payeeCrypto ([2, 1].map voteFor)).mapMasternodePaymentVotes.entries ∧
      ((tallyRun payeeCrypto ([1, 2].map voteFor)).blockPayees 200).getBestPayee = some [1] ∧
      ((tallyRun payeeCrypto ([2, 1].map voteFor)).blockPayees 200).getBestPayee = some [2] := by
  decide +kernel

end ImageCoin.CMasternodePayments
