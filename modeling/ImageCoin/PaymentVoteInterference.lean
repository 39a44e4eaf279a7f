import ImageCoin.StepRuns
import ImageCoin.PaymentVoteTally

/-!
# Payment votes with bad signatures

A vote is marked as seen, and its masternode recorded as having voted, before the signature is
checked.  The hash of a vote leaves the signature out.
-/

namespace ImageCoin

open InsertedSteps List

namespace CMasternodePayments

variable {crypto : VoteCrypto} {s t : CMasternodePayments} {message : VoteMessage}
  {vote : CMasternodePaymentVote} {later : List VoteMessage}

/-- The signature does not verify under the key of the masternode, if the node knows
the masternode. -/
def Unauthenticated (crypto : VoteCrypto) (message : VoteMessage) : Prop :=
  ∀ mnInfo, message.env.getMasternodeInfo message.vote.outMasternode = some mnInfo →
    crypto.verifyMessage mnInfo.pubKeyMasternode message.vote.vchSig
      (message.vote.strMessage crypto) = false

/-- The message is dropped at once, or no later vote has its hash and, if it gets as
far as `CanVote` and changes the record there, no later vote of the masternode is for
the old or the new height of the record. -/
def Spares (crypto : VoteCrypto) (later : List VoteMessage) (s : CMasternodePayments)
    (message : VoteMessage) : Prop :=
  s.dropped crypto message = none →
    (∀ other ∈ later, other.vote.getHash crypto ≠ message.vote.getHash crypto) ∧
      (message.checkVote = .ok () → s.mapMasternodesLastVote.lookup message.vote.outMasternode ≠
          some message.vote.nBlockHeight →
        ∀ other ∈ later, other.vote.outMasternode = message.vote.outMasternode →
          other.vote.nBlockHeight ≠ message.vote.nBlockHeight ∧
            s.mapMasternodesLastVote.lookup message.vote.outMasternode ≠
              some other.vote.nBlockHeight)

structure Alike (crypto : VoteCrypto) (later : List VoteMessage)
    (s t : CMasternodePayments) : Prop where
  stored : Stored s
  stored' : Stored t
  blocks : s.mapMasternodeBlocks = t.mapMasternodeBlocks
  votes : ∀ h, ∀ hash ∈ s.countedHashes h,
    s.mapMasternodePaymentVotes.lookup hash = t.mapMasternodePaymentVotes.lookup hash
  seen : ∀ other ∈ later,
    (s.mapMasternodePaymentVotes.lookup (other.vote.getHash crypto)).isSome =
      (t.mapMasternodePaymentVotes.lookup (other.vote.getHash crypto)).isSome
  lastVote : ∀ m, s.mapMasternodesLastVote.lookup m = t.mapMasternodesLastVote.lookup m ∨
    ∀ other ∈ later, other.vote.outMasternode = m →
      s.mapMasternodesLastVote.lookup m ≠ some other.vote.nBlockHeight ∧
        t.mapMasternodesLastVote.lookup m ≠ some other.vote.nBlockHeight

section
variable (halike : Alike crypto later s t)
include halike

theorem Alike.countedHashes_eq (h : ℤ) : s.countedHashes h = t.countedHashes h := by
  rw [countedHashes, blockPayees, halike.blocks, ← blockPayees, ← countedHashes]

theorem Alike.countedVotes_eq (h : ℤ) : s.countedVotes h = t.countedVotes h := by
  rw [countedVotes, countedVotes, ← halike.countedHashes_eq]
  exact filterMap_congr fun hash hmem => halike.votes h hash hmem

omit halike in
theorem Alike.weaken (halike : Alike crypto (message :: later) s t) : Alike crypto later s t where
  stored := halike.stored
  stored' := halike.stored'
  blocks := halike.blocks
  votes := halike.votes
  seen := fun other hother => halike.seen other (mem_cons_of_mem _ hother)
  lastVote := fun m => (halike.lastVote m).imp_right fun hlater other hother =>
    hlater other (mem_cons_of_mem _ hother)

theorem Alike.markSeen_left (huncounted : ∀ h, vote.getHash crypto ∉ s.countedHashes h)
    (hlater : ∀ other ∈ later, other.vote.getHash crypto ≠ vote.getHash crypto) :
    Alike crypto later (s.markSeen crypto vote) t where
  stored := halike.stored.of_blocks huncounted (fun _ => lookup_markSeen_of_ne) rfl
  stored' := halike.stored'
  blocks := halike.blocks
  votes := by
    intro h hash hmem
    have hne : hash ≠ vote.getHash crypto := fun heq => huncounted h (heq ▸ hmem)
    exact (lookup_markSeen_of_ne hne).trans (halike.votes h hash hmem)
  seen := by
    intro other hother
    rw [lookup_markSeen_of_ne (hlater other hother)]
    exact halike.seen other hother
  lastVote := halike.lastVote

omit halike in
theorem lookup_recordVoter_of_ne {m m' : COutPoint} {h : ℤ} (hne : m' ≠ m) :
    (s.recordVoter m h).mapMasternodesLastVote.lookup m' = s.mapMasternodesLastVote.lookup m' :=
  AList.lookup_insert_ne hne

omit halike in
theorem lookup_recordVoter (m : COutPoint) (h : ℤ) :
    (s.recordVoter m h).mapMasternodesLastVote.lookup m = some h :=
  AList.lookup_insert _

theorem Alike.recordVoter_left {m : COutPoint} {h : ℤ}
    (hlater : ∀ other ∈ later, other.vote.outMasternode = m → other.vote.nBlockHeight ≠ h ∧
        s.mapMasternodesLastVote.lookup m ≠ some other.vote.nBlockHeight) :
    Alike crypto later (s.recordVoter m h) t where
  stored := halike.stored
  stored' := halike.stored'
  blocks := halike.blocks
  votes := halike.votes
  seen := halike.seen
  lastVote := by
    intro m'
    by_cases heq : m' = m
    · subst heq
      right
      intro other hother hmasternode
      obtain ⟨hnew, hold⟩ := hlater other hother hmasternode
      refine ⟨?_, ?_⟩
      · rw [lookup_recordVoter]
        exact fun hsome => hnew (Option.some.inj hsome).symm
      -- The other manager has the old record, or one that is no height of theirs.
      · rcases halike.lastVote m' with hsame | hapart
        · rwa [← hsame]
        · exact (hapart other hother hmasternode).2
    · rw [lookup_recordVoter_of_ne heq]
      exact halike.lastVote m'

omit halike in
theorem Unauthenticated.checkVoter (hbad : Unauthenticated crypto message) :
    message.checkVoter crypto ≠ .ok () := by
  intro hok
  unfold VoteMessage.checkVoter at hok
  cases hinfo : message.env.getMasternodeInfo message.vote.outMasternode with
  | none => simp [hinfo] at hok
  | some mnInfo =>
    have hverify := hbad mnInfo hinfo
    simp only [hinfo, CMasternodePaymentVote.checkSignature, hverify] at hok
    cases hdos : message.env.isMasternodeListSynced &&
        message.vote.nBlockHeight > message.env.nCachedBlockHeight with
    | false => simp [hdos] at hok
    | true => simp [hdos] at hok

theorem Alike.inserted
    (hbad : Unauthenticated crypto message) (hspares : Spares crypto later s message) :
    Alike crypto later (s.processMessage crypto message).2 t := by
  rcases ImageCoin.processMessage_cases s message with hsame | ⟨hkept, hcases⟩
  · rwa [hsame]
  · obtain ⟨hhash, hvoter⟩ := hspares hkept
    have hmarked := halike.markSeen_left (halike.stored.uncounted hkept) hhash
    rcases hcases with hseen | ⟨hvote, hlast, hrecorded | ⟨hok, -⟩⟩
    · rwa [hseen]
    · rw [hrecorded]
      exact hmarked.recordVoter_left (hvoter hvote hlast)
    · exact absurd hok hbad.checkVoter

theorem Alike.markSeen (huncounted : ∀ h, vote.getHash crypto ∉ s.countedHashes h) :
    Alike crypto later (s.markSeen crypto vote) (t.markSeen crypto vote) where
  stored := halike.stored.of_blocks huncounted (fun _ => lookup_markSeen_of_ne) rfl
  stored' := by
    refine halike.stored'.of_blocks (fun h => ?_) (fun _ => lookup_markSeen_of_ne) rfl
    rw [← halike.countedHashes_eq]
    exact huncounted h
  blocks := halike.blocks
  votes := by
    intro h hash hmem
    have hne : hash ≠ vote.getHash crypto := fun heq => huncounted h (heq ▸ hmem)
    rw [lookup_markSeen_of_ne hne, lookup_markSeen_of_ne hne]
    exact halike.votes h hash hmem
  seen := by
    intro other hother
    by_cases heq : other.vote.getHash crypto = vote.getHash crypto
    · generalize other.vote.getHash crypto = hash at heq
      subst heq
      simp [CMasternodePayments.markSeen]
    · rw [lookup_markSeen_of_ne heq, lookup_markSeen_of_ne heq]
      exact halike.seen other hother
  lastVote := halike.lastVote

theorem Alike.recordVoter (m : COutPoint) (h : ℤ) :
    Alike crypto later (s.recordVoter m h) (t.recordVoter m h) where
  stored := halike.stored
  stored' := halike.stored'
  blocks := halike.blocks
  votes := halike.votes
  seen := halike.seen
  lastVote := by
    intro m'
    by_cases heq : m' = m
    · subst heq
      left
      rw [lookup_recordVoter, lookup_recordVoter]
    · rw [lookup_recordVoter_of_ne heq, lookup_recordVoter_of_ne heq]
      exact halike.lastVote m'

theorem Alike.countVote (huncounted : ∀ h, vote.getHash crypto ∉ s.countedHashes h) :
    Alike crypto later (s.countVote crypto vote) (t.countVote crypto vote) where
  stored := halike.stored.countVote huncounted
  stored' := halike.stored'.countVote fun h => halike.countedHashes_eq h ▸ huncounted h
  blocks := by
    simp [CMasternodePayments.countVote, blockPayees, halike.blocks]
  votes := by
    intro h hash hmem
    by_cases heq : hash = vote.getHash crypto
    · subst heq
      simp [CMasternodePayments.countVote]
    · have hold : hash ∈ s.countedHashes h := by
        rw [countedHashes, blockPayees_countVote] at hmem
        split_ifs at hmem with hheight
        · have hcons := (addPayeeLoop_flatMap _ _ _).mem_iff.mp hmem
          exact (mem_cons.mp hcons).resolve_left heq
        · exact hmem
      simp only [CMasternodePayments.countVote, AList.lookup_insert_ne heq]
      exact halike.votes h hash hold
  seen := by
    intro other hother
    by_cases heq : other.vote.getHash crypto = vote.getHash crypto
    · generalize other.vote.getHash crypto = hash at heq
      subst heq
      simp [CMasternodePayments.countVote]
    · simp [CMasternodePayments.countVote, AList.lookup_insert_ne heq]
      exact halike.seen other hother
  lastVote := halike.lastVote

end

section
variable (halike : Alike crypto (message :: later) s t)
include halike

theorem Alike.dropped_eq : s.dropped crypto message = t.dropped crypto message := by
  rw [dropped, dropped, halike.seen message mem_cons_self]

theorem Alike.lastVote_iff :
    s.mapMasternodesLastVote.lookup message.vote.outMasternode = some message.vote.nBlockHeight ↔
      t.mapMasternodesLastVote.lookup message.vote.outMasternode =
        some message.vote.nBlockHeight := by
  rcases halike.lastVote message.vote.outMasternode with hsame | hapart
  · rw [hsame]
  · obtain ⟨hs, ht⟩ := hapart message mem_cons_self rfl
    exact iff_of_false hs ht

theorem Alike.original : Alike crypto later (s.processMessage crypto message).2
    (t.processMessage crypto message).2 := by
  cases hdropped : s.dropped crypto message with
  | some outcome =>
    have hdropped' := halike.dropped_eq ▸ hdropped
    rw [processMessage, hdropped, processMessage, hdropped']
    exact halike.weaken
  | none =>
    have huncounted := halike.stored.uncounted hdropped
    have hmarked := (halike.weaken.markSeen huncounted)
    rw [processMessage_of_kept hdropped, processMessage_of_kept (halike.dropped_eq ▸ hdropped)]
    cases message.checkVote with
    | error outcome => exact hmarked
    | ok =>
      simp only [halike.lastVote_iff]
      by_cases hlast : t.mapMasternodesLastVote.lookup message.vote.outMasternode =
          some message.vote.nBlockHeight
      · simpa only [hlast, if_true] using hmarked
      · simp [hlast]
        have hvoted := hmarked.recordVoter message.vote.outMasternode message.vote.nBlockHeight
        cases message.checkVoter crypto with
        | error outcome => exact hvoted
        | ok =>
          cases message.env.getBlockHash (message.vote.nBlockHeight - 101) with
          | false => exact hvoted
          | true => exact hvoted.countVote huncounted

end

/-- Inserted votes whose signatures do not verify, each of which spares the votes
that come later, change nothing in what is counted. -/
theorem countedVotes_of_spared (crypto : VoteCrypto) (steps : List (Bool × VoteMessage))
    (hbad : ∀ message, (true, message) ∈ steps → Unauthenticated crypto message)
    (hspares : Insertable (fun s message => (processMessage crypto s message).2)
      (Spares crypto) {} steps) (h : ℤ) :
    (runAll (fun s message => (processMessage crypto s message).2) {} steps).countedVotes h =
      (processMessages crypto {} (originals steps)).countedVotes h := by
  have hempty : Alike crypto (originals steps) {} {} :=
    { stored := stored_empty
      stored' := stored_empty
      blocks := rfl
      votes := fun _ _ _ => rfl
      seen := fun _ _ => rfl
      lastVote := fun _ => .inl rfl }
  have hinserted : ∀ later s t message, Alike crypto later s t → Unauthenticated crypto message ∧
    Spares crypto later s message → Alike crypto later (processMessage crypto s message).2 t :=
    fun _ _ _ _ halike hharmless => halike.inserted hharmless.1 hharmless.2
  have halike := Insertable.related hinserted (fun _ _ _ _ halike => halike.original)
    hempty (hspares.and_of_mem hbad)
  exact halike.countedVotes_eq h

def badlySigned (message : VoteMessage) : VoteMessage :=
  { message with vote := { message.vote with vchSig := [0] } }

theorem badlySigned_unauthenticated (message : VoteMessage) :
    Unauthenticated plainCrypto (badlySigned message) :=
  fun _ _ => rfl

theorem countedVotes_spared_other_height :
    (runAll (fun s message => (processMessage plainCrypto s message).2) {}
        [(true, badlySigned (votingFor 202 [OP_1])),
          (false, votingFor 201 [OP_1])]).countedVotes 201 =
      (processMessages plainCrypto {} [votingFor 201 [OP_1]]).countedVotes 201 := by
  refine countedVotes_of_spared plainCrypto
    [(true, badlySigned (votingFor 202 [OP_1])), (false, votingFor 201 [OP_1])] ?_ ?_ 201
  · intro message hmem
    obtain rfl : message = badlySigned (votingFor 202 [OP_1]) := by simpa using hmem
    exact badlySigned_unauthenticated _
  · refine ⟨fun _ => ⟨?_, fun _ _ => ?_⟩, trivial⟩
    · intro other hother
      obtain rfl : other = votingFor 201 [OP_1] := by simpa [originals] using hother
      decide +kernel
    · intro other hother _
      obtain rfl : other = votingFor 201 [OP_1] := by simpa [originals] using hother
      decide +kernel

/-- The same vote with a bad signature comes first: the vote is not counted. -/
theorem countedVotes_after_badlySigned :
    Unauthenticated plainCrypto (badlySigned (votingFor 201 [OP_1])) ∧
      (processMessages plainCrypto {} [votingFor 201 [OP_1]]).countedVotes 201 =
        [(votingFor 201 [OP_1]).vote] ∧
      (processMessages plainCrypto {}
        [badlySigned (votingFor 201 [OP_1]), votingFor 201 [OP_1]]).countedVotes 201 = [] :=
  ⟨badlySigned_unauthenticated _, by decide +kernel, by decide +kernel⟩

end CMasternodePayments
end ImageCoin
