import ImageCoin.MasternodePayments
import ImageCoin.StepRuns

/-!
# One payment vote per masternode and height

`CanVote` keeps only the last height of each masternode.
-/

namespace ImageCoin

open StepRuns CMasternodePayee List CMasternodePaymentVote AList
variable {crypto : VoteCrypto} {s : CMasternodePayments} {message : VoteMessage}
  {vote : CMasternodePaymentVote} {h : ℤ} {hash : UInt256} {s s' : CMasternodePayments}

namespace CMasternodePayments

variable (s)

def countedHashes (h : ℤ) : List UInt256 :=
  (s.blockPayees h).vecPayees.flatMap vecVoteHashes

def countedVotes (h : ℤ) : List CMasternodePaymentVote :=
  (s.countedHashes h).filterMap fun hash => s.mapMasternodePaymentVotes.lookup hash

def votersAt (h : ℤ) : List COutPoint :=
  (s.countedVotes h).map outMasternode

/-- Every counted hash is one of a stored vote for the height and the payee. -/
def Stored : Prop :=
  ∀ h, ∀ payee ∈ (s.blockPayees h).vecPayees, ∀ hash ∈ payee.vecVoteHashes,
    ∃ vote ∈ s.mapMasternodePaymentVotes.lookup hash,
      vote.nBlockHeight = h ∧ vote.payee = payee.scriptPubKey

/-- No masternode is counted twice at a height. -/
def VotesOnce : Prop :=
  ∀ h, (s.votersAt h).Nodup

variable {s}

theorem stored_empty : Stored {} := by
  intro h payee hpayee
  cases hpayee

theorem addPayeeLoop_flatMap (script : CScript) (hash : UInt256) (payees : List CMasternodePayee) :
    ((addPayeeLoop script hash payees).flatMap vecVoteHashes).Perm
      (hash :: payees.flatMap vecVoteHashes) := by
  induction payees with
  | nil => simp [addPayeeLoop]
  | cons payee payees ih =>
    rw [addPayeeLoop]
    split_ifs with hscript
    · simp
    · exact (ih.append_left _).trans perm_middle

variable {payees : List CMasternodePayee}

theorem mem_addPayeeLoop {script : CScript} {payee : CMasternodePayee}
    (hmem : payee ∈ addPayeeLoop script hash payees) {voteHash : UInt256}
    (hvote : voteHash ∈ payee.vecVoteHashes) :
    voteHash = hash ∧ payee.scriptPubKey = script ∨
      ∃ old ∈ payees, old.scriptPubKey = payee.scriptPubKey ∧ voteHash ∈ old.vecVoteHashes := by
  induction payees with
  | nil =>
    rw [addPayeeLoop, mem_singleton] at hmem
    subst hmem
    exact .inl ⟨mem_singleton.mp hvote, rfl⟩
  | cons first payees ih =>
    rw [addPayeeLoop] at hmem
    split_ifs at hmem with hscript
    · rcases mem_cons.mp hmem with rfl | hmem
      · rcases mem_append.mp hvote with hvote | hvote
        · exact .inr ⟨first, mem_cons_self, rfl, hvote⟩
        · exact .inl ⟨mem_singleton.mp hvote, hscript⟩
      · exact .inr ⟨payee, mem_cons_of_mem _ hmem, rfl, hvote⟩
    · rcases mem_cons.mp hmem with rfl | hmem
      · exact .inr ⟨payee, mem_cons_self, rfl, hvote⟩
      · rcases ih hmem with hnew | ⟨old, hold, hsame⟩
        · exact .inl hnew
        · exact .inr ⟨old, mem_cons_of_mem _ hold, hsame⟩

/-! ## What the steps of a message do to the tally -/

theorem blockPayees_countVote (h : ℤ) : ((s.countVote crypto vote).blockPayees h).vecPayees =
    if h = vote.nBlockHeight then
      addPayeeLoop vote.payee (vote.getHash crypto) (s.blockPayees h).vecPayees
    else (s.blockPayees h).vecPayees := by
  unfold blockPayees countVote
  split_ifs with hheight
  · subst hheight
    rw [lookup_insert]
    rfl
  · rw [lookup_insert_ne hheight]

theorem Stored.lookup_ne_none (hs : Stored s) (hmem : hash ∈ s.countedHashes h) :
    s.mapMasternodePaymentVotes.lookup hash ≠ none := by
  obtain ⟨payee, hpayee, hhash⟩ := mem_flatMap.mp hmem
  obtain ⟨vote, hvote, -⟩ := hs h payee hpayee hash hhash
  rw [Option.mem_def.mp hvote]
  exact Option.some_ne_none vote

theorem filterMap_lookup_congr (huncounted : hash ∉ s.countedHashes h)
    (hvotes : ∀ other ≠ hash, s'.mapMasternodePaymentVotes.lookup other =
    s.mapMasternodePaymentVotes.lookup other) :
    (s.countedHashes h).filterMap (fun other => s'.mapMasternodePaymentVotes.lookup other) =
      s.countedVotes h := by
  refine filterMap_congr fun other hmem => hvotes other ?_
  rintro rfl
  exact huncounted hmem

theorem countedVotes_of_blocks (huncounted : hash ∉ s.countedHashes h)
    (hvotes : ∀ other ≠ hash, s'.mapMasternodePaymentVotes.lookup other =
    s.mapMasternodePaymentVotes.lookup other)
    (hblocks : s'.mapMasternodeBlocks = s.mapMasternodeBlocks) :
    s'.countedVotes h = s.countedVotes h := by
  rw [countedVotes, countedHashes, blockPayees, hblocks, ← blockPayees]
  exact filterMap_lookup_congr huncounted hvotes

theorem Stored.of_blocks (hs : Stored s) (huncounted : ∀ h, hash ∉ s.countedHashes h)
    (hvotes : ∀ other ≠ hash, s'.mapMasternodePaymentVotes.lookup other =
    s.mapMasternodePaymentVotes.lookup other)
    (hblocks : s'.mapMasternodeBlocks = s.mapMasternodeBlocks) : Stored s' := by
  intro h payee hpayee other hother
  rw [blockPayees, hblocks] at hpayee
  obtain ⟨vote, hvote, hsame⟩ := hs h payee hpayee other hother
  have hne : other ≠ hash := by
    rintro rfl
    exact huncounted h (mem_flatMap.mpr ⟨payee, hpayee, hother⟩)
  exact ⟨vote, by rwa [hvotes other hne], hsame⟩

theorem countedVotes_countVote (hhash : vote.getHash crypto = hash)
    (huncounted : hash ∉ s.countedHashes h) : ((s.countVote crypto vote).countedVotes h).Perm
      (if h = vote.nBlockHeight then vote :: s.countedVotes h else s.countedVotes h) := by
  subst hhash
  have hlookup : (s.countVote crypto vote).mapMasternodePaymentVotes.lookup
      (vote.getHash crypto) = some vote := lookup_insert _
  have hvotes : ∀ other ≠ vote.getHash crypto,
      (s.countVote crypto vote).mapMasternodePaymentVotes.lookup other =
        s.mapMasternodePaymentVotes.lookup other :=
    fun other hne => lookup_insert_ne hne
  have hrest := filterMap_lookup_congr huncounted hvotes
  rw [countedVotes, countedHashes, blockPayees_countVote]
  split_ifs with hheight
  · refine ((addPayeeLoop_flatMap _ _ _).filterMap _).trans ?_
    rw [filterMap_cons, hlookup, ← countedHashes, hrest]
  · rw [← countedHashes, hrest]

theorem Stored.countVote (hs : Stored s)
    (huncounted : ∀ h, vote.getHash crypto ∉ s.countedHashes h) :
    Stored (s.countVote crypto vote) := by
  intro h payee hpayee hash hhash
  rw [blockPayees_countVote] at hpayee
  have hold : ∀ old ∈ (s.blockPayees h).vecPayees, hash ∈ old.vecVoteHashes →
      ∃ v ∈ (s.countVote crypto vote).mapMasternodePaymentVotes.lookup hash,
        v.nBlockHeight = h ∧ v.payee = old.scriptPubKey := by
    intro old hmem hvote
    obtain ⟨v, hv, hsame⟩ := hs h old hmem hash hvote
    have hne : hash ≠ vote.getHash crypto := by
      rintro rfl
      exact huncounted h (mem_flatMap.mpr ⟨old, hmem, hvote⟩)
    exact ⟨v, (lookup_insert_ne hne).trans hv, hsame⟩
  split_ifs at hpayee with hheight
  · rcases mem_addPayeeLoop hpayee hhash with ⟨rfl, hscript⟩ | ⟨old, hmem, hscript, hvote⟩
    · exact ⟨vote, lookup_insert _, hheight.symm, hscript.symm⟩
    · obtain ⟨v, hv, hsame⟩ := hold old hmem hvote
      exact ⟨v, hv, hscript ▸ hsame⟩
  · exact hold payee hpayee hhash

theorem isValid_of_checkVote (hcheck : message.checkVote = .ok ()) :
    message.vote.isValid message.env = .ok () := by
  unfold VoteMessage.checkVote at hcheck
  dsimp only at hcheck
  split_ifs at hcheck
  split at hcheck
  next => cases hcheck
  next hvalid => exact hvalid

theorem lookup_of_kept (hkept : s.dropped crypto message = none) :
    s.mapMasternodePaymentVotes.lookup (message.vote.getHash crypto) = none := by
  unfold dropped at hkept
  split_ifs at hkept with _ _ _ hseen
  simpa using hseen

theorem Stored.uncounted (hs : Stored s) (hkept : s.dropped crypto message = none) (h : ℤ) :
    message.vote.getHash crypto ∉ s.countedHashes h :=
  fun hmem => hs.lookup_ne_none hmem (lookup_of_kept hkept)

theorem lookup_markSeen_of_ne {other : UInt256} (hne : other ≠ vote.getHash crypto) :
    (s.markSeen crypto vote).mapMasternodePaymentVotes.lookup other =
      s.mapMasternodePaymentVotes.lookup other :=
  lookup_insert_ne hne

theorem Stored.processMessage_cases (hs : Stored s) (message : VoteMessage) :
    Stored (s.processMessage crypto message).2 ∧
      ((∀ h, (s.processMessage crypto message).2.countedVotes h = s.countedVotes h) ∨
        s.dropped crypto message = none ∧ message.checkVote = .ok () ∧
          s.mapMasternodesLastVote.lookup message.vote.outMasternode ≠
            some message.vote.nBlockHeight ∧
          ∀ h, ((s.processMessage crypto message).2.countedVotes h).Perm
            (if h = message.vote.nBlockHeight then message.vote :: s.countedVotes h
              else s.countedVotes h)) := by
  rcases ImageCoin.processMessage_cases s message with hsame | ⟨hkept, hcases⟩
  · rw [hsame]
    exact ⟨hs, .inl fun _ => rfl⟩
  · have huncounted := hs.uncounted hkept
    set t := s.markSeen crypto message.vote
    have hmarked : Stored t :=
      hs.of_blocks huncounted (fun _ => lookup_markSeen_of_ne) rfl
    have hcounted : ∀ h, t.countedVotes h = s.countedVotes h :=
      fun h => countedVotes_of_blocks (huncounted h) (fun _ => lookup_markSeen_of_ne) rfl
    rcases hcases with hseen | ⟨hvote, hlast, hrecorded | ⟨-, hadded⟩⟩
    · rw [hseen]
      exact ⟨hmarked, .inl hcounted⟩
    · rw [hrecorded]
      exact ⟨hmarked, .inl hcounted⟩
    · rw [hadded]
      have hvoted : Stored (t.recordVoter
        message.vote.outMasternode message.vote.nBlockHeight) := hmarked
      refine ⟨hvoted.countVote huncounted, .inr ⟨hkept, hvote, hlast, fun h => ?_⟩⟩
      rw [← hcounted h]
      exact countedVotes_countVote rfl (huncounted h)

/-- A masternode that is counted for the height of the message has not voted for
another height since. -/
def InOrder (crypto : VoteCrypto) (s : CMasternodePayments) (message : VoteMessage) : Prop :=
  s.dropped crypto message = none →
    message.vote.outMasternode ∈ s.votersAt message.vote.nBlockHeight →
    s.mapMasternodesLastVote.lookup message.vote.outMasternode = some message.vote.nBlockHeight

theorem VotesOnce.processMessage (hs : Stored s) (honce : VotesOnce s)
    (horder : InOrder crypto s message) : VotesOnce (s.processMessage crypto message).2 := by
  intro h
  rcases (hs.processMessage_cases message).2 with hsame | ⟨hkept, -, hlast, hadded⟩
  · rw [votersAt, hsame]
    exact honce h
  · have hvoters := (hadded h).map outMasternode
    refine hvoters.nodup_iff.mpr ?_
    split_ifs with hheight
    · subst hheight
      exact nodup_cons.mpr ⟨fun hmem => hlast (horder hkept hmem), honce _⟩
    · exact honce h

def processMessages (crypto : VoteCrypto) (s : CMasternodePayments)
    (messages : List VoteMessage) : CMasternodePayments :=
  messages.foldl (fun s message => (s.processMessage crypto message).2) s

def AllInOrder (crypto : VoteCrypto) (s : CMasternodePayments)
    (messages : List VoteMessage) : Prop :=
  Along (fun s message => (s.processMessage crypto message).2) (InOrder crypto) s messages

variable {messages : List VoteMessage}

theorem VotesOnce.processMessages (hs : Stored s)
    (honce : VotesOnce s) (horder : AllInOrder crypto s messages) :
    Stored (s.processMessages crypto messages) ∧ VotesOnce (s.processMessages crypto messages) :=
  Along.foldl (P := fun s => Stored s ∧ VotesOnce s) (fun _ message h horder =>
      ⟨(h.1.processMessage_cases message).1, VotesOnce.processMessage h.1 h.2 horder⟩)
    ⟨hs, honce⟩ horder

theorem Stored.mem_countedVotes (hs : Stored s)
    (hmem : vote ∈ (s.processMessages crypto messages).countedVotes h) :
    vote ∈ s.countedVotes h ∨ ∃ message ∈ messages, message.vote = vote ∧ vote.nBlockHeight = h ∧
        message.vote.isValid message.env = .ok () := by
  induction messages generalizing s with
  | nil => exact .inl hmem
  | cons message messages ih =>
    obtain ⟨hstored, hcases⟩ := hs.processMessage_cases message
    rcases ih hstored hmem with hfirst | ⟨later, hlater, hvote⟩
    · rcases hcases with hsame | ⟨-, hcheck, -, hadded⟩
      · exact .inl (hsame h ▸ hfirst)
      · have hnew := (hadded h).mem_iff.mp hfirst
        split_ifs at hnew with hheight
        · rcases mem_cons.mp hnew with rfl | hold
          · refine .inr ⟨message, mem_cons_self, rfl, hheight.symm, ?_⟩
            exact isValid_of_checkVote hcheck
          · exact .inl hold
        · exact .inl hnew
    · exact .inr ⟨later, mem_cons_of_mem _ hlater, hvote⟩

theorem getVoteCount_add_le {a b : CMasternodePayee} (ha : a ∈ payees) (hb : b ∈ payees)
    (hne : a ≠ b) : a.getVoteCount + b.getVoteCount ≤ (payees.flatMap vecVoteHashes).length := by
  obtain ⟨front, back, rfl⟩ := append_of_mem ha
  have hrest : b ∈ front ++ back := by
    simpa [hne.symm] using hb
  have hle : b.getVoteCount ≤ ((front ++ back).flatMap vecVoteHashes).length := by
    rw [length_flatMap]
    exact single_le_sum (by simp) _ (mem_map_of_mem hrest)
  simp only [getVoteCount, flatMap_append, flatMap_cons, length_append] at hle ⊢
  omega

theorem VotesOnce.length_countedHashes_le (hs : Stored s) (honce : VotesOnce s)
    {voters : Finset COutPoint} (hvoters : ∀ m ∈ s.votersAt h, m ∈ voters) :
    (s.countedHashes h).length ≤ voters.card := by
  have hall : (s.countedVotes h).length = (s.countedHashes h).length := by
    refine filterMap_length_eq_length.mpr fun hash hmem => ?_
    exact Option.isSome_iff_ne_none.mpr (hs.lookup_ne_none hmem)
  rw [← hall, ← length_map outMasternode, ← votersAt, ← toFinset_card_of_nodup (honce h)]
  exact Finset.card_le_card fun m hm => hvoters m (mem_toFinset.mp hm)

/-- In a run in which no masternode comes back to a height it was counted for after
voting for another one, no masternode is counted twice for a height.  If at most ten
masternodes may vote for a height, at most one payee has the required signatures. -/
theorem votersAt_nodup_of_allInOrder (crypto : VoteCrypto) (messages : List VoteMessage)
    (horder : AllInOrder crypto {} messages) (h : ℤ) :
    ((processMessages crypto {} messages).votersAt h).Nodup ∧
      ∀ voters : Finset COutPoint, voters.card ≤ 10 →
        (∀ message ∈ messages, message.vote.nBlockHeight = h →
          message.vote.isValid message.env = .ok () → message.vote.outMasternode ∈ voters) →
        ∀ payee ∈ ((processMessages crypto {} messages).blockPayees h).vecPayees,
        ∀ payee' ∈ ((processMessages crypto {} messages).blockPayees h).vecPayees,
          mnpaymentsSignaturesRequired ≤ payee.getVoteCount →
          mnpaymentsSignaturesRequired ≤ payee'.getVoteCount → payee = payee' := by
  have hempty : VotesOnce {} := fun h => List.nodup_nil
  obtain ⟨hstored, honce⟩ := hempty.processMessages stored_empty horder
  refine ⟨honce h, ?_⟩
  intro voters hten heligible payee hpayee payee' hpayee' hvotes hvotes'
  by_contra hne
  have hvoters : ∀ m ∈ (processMessages crypto {} messages).votersAt h, m ∈ voters := by
    intro m hm
    obtain ⟨vote, hvote, rfl⟩ := List.mem_map.mp hm
    rcases stored_empty.mem_countedVotes hvote with hnone | ⟨message, hmem, rfl, hh, hvalid⟩
    · cases hnone
    · exact heligible message hmem hh hvalid
  have htotal := honce.length_countedHashes_le hstored hvoters
  have hsum := getVoteCount_add_le hpayee hpayee' hne
  rw [← countedHashes] at hsum
  simp only [mnpaymentsSignaturesRequired] at hvotes hvotes'
  omega

/-- Contents with different serializations have different hashes, and one byte
string is a signature. -/
def plainCrypto : VoteCrypto where
  hash := fun bytes => BitVec.ofNat 256 (ByteStream.leNat bytes)
  scriptToAsmStr := fun _ => []
  verifyMessage := fun _ vchSig _ => vchSig = [1]

def votingEnv : PaymentEnv where
  fLiteMode := false
  fMasterNode := false
  isMasternodeListSynced := true
  payUpdatedNodes := true
  nCachedBlockHeight := 200
  getStorageLimit := 5000
  getMasternodeInfo := fun _ => some ⟨70222, [2]⟩
  getMasternodeRank := fun _ _ _ => some 1
  getBlockHash := fun _ => true

def votingFor (nBlockHeight : ℤ) (payee : CScript) : VoteMessage where
  env := votingEnv
  nVersion := 70222
  vote := ⟨⟨1, 0⟩, nBlockHeight, payee, [1]⟩

theorem votersAt_nodup_two_heights :
    ((processMessages plainCrypto {} [votingFor 201 [OP_1], votingFor 202 [OP_1]]).votersAt
        201).Nodup ∧
      (processMessages plainCrypto {} [votingFor 201 [OP_1], votingFor 202 [OP_1]]).votersAt
        201 = [⟨1, 0⟩] := by
  refine ⟨(votersAt_nodup_of_allInOrder plainCrypto _ ?_ 201).1, by decide +kernel⟩
  refine ⟨fun _ hmem => ?_, fun _ hmem => ?_, trivial⟩
  · exact absurd hmem (by decide +kernel)
  · exact absurd hmem (by decide +kernel)

/-- Votes for 201, for 202 and again for 201: the masternode is counted twice for
height 201, for two payees. -/
theorem votersAt_again_after_other_height : ∃ messages : List VoteMessage,
      (∀ message ∈ messages, message.checkVoter plainCrypto = .ok ()) ∧
        (processMessages plainCrypto {} messages).votersAt 201 = [⟨1, 0⟩, ⟨1, 0⟩] := by
  refine ⟨[votingFor 201 [OP_1], votingFor 202 [OP_1], votingFor 201 [OP_16]], ?_, ?_⟩
  · intro message hmem
    simp only [List.mem_cons, List.not_mem_nil, or_false] at hmem
    rcases hmem with rfl | rfl | rfl
    · rfl
    · rfl
    · rfl
  · decide +kernel

end CMasternodePayments
end ImageCoin
