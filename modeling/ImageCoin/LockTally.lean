import ImageCoin.HonestVotes

/-!
# The tally of a lock request

Once the candidate of a transaction has its request, every valid vote for it is counted, unless
a vote with its hash was seen before.
-/

namespace ImageCoin

open MapEntries Relation CTxLockRequest CTxLockCandidate List Option
variable {o m : COutPoint}

abbrev Tally := COutPoint → Finset COutPoint

namespace Tally

def add (V : Tally) (vote : CTxLockVote) : Tally := fun o =>
  if o = vote.outpoint then insert vote.outpointMasternode (V o) else V o

/-- Every input has votes of enough masternodes. -/
def Enough (tx : CTransaction) (V : Tally) : Prop :=
  tx.vin ≠ [] ∧ ∀ o ∈ prevouts (some tx), signaturesRequired ≤ (V o).card

variable {V W : Tally} {vote : CTxLockVote} {tx : CTransaction}

theorem mem_add : m ∈ V.add vote o ↔ m ∈ V o ∨ o = vote.outpoint ∧ m = vote.outpointMasternode := by
  unfold add
  split_ifs with ho
  · simp [ho, or_comm]
  · simp [ho]

theorem add_eq_self (hmem : vote.outpointMasternode ∈ V vote.outpoint) : V.add vote = V := by
  funext o
  ext m
  rw [mem_add]
  constructor
  · rintro (hm | ⟨rfl, rfl⟩)
    · exact hm
    · exact hmem
  · exact .inl

theorem Enough.mono (henough : V.Enough tx) (hsub : ∀ o, V o ⊆ W o) : W.Enough tx :=
  ⟨henough.1, fun o ho => (henough.2 o ho).trans (Finset.card_le_card (hsub o))⟩

theorem exists_prevout (hvin : tx.vin ≠ []) : ∃ o, o ∈ prevouts (some tx) := by
  obtain ⟨txin, htxin⟩ := exists_mem_of_ne_nil _ hvin
  exact ⟨txin.prevout, mem_map_of_mem htxin⟩

theorem not_enough_of_subset (me : COutPoint) (hsub : ∀ o, V o ⊆ {me}) : ¬V.Enough tx := by
  rintro ⟨hvin, hcard⟩
  obtain ⟨o, ho⟩ := exists_prevout hvin
  have hle : (V o).card ≤ 1 := (Finset.card_le_card (hsub o)).trans (by simp)
  have hsix := hcard o ho
  unfold signaturesRequired at hsix
  omega

end Tally

def voters (votes : List CTxLockVote) : Tally := fun o =>
  ((votes.filter fun v => v.outpoint = o).map (·.outpointMasternode)).toFinset

variable {votes : List CTxLockVote}

theorem mem_voters :
    m ∈ voters votes o ↔ ∃ v ∈ votes, v.outpoint = o ∧ v.outpointMasternode = m := by
  simp [voters, and_assoc]

theorem mem_voters_cons {vote : CTxLockVote} : m ∈ voters (vote :: votes) o ↔
    (o = vote.outpoint ∧ m = vote.outpointMasternode) ∨ m ∈ voters votes o := by
  simp [mem_voters, eq_comm]

/-- The candidate has the request, its inputs and the votes of the tally, and has not been
there for long. -/
structure CTxLockCandidate.Counts (tx : CTransaction) (t₀ : ℤ) (V : Tally)
    (c : CTxLockCandidate) : Prop where
  request : c.txLockRequest = some tx
  time : t₀ ≤ c.nTimeCreated
  keys : ∀ o, o ∈ c.mapOutPointLocks.keys ↔ o ∈ prevouts (some tx)
  locks : ∀ o lock, c.mapOutPointLocks.lookup o = some lock →
    lock.fAttacked = false ∧ ∀ m, m ∈ lock.mapMasternodeVotes.keys ↔ m ∈ V o

namespace CTxLockCandidate.Counts

variable {tx : CTransaction} {t₀ : ℤ} {V : Tally} {c c' : CTxLockCandidate} {vote : CTxLockVote}
  (hcounts : c.Counts tx t₀ V)
include hcounts

theorem getHash_eq : c.getHash = tx.hash := by
  rw [getHash, hcounts.request]
  rfl

theorem isReady_iff {lock : COutPointLock} (hlock : c.mapOutPointLocks.lookup o = some lock) :
    lock.isReady ↔ signaturesRequired ≤ (V o).card := by
  obtain ⟨hattacked, hkeys⟩ := hcounts.locks o lock hlock
  have hV : V o = lock.mapMasternodeVotes.keys.toFinset := by
    ext m
    rw [List.mem_toFinset, hkeys]
  have hcard : (V o).card = lock.mapMasternodeVotes.entries.length := by
    rw [hV, List.toFinset_card_of_nodup lock.mapMasternodeVotes.keys_nodup, AList.keys,
      List.keys, List.length_map]
  simp [COutPointLock.isReady, COutPointLock.countVotes, hattacked, hcard]

theorem ready_iff : c.isAllOutPointsReady ↔ V.Enough tx := by
  rw [isAllOutPointsReady_iff]
  constructor
  · rintro ⟨⟨o, ho⟩, hready⟩
    refine ⟨?_, fun o ho => ?_⟩
    · rintro hvin
      simpa [prevouts, hvin] using (hcounts.keys o).mp ho
    · obtain ⟨lock, hlock⟩ := (mem_keys_iff _ _).mp ((hcounts.keys o).mpr ho)
      exact (hcounts.isReady_iff hlock).mp (hready o lock hlock)
  · rintro ⟨hvin, hcard⟩
    refine ⟨?_, fun o lock hlock => ?_⟩
    · obtain ⟨o, ho⟩ := Tally.exists_prevout hvin
      exact ⟨o, (hcounts.keys o).mpr ho⟩
    · have ho : o ∈ c.mapOutPointLocks.keys := (mem_keys_iff _ _).mpr ⟨lock, hlock⟩
      exact (hcounts.isReady_iff hlock).mpr (hcard o ((hcounts.keys o).mp ho))

theorem isTimedOut_eq_false {env : InstantSendEnv}
    (htime : env.getTime ≤ t₀ + instantsendLockTimeoutSeconds) : c.isTimedOut env = false := by
  have hcreated := hcounts.time
  have hsmall : ¬env.getTime - c.nTimeCreated > instantsendLockTimeoutSeconds := by omega
  simpa [isTimedOut] using hsmall

theorem addVote (hadd : c.addVote vote = some c') : c'.Counts tx t₀ (V.add vote) := by
  obtain ⟨hrequest, -, htime⟩ := fields_addVote hadd
  refine ⟨hrequest.trans hcounts.request, htime ▸ hcounts.time, fun o => ?_, ?_⟩
  · rw [mem_keys_addVote hadd, hcounts.keys]
  · obtain ⟨lock₀, hlock₀, -, rfl⟩ := addVote_eq_some hadd
    intro o lock hlock
    simp only [lookup_insert_eq] at hlock
    split_ifs at hlock with ho
    · subst ho
      obtain rfl := some.inj hlock
      obtain ⟨hattacked, hkeys⟩ := hcounts.locks _ lock₀ hlock₀
      refine ⟨hattacked, fun m => ?_⟩
      rw [Tally.mem_add, ← hkeys]
      by_cases hm : m = vote.outpointMasternode
      · simp [hm]
      · simp [hm]
    · obtain ⟨hattacked, hkeys⟩ := hcounts.locks o lock hlock
      refine ⟨hattacked, fun m => ?_⟩
      rw [Tally.mem_add, hkeys]
      simp [ho]

theorem add_of_addVote_eq_none
    (ho : vote.outpoint ∈ prevouts (some tx)) (hadd : c.addVote vote = none) : V.add vote = V := by
  have hvoted := hasMasternodeVoted_of_addVote_eq_none ((hcounts.keys _).mpr ho) hadd
  obtain ⟨lock, v, hlock, hv⟩ := hasMasternodeVoted_iff.mp hvoted
  exact Tally.add_eq_self (((hcounts.locks _ lock hlock).2 _).mp ((mem_keys_iff _ _).mpr ⟨v, hv⟩))

end CTxLockCandidate.Counts

namespace InstantSendEnv

variable (env : InstantSendEnv)

def atTime (time : ℤ) : InstantSendEnv := { env with getTime := time }

def withTx (tx : CTransaction) : InstantSendEnv :=
  { env with
    mapNextTx := fun o =>
      if o ∈ prevouts (some tx) then some tx.hash else env.mapNextTx o }

def takesVotes : Bool :=
  !env.fLiteMode && env.instantSendEnabled && env.isMasternodeListSynced

end InstantSendEnv

namespace CInstantSend

variable {crypto : LockCrypto} {env : InstantSendEnv} {s t : CInstantSend}
  {tx : CTransaction} {t₀ : ℤ} {V : Tally} {vote : CTxLockVote}

/-- The candidate has the tally, and its inputs are voted for and locked for no other
transaction. -/
structure Tallied (tx : CTransaction) (t₀ : ℤ) (V : Tally) (s : CInstantSend) : Prop where
  candidate : ∃ c, s.mapTxLockCandidates.lookup tx.hash = some c ∧ c.Counts tx t₀ V
  voted : ∀ o ∈ prevouts (some tx), ∀ k ∈ s.votedFor o, k = tx.hash
  free : ∀ o ∈ prevouts (some tx), ∀ k, s.mapLockedOutpoints.lookup o = some k → k = tx.hash

/-- The inputs are locked exactly if there are enough votes. -/
def Settled (tx : CTransaction) (V : Tally) (s : CInstantSend) : Prop :=
  ∀ o ∈ prevouts (some tx), s.mapLockedOutpoints.lookup o = some tx.hash ↔ V.Enough tx

theorem Tallied.locksAll_iff (htallied : s.Tallied tx t₀ V) (hsettled : s.Settled tx V) :
    s.locksAll tx.hash ↔ V.Enough tx := by
  obtain ⟨c, hc, hcounts⟩ := htallied.candidate
  rw [CInstantSend.locksAll_iff]
  constructor
  · rintro ⟨c', hc', ⟨o, ho⟩, hall⟩
    obtain rfl : c = c' := some.inj (hc.symm.trans hc')
    exact (hsettled o ((hcounts.keys o).mp ho)).mp (hall o ho)
  · intro henough
    obtain ⟨o, ho⟩ := Tally.exists_prevout henough.1
    exact ⟨c, hc, ⟨o, (hcounts.keys o).mpr ho⟩,
      fun o' ho' => (hsettled o' ((hcounts.keys o').mp ho')).mpr henough⟩

/-! ## Trying to lock -/

/-- Nothing that the node knows is in the way of a lock. -/
structure Undisturbed (tx : CTransaction) (env : InstantSendEnv) : Prop where
  coins : ∀ o ∈ prevouts (some tx), (env.getUTXOCoin o).isSome
  pool : ∀ o ∈ prevouts (some tx), ∀ k, env.mapNextTx o = some k → k = tx.hash

variable {c : CTxLockCandidate}

theorem tryToFinalizeLockCandidate_of_not_ready (hready : c.isAllOutPointsReady = false) :
    s.tryToFinalizeLockCandidate env c = s := by
  simp [tryToFinalizeLockCandidate, hready]

section
variable (htallied : s.Tallied tx t₀ V)
include htallied

theorem Tallied.findConflict_eq_none
    (hpool : ∀ o ∈ prevouts (some tx), ∀ k, env.mapNextTx o = some k → k = tx.hash) :
    s.findConflict env tx.hash (prevouts (some tx)) = none := by
  refine findSome?_eq_none_iff.mpr fun o ho => ?_
  have hmempool : mempoolConflict env tx.hash o = none := by
    unfold mempoolConflict
    cases hnext : env.mapNextTx o with
    | none => rfl
    | some k => simp [hpool o ho k hnext]
  unfold conflictAt
  cases hlocked : s.mapLockedOutpoints.lookup o with
  | none => exact hmempool
  | some k =>
    obtain rfl := htallied.free o ho k hlocked
    simpa using hmempool

theorem Tallied.tryToFinalizeLockCandidate (hfree : Undisturbed tx env)
    (henabled : env.instantSendEnabled) (hc : s.mapTxLockCandidates.lookup tx.hash = some c)
    (hcounts : c.Counts tx t₀ V) (henough : V.Enough tx) :
    ∃ locks, s.tryToFinalizeLockCandidate env c = { s with mapLockedOutpoints := locks } ∧
      ∀ o ∈ prevouts (some tx), locks.lookup o = some tx.hash := by
  have hready := hcounts.ready_iff.mpr henough
  unfold CInstantSend.tryToFinalizeLockCandidate
  rw [hcounts.getHash_eq, hready, henabled]
  cases hlocked : s.isLockedInstantSendTransaction env tx.hash with
  | true =>
    -- The transaction is locked already.
    refine ⟨s.mapLockedOutpoints, rfl, fun o ho => ?_⟩
    have hall : s.locksAll tx.hash := by
      unfold isLockedInstantSendTransaction at hlocked
      split_ifs at hlocked
      exact hlocked
    obtain ⟨c', hc', -, hkeys⟩ := CInstantSend.locksAll_iff.mp hall
    obtain rfl : c = c' := some.inj (hc.symm.trans hc')
    exact hkeys o ((hcounts.keys o).mpr ho)
  | false =>
    refine ⟨insertAllNew s.mapLockedOutpoints c.mapOutPointLocks.keys tx.hash, ?_, ?_⟩
    · have hcoins : ((prevouts (some tx)).all fun o =>
          (env.getUTXOCoin o).isSome) := all_eq_true.mpr hfree.coins
      have hresolved : s.resolveConflicts env c = (true, s) := by
        unfold resolveConflicts
        rw [hcounts.getHash_eq, hready, hcounts.request]
        simp [htallied.findConflict_eq_none hfree.pool, hcoins]
      simp [hresolved, lockTransactionInputs, henabled, hready, hcounts.getHash_eq]
    · intro o ho
      rw [lookup_insertAllNew, if_pos ((hcounts.keys o).mpr ho)]
      cases hold : s.mapLockedOutpoints.lookup o with
      | none => rfl
      | some k => rw [getD_some, htallied.free o ho k hold]

theorem Tallied.settled (hfree : Undisturbed tx env)
    (henabled : env.instantSendEnabled) (hc : s.mapTxLockCandidates.lookup tx.hash = some c)
    (hcounts : c.Counts tx t₀ V) (hbefore : ¬V.Enough tx → ∀ o ∈ prevouts (some tx),
    s.mapLockedOutpoints.lookup o ≠ some tx.hash) :
    (s.tryToFinalizeLockCandidate env c).Tallied tx t₀ V ∧
      (s.tryToFinalizeLockCandidate env c).Settled tx V ∧
      (s.tryToFinalizeLockCandidate env c).mapTxLockVotes = s.mapTxLockVotes := by
  by_cases henough : V.Enough tx
  · obtain ⟨locks, heq, hlocks⟩ :=
      htallied.tryToFinalizeLockCandidate hfree henabled hc hcounts henough
    rw [heq]
    refine ⟨⟨htallied.candidate, htallied.voted, fun o ho k hk => ?_⟩, fun o ho => ?_, rfl⟩
    · exact (some.inj ((hlocks o ho).symm.trans hk)).symm
    · simp [hlocks o ho, henough]
  · have hready : c.isAllOutPointsReady = false := by
      rw [← Bool.not_eq_true, hcounts.ready_iff]
      exact henough
    rw [tryToFinalizeLockCandidate_of_not_ready hready]
    exact ⟨htallied, fun o ho => by simp [henough, hbefore henough o ho], rfl⟩

omit htallied in
theorem markConflicting_of_same {hashes : List UInt256}
    (hsame : ∀ k ∈ hashes, k = vote.txHash) : markConflicting vote hashes s = s := by
  induction hashes with
  | nil => rfl
  | cons k hashes ih =>
    unfold markConflicting
    simp [hsame k mem_cons_self, ih fun k' hk' => hsame k' (mem_cons_of_mem _ hk')]

theorem Tallied.recordVoted (o : COutPoint) : (s.recordVoted o tx.hash).Tallied tx t₀ V := by
  refine ⟨htallied.candidate, fun o' ho' k hk => ?_, htallied.free⟩
  rw [votedFor_recordVoted] at hk
  split_ifs at hk with heq
  · rcases mem_insert_iff.mp hk with rfl | hk
    · rfl
    · exact htallied.voted o' ho' k (heq ▸ hk)
  · exact htallied.voted o' ho' k hk

theorem Tallied.addVote {c c' : CTxLockCandidate} (hcounts : c.Counts tx t₀ V)
    (hadd : c.addVote vote = some c') : (s.setCandidate tx.hash c').Tallied tx t₀ (V.add vote) :=
  ⟨⟨c', lookup_setCandidate_self .., hcounts.addVote hadd⟩, htallied.voted, htallied.free⟩

theorem Tallied.countVote (hsettled : s.Settled tx V)
    (hfree : Undisturbed tx env) (henabled : env.instantSendEnabled)
    (hhash : vote.txHash = tx.hash) (ho : vote.outpoint ∈ prevouts (some tx)) :
    (s.countVote env vote).2.Tallied tx t₀ (V.add vote) ∧
      (s.countVote env vote).2.Settled tx (V.add vote) ∧
      (s.countVote env vote).2.mapTxLockVotes = s.mapTxLockVotes := by
  have hmarks : markConflicting vote ((s.mapVotedOutpoints.lookup vote.outpoint).getD []) s = s :=
    markConflicting_of_same fun k hk => (htallied.voted _ ho k hk).trans hhash.symm
  have hrecorded := htallied.recordVoted vote.outpoint
  obtain ⟨c, hc, hcounts⟩ := hrecorded.candidate
  unfold CInstantSend.countVote
  dsimp only
  rw [hmarks, hhash, hc, bind_some]
  cases hadd : c.addVote vote with
  | none =>
    rw [hcounts.add_of_addVote_eq_none ho hadd]
    exact ⟨hrecorded, hsettled, rfl⟩
  | some c' =>
    refine (hrecorded.addVote hcounts hadd).settled hfree henabled
      (lookup_setCandidate_self ..) (hcounts.addVote hadd) fun hfew o' ho' hlocked => hfew ?_
    -- What is locked already had enough votes before.
    exact ((hsettled o' ho').mp hlocked).mono fun o m hm => Tally.mem_add.mpr (.inl hm)

theorem Tallied.processMessage (hsettled : s.Settled tx V) (hfree : Undisturbed tx env)
    {nVersion : ℤ} (htime : env.getTime ≤ t₀ + instantsendLockTimeoutSeconds)
    (hvalid : vote.isValid crypto env) (hhash : vote.txHash = tx.hash)
    (ho : vote.outpoint ∈ prevouts (some tx))
    (htaken : s.ignores crypto env nVersion vote = false) :
    (s.processMessage crypto env nVersion vote).Tallied tx t₀ (V.add vote) ∧
      (s.processMessage crypto env nVersion vote).Settled tx (V.add vote) ∧
      (s.processMessage crypto env nVersion vote).mapTxLockVotes =
        insertNew s.mapTxLockVotes (vote.getHash crypto) vote := by
  have henabled : env.instantSendEnabled := by
    cases hoff : env.instantSendEnabled with
    | true => rfl
    | false => simp [ignores, hoff] at htaken
  set t := s.storeVote crypto vote
  have hstored : t.Tallied tx t₀ V :=
    ⟨htallied.candidate, htallied.voted, htallied.free⟩
  have hsettled' : t.Settled tx V := hsettled
  obtain ⟨c, hc, hcounts⟩ := hstored.candidate
  have hcounted : t.processTxLockVote crypto env vote = t.countVote env vote := by
    unfold processTxLockVote
    rw [← hhash] at hc
    simp [hvalid, hc, hcounts.request, hcounts.isTimedOut_eq_false htime]
  unfold CInstantSend.processMessage
  rw [htaken, hcounted]
  exact hstored.countVote hsettled' hfree henabled hhash ho

end

/-! ## Votes after the request -/

/-- A valid vote for the transaction, on one of its inputs. -/
structure VoteFor (crypto : LockCrypto) (env : InstantSendEnv) (tx : CTransaction)
    (vote : CTxLockVote) : Prop where
  valid : vote.isValid crypto env
  txHash : vote.txHash = tx.hash
  outpoint : vote.outpoint ∈ prevouts (some tx)

def voteSteps (env : InstantSendEnv) (votes : List (ℤ × CTxLockVote)) : List InstantSendStep :=
  votes.map fun p => ⟨env.atTime p.1, .txLockVote minInstantsendProtoVersion p.2⟩

def Seen (crypto : LockCrypto) (all : List CTxLockVote) (V : Tally) (s : CInstantSend) : Prop :=
  ∀ v ∈ all, (s.mapTxLockVotes.lookup (v.getHash crypto)).isSome →
    v.outpointMasternode ∈ V v.outpoint

/-- Votes with one hash are by one masternode for one outpoint. -/
def HashesApart (crypto : LockCrypto) (all : List CTxLockVote) : Prop :=
  ∀ v ∈ all, ∀ w ∈ all, v.getHash crypto = w.getHash crypto →
    v.outpoint = w.outpoint ∧ v.outpointMasternode = w.outpointMasternode

variable {all : List CTxLockVote}

theorem Seen.add (hseen : s.Seen crypto all V)
    (hapart : HashesApart crypto all) (hvote : vote ∈ all) {vote' : CTxLockVote}
    (hvotes : t.mapTxLockVotes = insertNew s.mapTxLockVotes (vote.getHash crypto) vote') :
    t.Seen crypto all (V.add vote) := by
  intro v hv hsome
  rw [hvotes, lookup_insertNew] at hsome
  split_ifs at hsome with heq
  · obtain ⟨ho, hm⟩ := hapart v hv vote hvote heq
    exact Tally.mem_add.mpr (.inr ⟨ho, hm⟩)
  · exact Tally.mem_add.mpr (.inl (hseen v hv hsome))

variable {nVersion : ℤ}

theorem seen_of_ignores (hversion : minInstantsendProtoVersion ≤ nVersion)
    (htakes : env.takesVotes) (hignores : s.ignores crypto env nVersion vote) :
    (s.mapTxLockVotes.lookup (vote.getHash crypto)).isSome := by
  unfold ignores at hignores
  unfold InstantSendEnv.takesVotes at htakes
  simp only [Bool.and_eq_true, Bool.not_eq_true'] at htakes
  simpa [htakes, not_lt.mpr hversion] using hignores

theorem takesVotes_of_not_ignores
    (hignores : s.ignores crypto env nVersion vote = false) : env.takesVotes := by
  unfold ignores at hignores
  simp only [Bool.or_eq_false_iff, Bool.not_eq_false'] at hignores
  obtain ⟨⟨⟨⟨hlite, henabled⟩, -⟩, hsynced⟩, -⟩ := hignores
  simp [InstantSendEnv.takesVotes, hlite, henabled, hsynced]

theorem Tallied.voteStep (htallied : s.Tallied tx t₀ V) (hsettled : s.Settled tx V)
    (hfree : Undisturbed tx env) (hapart : HashesApart crypto all)
    {time : ℤ} (htime : time ≤ t₀ + instantsendLockTimeoutSeconds)
    (hvote : VoteFor crypto env tx vote) (hall : vote ∈ all) :
    ∃ W, (s.next crypto
        ⟨env.atTime time, .txLockVote minInstantsendProtoVersion vote⟩).Tallied tx t₀ W ∧
      (s.next crypto
        ⟨env.atTime time, .txLockVote minInstantsendProtoVersion vote⟩).Settled tx W ∧
      (∀ o, V o ⊆ W o) ∧ (∀ o, W o ⊆ V.add vote o) ∧
      (env.takesVotes = false → ∀ o, W o ⊆ V o) ∧
      (env.takesVotes → s.Seen crypto all V → vote.outpointMasternode ∈ W vote.outpoint ∧
          (s.next crypto ⟨env.atTime time, .txLockVote minInstantsendProtoVersion vote⟩).Seen
            crypto all W) := by
  set later := env.atTime time
  have hadd : ∀ o, V o ⊆ V.add vote o := fun o m hm => Tally.mem_add.mpr (.inl hm)
  have hnext : s.next crypto ⟨env.atTime time, .txLockVote minInstantsendProtoVersion vote⟩ =
    s.processMessage crypto later minInstantsendProtoVersion
      (vote.received later) := rfl
  rw [hnext]
  cases htaken : s.ignores crypto later minInstantsendProtoVersion
      (vote.received later) with
  | true =>
    have hsame : s.processMessage crypto later minInstantsendProtoVersion
        (vote.received later) = s := by
      rw [CInstantSend.processMessage, htaken]
      rfl
    rw [hsame]
    refine ⟨V, htallied, hsettled, fun o => subset_rfl, hadd, fun _ o => subset_rfl,
      fun htakes hseen => ?_⟩
    exact ⟨hseen vote hall (seen_of_ignores le_rfl htakes htaken), hseen⟩
  | false =>
    have hfree' : Undisturbed tx later := ⟨hfree.coins, hfree.pool⟩
    have hvalid : (vote.received later).isValid crypto later :=
      hvote.valid
    obtain ⟨htallied', hsettled', hstored⟩ := htallied.processMessage hsettled hfree' htime
      hvalid hvote.txHash hvote.outpoint htaken
    have htakes : later.takesVotes := takesVotes_of_not_ignores htaken
    exact ⟨V.add vote, htallied', hsettled', hadd, fun o => subset_rfl,
      fun hoff => absurd (htakes.symm.trans hoff) (by simp),
      fun _ hseen => ⟨Tally.mem_add.mpr (.inr ⟨rfl, rfl⟩), hseen.add hapart hall hstored⟩⟩

theorem Tallied.runSteps (htallied : s.Tallied tx t₀ V) (hsettled : s.Settled tx V)
    (hfree : Undisturbed tx env) (hapart : HashesApart crypto all) {votes : List (ℤ × CTxLockVote)}
    (htimes : ∀ p ∈ votes, p.1 ≤ t₀ + instantsendLockTimeoutSeconds)
    (hvotes : ∀ p ∈ votes, VoteFor crypto env tx p.2) (hall : ∀ p ∈ votes, p.2 ∈ all) :
    ∃ W, (runSteps crypto s (voteSteps env votes)).Tallied tx t₀ W ∧
      (runSteps crypto s (voteSteps env votes)).Settled tx W ∧ (∀ o, V o ⊆ W o) ∧
      (∀ o, W o ⊆ V o ∪ voters (votes.map (·.2)) o) ∧
      (env.takesVotes = false → ∀ o, W o ⊆ V o) ∧
      (env.takesVotes → s.Seen crypto all V → ∀ o, voters (votes.map (·.2)) o ⊆ W o) := by
  induction votes generalizing s V with
  | nil =>
    refine ⟨V, htallied, hsettled, fun o => subset_rfl, fun o => Finset.subset_union_left,
      fun _ o => subset_rfl, fun _ _ o m hm => ?_⟩
    simp [mem_voters] at hm
  | cons p votes ih =>
    obtain ⟨time, vote⟩ := p
    obtain ⟨W₁, htallied₁, hsettled₁, hsub₁, hupper₁, hoff₁, hlower₁⟩ :=
      htallied.voteStep hsettled hfree hapart (htimes _ mem_cons_self)
        (hvotes _ mem_cons_self) (hall _ mem_cons_self)
    obtain ⟨W, htallied', hsettled', hsub, hupper, hoff, hlower⟩ := ih htallied₁ hsettled₁
      (fun p hp => htimes p (mem_cons_of_mem _ hp)) (fun p hp => hvotes p (mem_cons_of_mem _ hp))
      (fun p hp => hall p (mem_cons_of_mem _ hp))
    refine ⟨W, htallied', hsettled', fun o => (hsub₁ o).trans (hsub o), fun o m hm => ?_,
      fun hnot o => (hoff hnot o).trans (hoff₁ hnot o), fun htakes hseen o m hm => ?_⟩
    · rw [Finset.mem_union, map_cons, mem_voters_cons]
      rcases Finset.mem_union.mp (hupper o hm) with hm | hm
      · rcases Tally.mem_add.mp (hupper₁ o hm) with hm | hm
        · exact .inl hm
        · exact .inr (.inl hm)
      · exact .inr (.inr hm)
    · obtain ⟨hvoted, hseen₁⟩ := hlower₁ htakes hseen
      rcases mem_voters_cons.mp hm with ⟨rfl, rfl⟩ | hm
      · exact hsub _ hvoted
      · exact hlower htakes hseen₁ o hm

end CInstantSend
end ImageCoin
