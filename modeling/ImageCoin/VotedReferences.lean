import ImageCoin.HonestVotes

/-!
# Voted outpoints and candidates

`Vote` looks up the candidate of every transaction that an outpoint was voted for and does not
check that there is one.
-/

namespace ImageCoin

open MapEntries Relation StepRuns CInstantSend
variable {vote : CTxLockVote} {txHash : UInt256} {os : List COutPoint} {c : CTxLockCandidate}

/-- The same node, but for what is read through an iterator that points past the end. -/
def InstantSendEnv.reading (env : InstantSendEnv) (b : Bool) : InstantSendEnv :=
  { env with readPastEnd := b }

namespace CInstantSend

variable {crypto : LockCrypto} {env : InstantSendEnv} {valid : CTxLockVote → Prop}
  {s t : CInstantSend} {h k : UInt256} {o : COutPoint}

/-- A transaction that is recorded for an outpoint has a candidate with the outpoint. -/
def Linked (s : CInstantSend) : Prop :=
  ∀ o, ∀ h ∈ s.votedFor o, s.HasOutpoint h o

theorem HasOutpoint.prep (hprep : Prep valid k s t) (ho : s.HasOutpoint h o) :
    t.HasOutpoint h o := by
  obtain ⟨c, hc, ho⟩ := ho
  obtain ⟨c', hc', hgrows⟩ := hprep.candidate_grows hc
  exact ⟨c', hc', hgrows.mem_keys ho⟩

theorem HasOutpoint.preps (hpreps : Preps valid k s t) (ho : s.HasOutpoint h o) :
    t.HasOutpoint h o := by
  induction hpreps with
  | refl => exact ho
  | tail _ hprep ih => exact ih.prep hprep

namespace Linked

variable (hlinked : s.Linked)
include hlinked

theorem preps (hpreps : Preps valid k s t)
    (hvoted : t.mapVotedOutpoints = s.mapVotedOutpoints) : t.Linked := by
  intro o h hh
  rw [votedFor, hvoted] at hh
  exact (hlinked o h hh).preps hpreps

theorem recordVoted (ho : s.HasOutpoint h o) : (s.recordVoted o h).Linked := by
  intro o' h' hh'
  rw [votedFor_recordVoted] at hh'
  split_ifs at hh' with heq
  · subst heq
    rcases List.mem_insert_iff.mp hh' with rfl | hold
    · exact ho
    · exact hlinked o' h' hold
  · exact hlinked o' h' hh'

theorem adjusted (k : UInt256) (nHeight : ℤ) (votes : Map UInt256 CTxLockVote) : Linked { s with
    mapTxLockCandidates := adjust s.mapTxLockCandidates k (·.setConfirmedHeight nHeight)
    mapTxLockVotes := votes } := by
  intro o h hh
  obtain ⟨c, hc, ho⟩ := hlinked o h hh
  unfold HasOutpoint
  simp only [lookup_adjust]
  by_cases heq : h = k
  · subst heq
    exact ⟨c.setConfirmedHeight nHeight, by simp [hc], ho⟩
  · exact ⟨c, by simp [heq, hc], ho⟩

theorem removal (hremoval : Removal env s t) : t.Linked := by
  intro o h hh
  unfold votedFor at hh
  cases hhashes : t.mapVotedOutpoints.lookup o with
  | none => simp [hhashes] at hh
  | some hashes =>
    obtain ⟨hbefore, hkept⟩ := (hremoval.voted o hashes).mp hhashes
    have hmem : h ∈ s.votedFor o := by
      rwa [votedFor, hbefore, ← hhashes]
    obtain ⟨c, hc, ho⟩ := hlinked o h hmem
    refine ⟨c, (hremoval.candidates h c).mpr ⟨hc, ?_⟩, ho⟩
    by_contra hexpired
    exact hkept ⟨h, c, hc, by simpa using hexpired, ho⟩

theorem checkAndRemove (env : InstantSendEnv) : (s.checkAndRemove env).Linked := by
  rcases checkAndRemove_cases with hsame | hremoval
  · rwa [hsame]
  · exact hlinked.removal hremoval

theorem tryToFinalizeLockCandidate (env : InstantSendEnv)
    (c : CTxLockCandidate) : (s.tryToFinalizeLockCandidate env c).Linked := by
  have hfinal := finalized s env c
  generalize s.tryToFinalizeLockCandidate env c = t at hfinal
  cases hfinal with
  | same => exact hlinked
  | locked hready hfree => exact hlinked
  | dropped hready ho hlocked hne hown hother =>
    exact ((hlinked.adjusted _ 0 s.mapTxLockVotes).adjusted _ 0 s.mapTxLockVotes).checkAndRemove env

theorem processTxLockRequest
    {request : CTxLockRequest} : (s.processTxLockRequest env request).2.Linked := by
  have hcreated : (s.createTxLockCandidate env request).2.Linked := by
    cases request with
    | none => exact hlinked
    | some tx =>
      refine hlinked.preps (createTxLockCandidate_spec (fun _ => True)).1 ?_
      unfold createTxLockCandidate
      dsimp only
      split_ifs
      · rfl
      · split
        · rfl
        · split_ifs <;> rfl
  unfold CInstantSend.processTxLockRequest
  generalize s.createTxLockCandidate env request = result at hcreated
  obtain ⟨created, t⟩ := result
  cases created with
  | false => exact hcreated
  | true =>
    dsimp only
    split
    · exact hcreated.tryToFinalizeLockCandidate env _
    · exact hcreated

theorem trackOrphanVote : (s.trackOrphanVote env vote).2.Linked := by
  have hpreps : Preps (fun _ => True) vote.txHash s (s.trackOrphanVote env vote).2 :=
    preps_trackOrphanVote env s vote
  refine hlinked.preps hpreps ?_
  unfold CInstantSend.trackOrphanVote
  split
  · rfl
  · split_ifs <;> rfl

theorem storeOrphanVote (crypto : LockCrypto) (env : InstantSendEnv)
    (vote : CTxLockVote) : (s.storeOrphanVote crypto env vote).Linked := by
  refine hlinked.preps (preps_storeOrphanVote (fun _ => True) crypto env s vote) ?_
  unfold CInstantSend.storeOrphanVote createEmptyTxLockCandidate
  split_ifs <;> rfl

theorem processOrphanVote (crypto : LockCrypto) (env : InstantSendEnv)
    (vote : CTxLockVote) : (s.processOrphanVote crypto env vote).2.Linked := by
  have hstored := hlinked.storeOrphanVote crypto env vote
  unfold CInstantSend.processOrphanVote
  split
  · exact hlinked.trackOrphanVote
  · dsimp only
    split
    · exact hstored.trackOrphanVote
    · split
      · exact hstored.processTxLockRequest
      · exact hstored.trackOrphanVote

end Linked

theorem mapVotedOutpoints_markConflicting (vote : CTxLockVote) (hashes : List UInt256)
    (s : CInstantSend) :
    (markConflicting vote hashes s).mapVotedOutpoints = s.mapVotedOutpoints := by
  induction hashes generalizing s with
  | nil => rfl
  | cons hash hashes ih =>
    unfold markConflicting
    dsimp only
    split
    · rw [ih]
    · exact ih s

namespace Linked

variable (hlinked : s.Linked)
include hlinked

theorem countVote (env : InstantSendEnv)
    (ho : s.HasOutpoint vote.txHash vote.outpoint) : (s.countVote env vote).2.Linked := by
  unfold CInstantSend.countVote
  dsimp only
  generalize (s.mapVotedOutpoints.lookup vote.outpoint).getD [] = hashes
  have hmarked : Preps (fun _ => True) vote.txHash s (markConflicting vote hashes s) :=
    preps_markConflicting vote hashes s
  have hrecorded := (hlinked.preps hmarked
    (mapVotedOutpoints_markConflicting vote hashes s)).recordVoted (ho.preps hmarked)
  split
  · exact hrecorded
  · rename_i c hadd
    obtain ⟨c₀, hc₀, hadd₀⟩ := Option.bind_eq_some_iff.mp hadd
    have hvoted : Preps (fun _ => True) vote.txHash _ _ := preps_setCandidate hc₀
      (.voted ⟨trivial, mem_votedFor_recordVoted⟩ rfl hadd₀)
    exact (hrecorded.preps hvoted rfl).tryToFinalizeLockCandidate env c

theorem storeOwnVote (crypto : LockCrypto) (vote : CTxLockVote) :
    (s.storeOwnVote crypto vote.txHash vote).Linked := by
  unfold CInstantSend.storeOwnVote
  dsimp only
  split
  · exact hlinked
  · rename_i c hadd
    obtain ⟨c₀, hc₀, hadd₀⟩ := Option.bind_eq_some_iff.mp hadd
    obtain ⟨lock, hlock, -⟩ := CTxLockCandidate.addVote_eq_some hadd₀
    have ho : (s.storeVote crypto vote).HasOutpoint vote.txHash vote.outpoint :=
      ⟨c₀, hc₀, (mem_keys_iff _ _).mpr ⟨lock, hlock⟩⟩
    have hrecorded := recordVoted (s := s.storeVote crypto vote) hlinked ho
    have hvoted : Preps (fun _ => True) vote.txHash
        ((s.storeVote crypto vote).recordVoted vote.outpoint vote.txHash) _ :=
      preps_setCandidate hc₀ (.voted ⟨trivial, mem_votedFor_recordVoted⟩ rfl hadd₀)
    exact hrecorded.preps hvoted rfl

theorem voteLoop : (voteLoop crypto env txHash txHash os s).1.Linked := by
  induction os generalizing s with
  | nil => exact hlinked
  | cons o os ih =>
    unfold voteLoop
    cases hdecision : s.voteDecision crypto env txHash o with
    | stop => exact hlinked
    | skip => exact ih hlinked
    | sign vote =>
      obtain ⟨rfl, -⟩ := voteDecision_eq_sign hdecision
      exact ih (hlinked.storeOwnVote crypto vote)

theorem voteCandidate (crypto : LockCrypto) (env : InstantSendEnv)
    (hkey : c.mapOutPointLocks.keys ≠ [] → c.getHash = h) :
    (s.voteCandidate crypto env h c).1.Linked := by
  unfold CInstantSend.voteCandidate
  split_ifs
  · exact hlinked
  · exact hlinked
  · exact hlinked
  · by_cases hempty : c.mapOutPointLocks.keys = []
    · rw [hempty]
      exact hlinked
    · rw [hkey hempty]
      exact hlinked.voteLoop

theorem processVerdict (hkeyed : s.Keyed) {tx : CTransaction} :
    (s.processVerdict crypto env tx).1.Linked := by
  unfold CInstantSend.processVerdict
  split
  · exact hlinked
  · split
    · unfold vote
      split
      · exact hlinked
      · rename_i c hc
        have hvoted : ((s.acceptLockRequest tx).voteCandidate crypto env tx.hash c).1.Linked :=
          voteCandidate (s := s.acceptLockRequest tx) hlinked crypto env
            (hkeyed.candidates tx.hash c hc)
        dsimp only
        unfold finalizeNow
        split
        · exact hvoted.tryToFinalizeLockCandidate env _
        · exact hvoted
    · exact hlinked
    · exact hlinked

end Linked

/-- A vote that is counted is on an outpoint that the candidate has a lock for. -/
def VotesOnLock (s : CInstantSend) (a : InstantSendStep) : Prop :=
  match a.call with
  | .txLockVote _ vote =>
    ((s.mapTxLockCandidates.lookup vote.txHash).all fun c =>
      c.txLockRequest.isNone || c.isTimedOut a.env ||
        (c.mapOutPointLocks.lookup vote.outpoint).isSome)
  | _ => True

instance (s : CInstantSend) (a : InstantSendStep) : Decidable (s.VotesOnLock a) :=
  match a with
  | ⟨env, .txLockVote _ vote⟩ =>
    inferInstanceAs (Decidable (((s.mapTxLockCandidates.lookup vote.txHash).all fun c =>
      c.txLockRequest.isNone || c.isTimedOut env ||
        (c.mapOutPointLocks.lookup vote.outpoint).isSome)))
  | ⟨_, .txLockRequest _⟩ => .isTrue trivial
  | ⟨_, .verdict _⟩ => .isTrue trivial
  | ⟨_, .updatedBlockTip _⟩ => .isTrue trivial
  | ⟨_, .syncTransaction ..⟩ => .isTrue trivial
  | ⟨_, .checkAndRemove⟩ => .isTrue trivial

namespace Linked

theorem processMessage (hlinked : s.Linked) {nVersion : ℤ}
    (honLock : s.VotesOnLock ⟨env, .txLockVote nVersion vote⟩) :
    (s.processMessage crypto env nVersion (vote.received env)).Linked := by
  have hstored : (s.storeVote crypto (vote.received env)).Linked := hlinked
  unfold CInstantSend.processMessage processTxLockVote
  split
  · exact hlinked
  · split
    · exact hstored
    · split
      · exact hstored.processOrphanVote crypto env _
      · rename_i c hc
        split_ifs with hempty htimedOut
        · exact hstored.processOrphanVote crypto env _
        · exact hstored
        · refine hstored.countVote env ⟨c, hc, ?_⟩
          have hc' : s.mapTxLockCandidates.lookup vote.txHash = some c := hc
          have hsome : (c.mapOutPointLocks.lookup vote.outpoint).isSome := by
            simpa [VotesOnLock, hc', hempty, htimedOut] using honLock
          exact (mem_keys_iff _ _).mpr (Option.isSome_iff_exists.mp hsome)

theorem next (hlinked : s.Linked) (hkeyed : s.Keyed)
    {a : InstantSendStep} (honLock : s.VotesOnLock a) : (s.next crypto a).Linked := by
  obtain ⟨env, call⟩ := a
  cases call with
  | txLockVote nVersion vote => exact hlinked.processMessage honLock
  | txLockRequest tx => exact hlinked.processTxLockRequest
  | verdict tx => exact hlinked.processVerdict hkeyed
  | updatedBlockTip nHeight => exact hlinked
  | syncTransaction tx pblock =>
    change (s.syncTransaction crypto env tx pblock).Linked
    unfold syncTransaction
    split
    · exact hlinked
    · split
      · exact hlinked.adjusted _ _ _
      · split
        · exact hlinked
        · exact hlinked.adjusted _ _ _
  | checkAndRemove => exact hlinked.checkAndRemove env

end Linked

namespace Linked

variable (b : Bool)

theorem alreadyVoted_reading (hlinked : s.Linked) :
    s.alreadyVoted (env.reading b) o = s.alreadyVoted env o := by
  unfold alreadyVoted
  cases hhashes : s.mapVotedOutpoints.lookup o with
  | none => rfl
  | some hashes =>
    rw [Bool.eq_iff_iff, List.any_eq_true, List.any_eq_true]
    refine exists_congr fun hash => and_congr_right fun hhash => ?_
    obtain ⟨c, hc, -⟩ := hlinked o hash (by rwa [votedFor, hhashes])
    rw [hc]
    exact Iff.rfl

theorem voteDecision_reading (hlinked : s.Linked) :
    s.voteDecision crypto (env.reading b) txHash o = s.voteDecision crypto env txHash o := by
  unfold voteDecision
  rw [hlinked.alreadyVoted_reading b]
  rfl

theorem voteLoop_reading (hlinked : s.Linked) :
    CInstantSend.voteLoop crypto (env.reading b) txHash txHash os s =
      CInstantSend.voteLoop crypto env txHash txHash os s := by
  induction os generalizing s with
  | nil => rfl
  | cons o os ih =>
    unfold CInstantSend.voteLoop
    rw [hlinked.voteDecision_reading b]
    cases hdecision : s.voteDecision crypto env txHash o with
    | stop => rfl
    | skip => exact ih hlinked
    | sign vote =>
      obtain ⟨rfl, -⟩ := voteDecision_eq_sign hdecision
      simp [ih (hlinked.storeOwnVote crypto vote)]

theorem voteCandidate_reading (hlinked : s.Linked)
    (hkey : c.mapOutPointLocks.keys ≠ [] → c.getHash = h) :
    s.voteCandidate crypto (env.reading b) h c = s.voteCandidate crypto env h c := by
  unfold CInstantSend.voteCandidate
  by_cases hempty : c.mapOutPointLocks.keys = []
  · rw [hempty]
    rfl
  · rw [hkey hempty, hlinked.voteLoop_reading b]
    rfl

end Linked

/-- Every transaction that is recorded for an outpoint has a candidate, so `Vote` does not
depend on what is read past the end. -/
theorem votedFor_mem_candidates (crypto : LockCrypto) (steps : List InstantSendStep)
    (honLock : Along (next crypto) VotesOnLock {} steps) :
    (∀ o, ∀ hash ∈ (runSteps crypto {} steps).votedFor o,
      hash ∈ (runSteps crypto {} steps).mapTxLockCandidates.keys) ∧
    ∀ tx c, (runSteps crypto {} steps).mapTxLockCandidates.lookup tx.hash = some c →
      ∀ env b, ((runSteps crypto {} steps).acceptLockRequest tx).voteCandidate crypto
          (env.reading b) tx.hash c =
        ((runSteps crypto {} steps).acceptLockRequest tx).voteCandidate crypto env tx.hash c := by
  have hinv : (runSteps crypto {} steps).Linked ∧
      LockInv (fun _ => True) (runSteps crypto {} steps) := by
    refine Along.foldl (P := fun s => s.Linked ∧ LockInv (fun _ => True) s) ?_
      ⟨fun o h hh => absurd hh List.not_mem_nil, .empty⟩ honLock
    exact fun s a hs honLock => ⟨hs.1.next hs.2.keyed honLock, hs.2.next fun _ _ => trivial⟩
  generalize runSteps crypto {} steps = s at hinv
  obtain ⟨hlinked, hlocks⟩ := hinv
  constructor
  · intro o hash hhash
    obtain ⟨c, hc, -⟩ := hlinked o hash hhash
    exact (mem_keys_iff _ _).mpr ⟨c, hc⟩
  · intro tx c hc env b
    have haccepted : (s.acceptLockRequest tx).Linked := hlinked
    exact haccepted.voteCandidate_reading b (hlocks.keyed.candidates tx.hash c hc)

/-- A vote for a transaction that does not spend the outpoint is recorded, and outlives
the candidate. -/
def strayVoteRun : List InstantSendStep :=
  requesting (spending 101 [0]) :: (voting [0] 101 1 ++
      [⟨lockingEnv, .syncTransaction (spending 101 [0]) (some 7)⟩,
        ⟨lockingEnv, .updatedBlockTip 125⟩, ⟨lockingEnv, .checkAndRemove⟩])

theorem votedFor_strayVote : 101 ∈ (runSteps plainLockCrypto {} strayVoteRun).votedFor ⟨5, 1⟩ ∧
      101 ∉ (runSteps plainLockCrypto {} strayVoteRun).mapTxLockCandidates.keys := by
  decide +kernel

theorem votedFor_mem_candidates_erased :
    101 ∈ (runSteps plainLockCrypto {} erasedRun).votedFor ⟨5, 1⟩ ∧
      101 ∈ (runSteps plainLockCrypto {} erasedRun).mapTxLockCandidates.keys := by
  have hmem : 101 ∈ (runSteps plainLockCrypto {} erasedRun).votedFor ⟨5, 1⟩ := by
    decide +kernel
  exact ⟨hmem, (votedFor_mem_candidates plainLockCrypto erasedRun (by decide +kernel)).1
    ⟨5, 1⟩ 101 hmem⟩

end CInstantSend
end ImageCoin
