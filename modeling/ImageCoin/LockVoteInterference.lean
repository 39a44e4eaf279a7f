import ImageCoin.StepRuns
import ImageCoin.LockSafety

/-!
# Lock votes that are not valid

A vote is stored under its hash, which leaves the signature out, before it is checked.  Only
`mapTxLockVotes` changes with a vote that is not valid, and a call reads that map under its own
hash only.
-/

namespace ImageCoin

open MapEntries InsertedSteps CInstantSend

namespace CInstantSend

variable {crypto : LockCrypto} {env : InstantSendEnv} {s t : CInstantSend}
  {K : UInt256 → Prop} {request : CTxLockRequest}

def withVotes (s : CInstantSend) (votes : Map UInt256 CTxLockVote) : CInstantSend :=
  { s with mapTxLockVotes := votes }

/-- The managers differ in the stored votes only, and not under the hashes in `K`. -/
def Alike (K : UInt256 → Prop) (s t : CInstantSend) : Prop :=
  ∃ votes, t = s.withVotes votes ∧ ∀ k, K k → s.mapTxLockVotes.lookup k = votes.lookup k

theorem Alike.refl (s : CInstantSend) : Alike K s s :=
  ⟨s.mapTxLockVotes, rfl, fun _ _ => rfl⟩

theorem Alike.mono {K' : UInt256 → Prop} (halike : Alike K s t) (hsub : ∀ k, K' k → K k) :
    Alike K' s t := by
  obtain ⟨votes, rfl, hvotes⟩ := halike
  exact ⟨votes, rfl, fun k hk => hvotes k (hsub k hk)⟩

/-- A call that neither reads nor changes `mapTxLockVotes`. -/
def IgnoresVotes {α : Type} (f : CInstantSend → α × CInstantSend) : Prop :=
  ∀ s votes, f (s.withVotes votes) = ((f s).1, (f s).2.withVotes votes)

theorem Alike.ignored {α : Type} {f : CInstantSend → α × CInstantSend}
    (hf : IgnoresVotes f) (halike : Alike K s t) : (f s).1 = (f t).1 ∧ Alike K (f s).2 (f t).2 := by
  obtain ⟨votes, rfl, hvotes⟩ := halike
  have hsame : (f s).2.mapTxLockVotes = s.mapTxLockVotes :=
    congrArg (fun result => result.2.mapTxLockVotes) (hf s s.mapTxLockVotes)
  rw [hf s votes]
  exact ⟨rfl, votes, rfl, fun k hk => by rw [hsame]; exact hvotes k hk⟩

theorem ignores_createTxLockCandidate :
    IgnoresVotes fun s => s.createTxLockCandidate env request := by
  intro s votes
  unfold createTxLockCandidate
  dsimp only [withVotes]
  cases request.isValid env with
  | false => rfl
  | true =>
    cases s.mapTxLockCandidates.lookup request.getHash with
    | none => rfl
    | some c =>
      dsimp only [Bool.not_true]
      split_ifs <;> rfl

theorem ignores_trackOrphanVote (env : InstantSendEnv) (vote : CTxLockVote) :
    IgnoresVotes fun s => s.trackOrphanVote env vote := by
  intro s votes
  unfold trackOrphanVote getAverageMasternodeOrphanVoteTime
  dsimp only [withVotes]
  cases s.mapMasternodeOrphanVotes.lookup vote.outpointMasternode with
  | none => rfl
  | some time =>
    dsimp only
    generalize (if s.mapMasternodeOrphanVotes.entries.isEmpty then (0 : ℤ) else _) = average
    split_ifs <;> rfl

theorem ignores_storeOrphanVote (crypto : LockCrypto) (env : InstantSendEnv) (vote : CTxLockVote) :
    IgnoresVotes fun s => ((), s.storeOrphanVote crypto env vote) := by
  intro s votes
  unfold storeOrphanVote createEmptyTxLockCandidate
  dsimp only [withVotes]
  split_ifs <;> rfl

theorem markConflicting_withVotes (vote : CTxLockVote) (hashes : List UInt256)
    (s : CInstantSend) (votes : Map UInt256 CTxLockVote) :
    markConflicting vote hashes (s.withVotes votes) =
      (markConflicting vote hashes s).withVotes votes := by
  induction hashes generalizing s with
  | nil => rfl
  | cons hash hashes ih =>
    unfold markConflicting
    dsimp only
    have hsame : (s.withVotes votes).mapTxLockCandidates = s.mapTxLockCandidates := rfl
    rw [hsame]
    split_ifs
    · exact ih { s with
        mapTxLockCandidates :=
          adjust (adjust s.mapTxLockCandidates vote.txHash
              (·.markOutpointAsAttacked vote.outpoint))
            hash (·.markOutpointAsAttacked vote.outpoint) }
    · exact ih s

theorem ignores_lockTransactionInputs {c : CTxLockCandidate} :
    IgnoresVotes fun s => ((), s.lockTransactionInputs env c) := by
  intro s votes
  unfold lockTransactionInputs
  split_ifs <;> rfl

theorem removeExpiredLoop_withVotes (env : InstantSendEnv)
    (candidates : List (Sigma fun _ : UInt256 => CTxLockCandidate)) (s : CInstantSend)
    (votes : Map UInt256 CTxLockVote) :
    removeExpiredLoop env candidates (s.withVotes votes) =
      (removeExpiredLoop env candidates s).withVotes votes := by
  induction candidates generalizing s with
  | nil => rfl
  | cons e candidates ih =>
    unfold removeExpiredLoop
    have hsame : (s.withVotes votes).nCachedBlockHeight = s.nCachedBlockHeight := rfl
    rw [hsame]
    split_ifs
    · exact ih (s.removeCandidate e.1 e.2)
    · exact ih s

section
variable (halike : Alike K s t)
include halike

theorem Alike.removeOldVotes : Alike K (s.removeOldVotes env) (t.removeOldVotes env) := by
  obtain ⟨votes, rfl, hvotes⟩ := halike
  refine ⟨filterEntries votes (s.keepsVote env), rfl, fun k hk => ?_⟩
  have hfiltered : (s.removeOldVotes env).mapTxLockVotes =
    filterEntries s.mapTxLockVotes (s.keepsVote env) := rfl
  rw [hfiltered, lookup_filterEntries, lookup_filterEntries, hvotes k hk]

theorem Alike.checkAndRemove (env : InstantSendEnv) :
    Alike K (s.checkAndRemove env) (t.checkAndRemove env) := by
  have hexpired : IgnoresVotes fun s => ((), s.removeExpiredCandidates env) :=
    fun s votes => congrArg (Prod.mk ()) (removeExpiredLoop_withVotes env _ s votes)
  unfold CInstantSend.checkAndRemove
  cases env.isMasternodeListSynced with
  | false => exact halike
  | true => exact (halike.ignored hexpired).2.removeOldVotes

theorem Alike.storeVote {vote : CTxLockVote} :
    Alike K (s.storeVote crypto vote) (t.storeVote crypto vote) := by
  obtain ⟨votes, rfl, hvotes⟩ := halike
  refine ⟨insertNew votes (vote.getHash crypto) vote, rfl, fun k hk => ?_⟩
  have hstored : (s.storeVote crypto vote).mapTxLockVotes =
    insertNew s.mapTxLockVotes (vote.getHash crypto) vote := rfl
  rw [hstored, lookup_insertNew, lookup_insertNew]
  split_ifs with heq
  · subst heq
    rw [hvotes _ hk]
  · exact hvotes k hk

omit halike in
theorem lookup_foldl_congr {α β : Type} [DecidableEq α] {f : Map α β → α → Map α β}
    (hf : ∀ (m m' : Map α β) (a k : α), m.lookup k = m'.lookup k →
    (f m a).lookup k = (f m' a).lookup k) {as : List α} {m m' : Map α β} {k : α}
    (h : m.lookup k = m'.lookup k) : (as.foldl f m).lookup k = (as.foldl f m').lookup k := by
  induction as generalizing m m' with
  | nil => exact h
  | cons a as ih => exact ih (hf m m' a k h)

theorem Alike.confirmAt {h : UInt256} {nHeight : ℤ} : Alike K (s.confirmAt crypto env h nHeight)
    (t.confirmAt crypto env h nHeight) := by
  obtain ⟨votes, rfl, hvotes⟩ := halike
  refine ⟨_, rfl, fun k hk => ?_⟩
  refine lookup_foldl_congr ?_ (lookup_foldl_congr ?_ (hvotes k hk))
  · intro m m' a k heq
    rw [lookup_insert_eq, lookup_insert_eq]
    split_ifs with hk
    · rw [← hk, heq]
    · exact heq
  · intro m m' a k heq
    rw [lookup_adjust, lookup_adjust]
    split_ifs with hk
    · rw [← hk, heq]
    · exact heq

theorem Alike.rejected {k k' : UInt256} {r r' : CTxLockRequest} : Alike K { s with
      mapLockRequestRejected := insertNew (insertNew s.mapLockRequestRejected k r) k' r' }
    { t with
      mapLockRequestRejected :=
          insertNew (insertNew t.mapLockRequestRejected k r) k' r' } := by
  obtain ⟨votes, rfl, hvotes⟩ := halike
  exact ⟨votes, rfl, hvotes⟩

theorem Alike.dropBoth {k k' : UInt256} {own other : CTxLockCandidate} :
    Alike K (s.dropBoth env k k' own other) (t.dropBoth env k k' own other) := by
  have hexpired : Alike K
      { s with
        mapTxLockCandidates :=
          adjust (adjust s.mapTxLockCandidates k (·.setConfirmedHeight 0)) k'
            (·.setConfirmedHeight 0) }
      { t with
        mapTxLockCandidates :=
          adjust (adjust t.mapTxLockCandidates k (·.setConfirmedHeight 0)) k'
            (·.setConfirmedHeight 0) } := by
    obtain ⟨votes, rfl, hvotes⟩ := halike
    exact ⟨votes, rfl, hvotes⟩
  exact (hexpired.checkAndRemove env).rejected

theorem Alike.resolveConflicts {c : CTxLockCandidate} :
    (s.resolveConflicts env c).1 = (t.resolveConflicts env c).1 ∧
      Alike K (s.resolveConflicts env c).2 (t.resolveConflicts env c).2 := by
  have hcandidates : t.mapTxLockCandidates = s.mapTxLockCandidates := by
    obtain ⟨votes, rfl, -⟩ := halike
    rfl
  have hconflict : t.findConflict env c.getHash c.txLockRequest.prevouts =
      s.findConflict env c.getHash c.txLockRequest.prevouts := by
    obtain ⟨votes, rfl, -⟩ := halike
    rfl
  unfold CInstantSend.resolveConflicts
  dsimp only
  rw [hconflict, hcandidates]
  cases c.isAllOutPointsReady with
  | false => exact ⟨rfl, halike⟩
  | true =>
    cases s.findConflict env c.getHash c.txLockRequest.prevouts with
    | none =>
      split_ifs <;> exact ⟨rfl, halike⟩
    | some conflict =>
      cases conflict with
      | mempool => exact ⟨rfl, halike⟩
      | completedLock hash =>
        dsimp only
        cases s.mapTxLockCandidates.lookup c.getHash with
        | none => exact ⟨rfl, halike⟩
        | some own =>
          cases s.mapTxLockCandidates.lookup hash with
          | none => exact ⟨rfl, halike⟩
          | some other => exact ⟨rfl, halike.dropBoth⟩

theorem Alike.tryToFinalizeLockCandidate (env : InstantSendEnv) (c : CTxLockCandidate) :
    Alike K (s.tryToFinalizeLockCandidate env c) (t.tryToFinalizeLockCandidate env c) := by
  have hlocked : t.isLockedInstantSendTransaction env c.getHash =
      s.isLockedInstantSendTransaction env c.getHash := by
    obtain ⟨votes, rfl, -⟩ := halike
    rfl
  unfold CInstantSend.tryToFinalizeLockCandidate
  rw [hlocked]
  split_ifs
  · exact halike
  · obtain ⟨hsame, hresolved⟩ := halike.resolveConflicts
    generalize s.resolveConflicts env c = result at hsame hresolved
    generalize t.resolveConflicts env c = result' at hsame hresolved
    obtain ⟨resolved, s'⟩ := result
    obtain ⟨resolved', t'⟩ := result'
    obtain rfl : resolved = resolved' := hsame
    cases resolved with
    | false => exact hresolved
    | true => exact (hresolved.ignored ignores_lockTransactionInputs).2
  · exact halike

theorem Alike.candidates_eq : t.mapTxLockCandidates = s.mapTxLockCandidates := by
  obtain ⟨votes, rfl, -⟩ := halike
  rfl

theorem Alike.processTxLockRequest :
    Alike K (s.processTxLockRequest env request).2 (t.processTxLockRequest env request).2 := by
  obtain ⟨hsame, hcreated⟩ := halike.ignored ignores_createTxLockCandidate
  unfold CInstantSend.processTxLockRequest
  generalize s.createTxLockCandidate env request = result at hsame hcreated
  generalize t.createTxLockCandidate env request = result' at hsame hcreated
  obtain ⟨created, s'⟩ := result
  obtain ⟨created', t'⟩ := result'
  obtain rfl : created = created' := hsame
  have hcandidates : t'.mapTxLockCandidates = s'.mapTxLockCandidates := hcreated.candidates_eq
  cases created with
  | false => exact hcreated
  | true =>
    dsimp only
    rw [hcandidates]
    cases s'.mapTxLockCandidates.lookup request.getHash with
    | none => exact hcreated
    | some c => exact hcreated.tryToFinalizeLockCandidate env c

/-! ## Votes -/

theorem Alike.setCandidate (k : UInt256) (c : CTxLockCandidate) :
    Alike K (s.setCandidate k c) (t.setCandidate k c) := by
  obtain ⟨votes, rfl, hvotes⟩ := halike
  exact ⟨votes, rfl, hvotes⟩

theorem Alike.recordVoted (o : COutPoint) (h : UInt256) :
    Alike K (s.recordVoted o h) (t.recordVoted o h) := by
  obtain ⟨votes, rfl, hvotes⟩ := halike
  exact ⟨votes, rfl, hvotes⟩

variable (tx : CTransaction)

theorem Alike.acceptLockRequest : Alike K (s.acceptLockRequest tx) (t.acceptLockRequest tx) := by
  obtain ⟨votes, rfl, hvotes⟩ := halike
  exact ⟨votes, rfl, hvotes⟩

theorem Alike.rejectLockRequest : Alike K (s.rejectLockRequest tx) (t.rejectLockRequest tx) := by
  obtain ⟨votes, rfl, hvotes⟩ := halike
  exact ⟨votes, rfl, hvotes⟩

theorem Alike.processOrphanVote (env : InstantSendEnv) (vote : CTxLockVote) :
    Alike K (s.processOrphanVote crypto env vote).2 (t.processOrphanVote crypto env vote).2 := by
  have horphans : t.mapTxLockVotesOrphan = s.mapTxLockVotesOrphan := by
    obtain ⟨votes, rfl, -⟩ := halike
    rfl
  have hstored := (halike.ignored (ignores_storeOrphanVote crypto env vote)).2
  have htracked := (halike.ignored (ignores_trackOrphanVote env vote)).2
  unfold CInstantSend.processOrphanVote
  rw [horphans]
  split_ifs
  · exact htracked
  · dsimp only at hstored ⊢
    generalize s.storeOrphanVote crypto env vote = s' at hstored
    generalize t.storeOrphanVote crypto env vote = t' at hstored
    have htracked' := (hstored.ignored (ignores_trackOrphanVote env vote)).2
    have hknown : t'.knownRequest vote.txHash = s'.knownRequest vote.txHash := by
      obtain ⟨votes, rfl, -⟩ := hstored
      rfl
    rw [hknown]
    cases s'.knownRequest vote.txHash with
    | none => exact htracked'
    | some request =>
      have henough : t'.isEnoughOrphanVotesForTx request = s'.isEnoughOrphanVotesForTx request := by
        obtain ⟨votes, rfl, -⟩ := hstored
        rfl
      dsimp only
      rw [henough]
      split_ifs
      · exact hstored.processTxLockRequest
      · exact htracked'

theorem Alike.countVote (env : InstantSendEnv) (vote : CTxLockVote) :
    Alike K (s.countVote env vote).2 (t.countVote env vote).2 := by
  have hvoted : t.mapVotedOutpoints = s.mapVotedOutpoints := by
    obtain ⟨votes, rfl, -⟩ := halike
    rfl
  unfold CInstantSend.countVote
  rw [hvoted]
  dsimp only
  generalize (s.mapVotedOutpoints.lookup vote.outpoint).getD [] = hashes
  have hmarks : IgnoresVotes fun s => ((), markConflicting vote hashes s) :=
    fun s votes => congrArg (Prod.mk ()) (markConflicting_withVotes vote hashes s votes)
  have hrecorded := (halike.ignored hmarks).2.recordVoted vote.outpoint vote.txHash
  generalize (markConflicting vote hashes s).recordVoted vote.outpoint vote.txHash = s' at hrecorded
  generalize (markConflicting vote hashes t).recordVoted vote.outpoint vote.txHash = t' at hrecorded
  rw [hrecorded.candidates_eq]
  cases (s'.mapTxLockCandidates.lookup vote.txHash).bind (·.addVote vote) with
  | none => exact hrecorded
  | some c => exact (hrecorded.setCandidate vote.txHash c).tryToFinalizeLockCandidate env c

theorem Alike.processTxLockVote {vote : CTxLockVote} :
    Alike K (s.processTxLockVote crypto env vote).2 (t.processTxLockVote crypto env vote).2 := by
  unfold CInstantSend.processTxLockVote
  rw [halike.candidates_eq]
  split_ifs
  · exact halike
  · cases s.mapTxLockCandidates.lookup vote.txHash with
    | none => exact halike.processOrphanVote env vote
    | some c =>
      dsimp only
      split_ifs
      · exact halike.processOrphanVote env vote
      · exact halike
      · exact halike.countVote env vote

theorem Alike.processMessage {nVersion : ℤ} {vote : CTxLockVote} (hk : K (vote.getHash crypto)) :
    Alike K (s.processMessage crypto env nVersion vote)
      (t.processMessage crypto env nVersion vote) := by
  have hignores : t.ignores crypto env nVersion vote = s.ignores crypto env nVersion vote := by
    obtain ⟨votes, rfl, hvotes⟩ := halike
    rw [ignores, ignores, hvotes _ hk]
    rfl
  unfold CInstantSend.processMessage
  rw [hignores]
  split_ifs
  · exact halike
  · exact halike.storeVote.processTxLockVote

theorem Alike.storeOwnVote (k : UInt256) (vote : CTxLockVote) :
    Alike K (s.storeOwnVote crypto k vote) (t.storeOwnVote crypto k vote) := by
  have hstored : Alike K (s.storeVote crypto vote) (t.storeVote crypto vote) :=
    halike.storeVote
  unfold CInstantSend.storeOwnVote
  dsimp only
  rw [hstored.candidates_eq]
  cases ((s.storeVote crypto vote).mapTxLockCandidates.lookup k).bind (·.addVote vote) with
  | none => exact hstored
  | some c => exact (hstored.setCandidate k c).recordVoted vote.outpoint vote.txHash

theorem Alike.voteLoop {k h : UInt256} {os : List COutPoint} :
    (voteLoop crypto env k h os s).2 = (voteLoop crypto env k h os t).2 ∧
      Alike K (voteLoop crypto env k h os s).1 (voteLoop crypto env k h os t).1 := by
  induction os generalizing s t with
  | nil => exact ⟨rfl, halike⟩
  | cons o os ih =>
    have hdecision : t.voteDecision crypto env h o = s.voteDecision crypto env h o := by
      obtain ⟨votes, rfl, -⟩ := halike
      rfl
    unfold voteLoop
    rw [hdecision]
    cases s.voteDecision crypto env h o with
    | stop => exact ⟨rfl, halike⟩
    | skip => exact ih halike
    | sign vote =>
      have hstored : Alike K (s.storeOwnVote crypto k vote) (t.storeOwnVote crypto k vote) :=
        halike.storeOwnVote k vote
      obtain ⟨hsigned, hrest⟩ := ih hstored
      exact ⟨congrArg (vote :: ·) hsigned, hrest⟩

theorem Alike.vote (env : InstantSendEnv) (h : UInt256) :
    Alike K (s.vote crypto env h).1 (t.vote crypto env h).1 := by
  unfold CInstantSend.vote
  rw [halike.candidates_eq]
  cases s.mapTxLockCandidates.lookup h with
  | none => exact halike
  | some c =>
    have hvoted : Alike K (s.voteCandidate crypto env h c).1
        (t.voteCandidate crypto env h c).1 := by
      have haccepted : t.mapLockRequestAccepted = s.mapLockRequestAccepted := by
        obtain ⟨votes, rfl, -⟩ := halike
        rfl
      unfold voteCandidate
      rw [haccepted]
      split_ifs
      · exact halike
      · exact halike
      · exact halike
      · exact halike.voteLoop.2
    dsimp only
    unfold finalizeNow
    rw [hvoted.candidates_eq]
    cases (s.voteCandidate crypto env h c).1.mapTxLockCandidates.lookup h with
    | none => exact hvoted
    | some c' => exact hvoted.tryToFinalizeLockCandidate env c'

theorem Alike.processVerdict {tx : CTransaction} (hk : K tx.hash) :
    Alike K (s.processVerdict crypto env tx).1 (t.processVerdict crypto env tx).1 := by
  have hhave : t.alreadyHave tx.hash = s.alreadyHave tx.hash := by
    obtain ⟨votes, rfl, hvotes⟩ := halike
    rw [alreadyHave, alreadyHave, hvotes _ hk]
    rfl
  have hverdict : t.acceptToMemoryPool env tx = s.acceptToMemoryPool env tx := by
    obtain ⟨votes, rfl, -⟩ := halike
    rfl
  unfold CInstantSend.processVerdict
  rw [hhave, hverdict]
  split_ifs
  · exact halike
  · cases s.acceptToMemoryPool env tx with
    | accepted => exact (halike.acceptLockRequest tx).vote env tx.hash
    | missingInputs => exact halike
    | refused => exact halike.rejectLockRequest tx

end

def readHash (crypto : LockCrypto) (a : InstantSendStep) : Option UInt256 :=
  match a.call with
  | .txLockVote _ vote => some (vote.getHash crypto)
  | .verdict tx => some tx.hash
  | _ => none

theorem Alike.next (halike : Alike K s t) {a : InstantSendStep}
    (hk : ∀ k, readHash crypto a = some k → K k) : Alike K (s.next crypto a) (t.next crypto a) := by
  obtain ⟨env, call⟩ := a
  cases call with
  | txLockVote nVersion vote =>
    exact halike.processMessage (hk _ rfl)
  | txLockRequest tx => exact halike.processTxLockRequest
  | verdict tx => exact halike.processVerdict (hk _ rfl)
  | updatedBlockTip nHeight =>
    obtain ⟨votes, rfl, hvotes⟩ := halike
    exact ⟨votes, rfl, hvotes⟩
  | checkAndRemove => exact halike.checkAndRemove env
  | syncTransaction tx pblock =>
    have hsync : Alike K (s.syncTransaction crypto env tx pblock)
        (t.syncTransaction crypto env tx pblock) := by
      unfold syncTransaction
      split_ifs
      · exact halike
      · cases pblock with
        | none => exact halike.confirmAt
        | some block =>
          dsimp only
          cases env.blockHeight block with
          | none => exact halike
          | some nHeight => exact halike.confirmAt
    exact hsync

/-! ## Inserted votes -/

/-- A vote message whose signature is bad or whose masternode may not vote. -/
def InvalidVoteStep (crypto : LockCrypto) (a : InstantSendStep) : Prop :=
  ∃ nVersion vote, a.call = .txLockVote nVersion vote ∧ vote.isValid crypto a.env = false

/-- The message is ignored at once, or no later call looks for a vote under its hash. -/
def Harmless (crypto : LockCrypto) (later : List InstantSendStep) (s : CInstantSend)
    (a : InstantSendStep) : Prop :=
  ∀ nVersion vote, a.call = .txLockVote nVersion vote →
    s.ignores crypto a.env nVersion vote ∨
      ∀ b ∈ later, readHash crypto b ≠ some (vote.getHash crypto)

def AlikeFor (crypto : LockCrypto) (later : List InstantSendStep) (s t : CInstantSend) : Prop :=
  Alike (fun k => ∃ b ∈ later, readHash crypto b = some k) s t

variable {a : InstantSendStep}

theorem next_of_invalid {nVersion : ℤ} {vote : CTxLockVote}
    (hcall : a.call = .txLockVote nVersion vote) (hinvalid : vote.isValid crypto a.env = false) :
    s.next crypto a = if s.ignores crypto a.env nVersion vote then s
      else s.storeVote crypto (vote.received a.env) := by
  have hreceived : (vote.received a.env).isValid crypto a.env = false := hinvalid
  have hignores : s.ignores crypto a.env nVersion (vote.received a.env) =
    s.ignores crypto a.env nVersion vote := rfl
  rw [next, step, hcall]
  dsimp only
  rw [processMessage, processTxLockVote, hreceived]
  rfl

variable {later : List InstantSendStep}

theorem AlikeFor.inserted (halike : AlikeFor crypto later s t) (hinvalid : InvalidVoteStep crypto a)
    (hharmless : Harmless crypto later s a) : AlikeFor crypto later (s.next crypto a) t := by
  obtain ⟨nVersion, vote, hcall, hinvalid⟩ := hinvalid
  rw [next_of_invalid hcall hinvalid]
  rcases hharmless nVersion vote hcall with hignored | hapart
  · rw [if_pos hignored]
    exact halike
  · split_ifs
    · exact halike
    · obtain ⟨votes, rfl, hvotes⟩ := halike
      refine ⟨votes, rfl, ?_⟩
      rintro k ⟨b, hb, hread⟩
      have hne : k ≠ (vote.received a.env).getHash crypto := by
        rintro rfl
        exact hapart b hb hread
      have hstored : (s.storeVote crypto (vote.received a.env)).mapTxLockVotes =
        insertNew s.mapTxLockVotes ((vote.received a.env).getHash crypto)
          (vote.received a.env) := rfl
      rw [hstored, lookup_insertNew, if_neg hne]
      exact hvotes k ⟨b, hb, hread⟩

theorem AlikeFor.original (halike : AlikeFor crypto (a :: later) s t) :
    AlikeFor crypto later (s.next crypto a) (t.next crypto a) := by
  refine (Alike.next halike fun k hk => ⟨a, List.mem_cons_self, hk⟩).mono ?_
  rintro k ⟨b, hb, hread⟩
  exact ⟨b, List.mem_cons_of_mem _ hb, hread⟩

def countedVotes (s : CInstantSend) (txHash : UInt256) (o : COutPoint) : List CTxLockVote :=
  (((s.mapTxLockCandidates.lookup txHash).bind (·.mapOutPointLocks.lookup o)).map
    COutPointLock.getVotes).getD []

/-- Inserted votes that are not valid and harmless to the later calls change neither the
counted votes nor the locked transactions. -/
theorem locks_of_harmless (crypto : LockCrypto) (steps : List (Bool × InstantSendStep))
    (hinvalid : ∀ a, (true, a) ∈ steps → InvalidVoteStep crypto a)
    (hharmless : Insertable (next crypto) (Harmless crypto) {} steps) :
    (∀ h o, (runAll (next crypto) {} steps).countedVotes h o =
      (runSteps crypto {} (originals steps)).countedVotes h o) ∧
    ∀ env h, (runAll (next crypto) {} steps).isLockedInstantSendTransaction env h =
      (runSteps crypto {} (originals steps)).isLockedInstantSendTransaction env h := by
  have hinserted : ∀ later s t a, AlikeFor crypto later s t → InvalidVoteStep crypto a ∧
    Harmless crypto later s a → AlikeFor crypto later (s.next crypto a) t :=
    fun _ _ _ _ halike hboth => halike.inserted hboth.1 hboth.2
  have halike : AlikeFor crypto [] (runAll (next crypto) {} steps)
      ((originals steps).foldl (next crypto) {}) :=
    Insertable.related hinserted (fun _ _ _ _ halike => halike.original) (Alike.refl {})
      (hharmless.and_of_mem hinvalid)
  obtain ⟨votes, heq, -⟩ := halike
  rw [runSteps, heq]
  exact ⟨fun _ _ => rfl, fun _ _ => rfl⟩

def badlySignedVote (m : UInt32) (hash : UInt256) (n : UInt32) : InstantSendStep :=
  ⟨lockingEnv, .txLockVote 70208 { voteOf m hash n with vchMasternodeSignature := [0] }⟩

def lockingRun : List InstantSendStep :=
  requesting (spending 101 [0]) :: voting [0, 1, 2, 3, 4, 5] 101 0

theorem locks_of_harmless_other_voter : (runSteps plainLockCrypto {} lockingRun).locksAll 101 ∧
      (runAll (next plainLockCrypto) {}
        ((true, badlySignedVote 7 101 0) :: lockingRun.map (false, ·))).countedVotes 101 ⟨5, 0⟩ =
          (runSteps plainLockCrypto {} (originals
            ((true, badlySignedVote 7 101 0) :: lockingRun.map (false, ·)))).countedVotes
              101 ⟨5, 0⟩ := by
  refine ⟨by decide +kernel, (locks_of_harmless plainLockCrypto
    ((true, badlySignedVote 7 101 0) :: lockingRun.map (false, ·)) ?_ ?_).1 101 ⟨5, 0⟩⟩
  · intro a ha
    obtain rfl : a = badlySignedVote 7 101 0 := by simpa using ha
    exact ⟨_, _, rfl, by decide +kernel⟩
  · refine ⟨?_, trivial⟩
    intro nVersion vote hcall
    obtain ⟨rfl, rfl⟩ : 70208 = nVersion ∧
        { voteOf 7 101 0 with vchMasternodeSignature := [0] } = vote :=
      InstantSendCall.txLockVote.inj hcall
    right
    decide +kernel

/-- The same vote with a bad signature comes first: the vote is not counted, and the
transaction is not locked. -/
theorem locks_after_badlySignedVote : InvalidVoteStep plainLockCrypto (badlySignedVote 5 101 0) ∧
      (runSteps plainLockCrypto {} lockingRun).isLockedInstantSendTransaction lockingEnv 101 =
        true ∧
      ((runSteps plainLockCrypto {} lockingRun).countedVotes 101 ⟨5, 0⟩).length = 6 ∧
      (runSteps plainLockCrypto {}
        (badlySignedVote 5 101 0 :: lockingRun)).isLockedInstantSendTransaction lockingEnv
          101 = false ∧
      ((runSteps plainLockCrypto {}
        (badlySignedVote 5 101 0 :: lockingRun)).countedVotes 101 ⟨5, 0⟩).length = 5 :=
  ⟨⟨_, _, rfl, by decide +kernel⟩, by decide +kernel, by decide +kernel, by decide +kernel,
    by decide +kernel⟩

end CInstantSend
end ImageCoin
