import ImageCoin.VotedReferences

/-!
# Requests of lock candidates

An early vote creates a candidate without a request.
-/

namespace ImageCoin

open MapEntries StepRuns CTxLockCandidate Option
variable {c : CTxLockCandidate}

namespace CTxLockCandidate

variable {c c' : CTxLockCandidate}

def HasInputs (c : CTxLockCandidate) : Prop :=
  ∀ o ∈ c.txLockRequest.prevouts, o ∈ c.mapOutPointLocks.keys

theorem hasInputs_of_isNone (hempty : c.txLockRequest = none) : c.HasInputs := by
  intro o ho
  rw [hempty] at ho
  exact absurd ho List.not_mem_nil

theorem hasInputs_addOutPointLocks : (c.addOutPointLocks c.txLockRequest.prevouts).HasInputs := by
  intro o ho
  rw [txLockRequest_addOutPointLocks] at ho
  rw [mem_keys_iff, lookup_addOutPointLocks, if_pos ho]
  exact ⟨_, rfl⟩

theorem HasInputs.grows (hinputs : c.HasInputs) (hgrows : c.Grows c')
    (hrequest : c'.txLockRequest = c.txLockRequest) : c'.HasInputs := by
  intro o ho
  rw [hrequest] at ho
  exact hgrows.mem_keys (hinputs o ho)

theorem HasInputs.setConfirmedHeight (nHeight : ℤ) (c : CTxLockCandidate)
    (hinputs : c.HasInputs) : (c.setConfirmedHeight nHeight).HasInputs :=
  hinputs

end CTxLockCandidate

namespace CInstantSend

variable {crypto : LockCrypto} {env : InstantSendEnv} {s t : CInstantSend} {k : UInt256}

/-- No candidate lacks an input of its request. -/
def Filled (s : CInstantSend) : Prop :=
  ∀ h c, s.mapTxLockCandidates.lookup h = some c → c.HasInputs

namespace Filled

variable (hfilled : s.Filled)
include hfilled

theorem setCandidate (hinputs : c.HasInputs) : (s.setCandidate k c).Filled := by
  intro h c' hc'
  rw [lookup_setCandidate] at hc'
  split_ifs at hc' with heq
  · obtain rfl := some.inj hc'
    exact hinputs
  · exact hfilled h c' hc'

theorem congr (hsame : t.mapTxLockCandidates = s.mapTxLockCandidates) : t.Filled := by
  intro h c hc
  rw [hsame] at hc
  exact hfilled h c hc

theorem adjusted {f : CTxLockCandidate → CTxLockCandidate} (hf : ∀ c, c.HasInputs → (f c).HasInputs)
    (hcandidates : t.mapTxLockCandidates = adjust s.mapTxLockCandidates k f) :
    t.Filled := by
  intro h c hc
  rw [hcandidates, lookup_adjust] at hc
  split_ifs at hc with heq
  · obtain ⟨c₀, hc₀, rfl⟩ := map_eq_some_iff.mp hc
    exact hf c₀ (hfilled k c₀ hc₀)
  · exact hfilled h c hc

theorem checkAndRemove (env : InstantSendEnv) : (s.checkAndRemove env).Filled := by
  rcases checkAndRemove_cases with hsame | hremoval
  · rwa [hsame]
  · exact fun h c hc => hfilled h c ((hremoval.candidates h c).mp hc).1

theorem tryToFinalizeLockCandidate : (s.tryToFinalizeLockCandidate env c).Filled := by
  have hfinal := finalized s env c
  generalize s.tryToFinalizeLockCandidate env c = t at hfinal
  cases hfinal with
  | same => exact hfilled
  | locked hready hfree => exact hfilled
  | @dropped o hash own other hready ho hlocked hne hown hother =>
    have hown' : Filled { s with
        mapTxLockCandidates :=
          adjust s.mapTxLockCandidates c.getHash (·.setConfirmedHeight 0) } :=
      hfilled.adjusted (CTxLockCandidate.HasInputs.setConfirmedHeight 0) rfl
    have hboth : Filled { s with
        mapTxLockCandidates :=
          adjust (adjust s.mapTxLockCandidates c.getHash (·.setConfirmedHeight 0))
            hash (·.setConfirmedHeight 0) } :=
      hown'.adjusted (CTxLockCandidate.HasInputs.setConfirmedHeight 0) rfl
    exact (hboth.checkAndRemove env).congr rfl

end Filled

/-- A valid request that comes to an empty candidate finds that it has not timed out. -/
def inTime (s : CInstantSend) (env : InstantSendEnv) (request : CTxLockRequest) : Bool :=
  !request.isValid env || (s.mapTxLockCandidates.lookup request.getHash).all fun c =>
    c.txLockRequest.isSome || !c.isTimedOut env

theorem createTxLockCandidate_eq_false_iff (s : CInstantSend) (env : InstantSendEnv)
    (request : CTxLockRequest) :
    ((s.createTxLockCandidate env request).1 = false →
      (s.createTxLockCandidate env request).2.mapTxLockCandidates = s.mapTxLockCandidates) ↔
        s.inTime env request := by
  unfold createTxLockCandidate inTime
  cases hvalid : request.isValid env with
  | false => simp
  | true =>
    simp only [Bool.not_true, Bool.false_eq_true, if_false]
    cases hc : s.mapTxLockCandidates.lookup request.getHash with
    | none => simp
    | some c =>
      dsimp only
      cases hempty : c.txLockRequest with
      | some tx => simp [hempty]
      | none =>
        have hsame : isTimedOut { c with txLockRequest := request } env = c.isTimedOut env := rfl
        rw [hsame]
        cases htimedOut : c.isTimedOut env with
        | false => simp [htimedOut]
        | true =>
          -- The request is stored, and an empty request is never valid.
          have hne : request ≠ none := by
            rintro rfl
            simp [CTxLockRequest.isValid] at hvalid
          simp only [isNone_none, if_true, forall_const, all_some, hempty, isSome_none, htimedOut,
            Bool.not_true, Bool.or_false, Bool.false_eq_true, iff_false]
          intro hsame
          have hlookup := lookup_setCandidate_self s request.getHash
            { c with txLockRequest := request }
          rw [hsame, hc] at hlookup
          have hrequest := congrArg txLockRequest (some.inj hlookup)
          exact hne (hrequest.symm.trans hempty)

variable {request : CTxLockRequest}

theorem Filled.processTxLockRequest (hfilled : s.Filled)
    (hinTime : s.inTime env request) : (s.processTxLockRequest env request).2.Filled := by
  have hcreated : (s.createTxLockCandidate env request).2.Filled := by
    unfold inTime at hinTime
    unfold createTxLockCandidate
    cases hvalid : request.isValid env with
    | false => exact hfilled
    | true =>
      simp only [Bool.not_true, Bool.false_eq_true, if_false]
      cases hc : s.mapTxLockCandidates.lookup request.getHash with
      | none => exact hfilled.setCandidate hasInputs_addOutPointLocks
      | some c =>
        dsimp only
        split_ifs with hempty htimedOut
        · -- This is where the request would be stored too late.
          have hlate : c.isTimedOut env := htimedOut
          rw [isNone_iff_eq_none] at hempty
          simp [hvalid, hc, hempty, hlate] at hinTime
        · exact hfilled.setCandidate hasInputs_addOutPointLocks
        · exact hfilled
  unfold CInstantSend.processTxLockRequest
  generalize s.createTxLockCandidate env request = result at hcreated
  obtain ⟨created, t⟩ := result
  cases created with
  | false => exact hcreated
  | true =>
    dsimp only
    split
    · exact hcreated.tryToFinalizeLockCandidate
    · exact hcreated

theorem mapTxLockCandidates_trackOrphanVote {vote : CTxLockVote} :
    (s.trackOrphanVote env vote).2.mapTxLockCandidates = s.mapTxLockCandidates := by
  unfold trackOrphanVote
  split
  · rfl
  · split_ifs <;> rfl

theorem inTime_storeOrphanVote {vote : CTxLockVote} (hinTime : s.inTime env request) :
    (s.storeOrphanVote crypto env vote).inTime env request := by
  have hcandidates : (s.storeOrphanVote crypto env vote).mapTxLockCandidates =
      (s.createEmptyTxLockCandidate env vote.txHash).mapTxLockCandidates := rfl
  unfold inTime at hinTime ⊢
  rw [hcandidates, createEmptyTxLockCandidate]
  split_ifs with hsome
  · exact hinTime
  · rw [lookup_setCandidate]
    split_ifs with heq
    · simp [isTimedOut, instantsendLockTimeoutSeconds]
    · exact hinTime

namespace Filled

variable (hfilled : s.Filled)
include hfilled
variable (vote : CTxLockVote)

theorem storeOrphanVote : (s.storeOrphanVote crypto env vote).Filled := by
  have hcreated : (s.createEmptyTxLockCandidate env vote.txHash).Filled := by
    unfold createEmptyTxLockCandidate
    split_ifs
    · exact hfilled
    · exact hfilled.setCandidate (hasInputs_of_isNone rfl)
  exact hcreated.congr rfl

theorem trackOrphanVote : (s.trackOrphanVote env vote).2.Filled :=
  hfilled.congr mapTxLockCandidates_trackOrphanVote

theorem processOrphanVote {vote : CTxLockVote}
    (hinTime : ∀ request, s.knownRequest vote.txHash = some request → s.inTime env request) :
    (s.processOrphanVote crypto env vote).2.Filled := by
  have hstored : (s.storeOrphanVote crypto env vote).Filled := hfilled.storeOrphanVote vote
  unfold CInstantSend.processOrphanVote
  split
  · exact hfilled.trackOrphanVote vote
  · dsimp only
    rw [knownRequest_storeOrphanVote]
    cases hknown : s.knownRequest vote.txHash with
    | none => exact hstored.trackOrphanVote vote
    | some request =>
      dsimp only
      split
      · exact hstored.processTxLockRequest (inTime_storeOrphanVote (hinTime request hknown))
      · exact hstored.trackOrphanVote vote

theorem markConflicting (hashes : List UInt256) : (markConflicting vote hashes s).Filled := by
  induction hashes generalizing s with
  | nil => exact hfilled
  | cons hash hashes ih =>
    unfold CInstantSend.markConflicting
    dsimp only
    split
    · have hmark : ∀ c : CTxLockCandidate, c.HasInputs →
          (c.markOutpointAsAttacked vote.outpoint).HasInputs := fun c hinputs =>
        hinputs.grows c.grows_markOutpointAsAttacked rfl
      have hown : Filled { s with
          mapTxLockCandidates := adjust s.mapTxLockCandidates vote.txHash
            (·.markOutpointAsAttacked vote.outpoint) } := hfilled.adjusted hmark rfl
      exact ih (hown.adjusted hmark rfl)
    · exact ih hfilled

theorem addVote {c' : CTxLockCandidate} {vote : CTxLockVote}
    (hc : s.mapTxLockCandidates.lookup k = some c) (hadd : c.addVote vote = some c') :
    (s.setCandidate k c').Filled :=
  hfilled.setCandidate ((hfilled k c hc).grows (grows_addVote hadd) (fields_addVote hadd).1)

theorem countVote (env : InstantSendEnv) (vote : CTxLockVote) :
    (s.countVote env vote).2.Filled := by
  unfold CInstantSend.countVote
  dsimp only
  generalize (s.mapVotedOutpoints.lookup vote.outpoint).getD [] = hashes
  have hrecorded : ((CInstantSend.markConflicting vote hashes s).recordVoted vote.outpoint
      vote.txHash).Filled :=
    (hfilled.markConflicting vote hashes).congr rfl
  split
  · exact hrecorded
  · rename_i c hadd
    obtain ⟨c₀, hc₀, hadd₀⟩ := bind_eq_some_iff.mp hadd
    exact (hrecorded.addVote hc₀ hadd₀).tryToFinalizeLockCandidate

theorem voteLoop {key txHash : UInt256} {os : List COutPoint} :
    (voteLoop crypto env key txHash os s).1.Filled := by
  induction os generalizing s with
  | nil => exact hfilled
  | cons o os ih =>
    unfold CInstantSend.voteLoop
    split
    · exact hfilled
    · exact ih hfilled
    · rename_i vote hdecision
      refine ih ?_
      have hstored : (s.storeVote crypto vote).Filled := hfilled.congr rfl
      unfold storeOwnVote
      dsimp only
      split
      · exact hstored
      · rename_i c hadd
        obtain ⟨c₀, hc₀, hadd₀⟩ := bind_eq_some_iff.mp hadd
        exact (hstored.addVote hc₀ hadd₀).congr rfl

theorem processVerdict {tx : CTransaction} : (s.processVerdict crypto env tx).1.Filled := by
  unfold CInstantSend.processVerdict
  split
  · exact hfilled
  · split
    · unfold vote
      split
      · exact hfilled.congr rfl
      · rename_i c hc
        have hvoted : ((s.acceptLockRequest tx).voteCandidate crypto env tx.hash c).1.Filled := by
          have haccepted : (s.acceptLockRequest tx).Filled := hfilled.congr rfl
          unfold voteCandidate
          split_ifs
          · exact haccepted
          · exact haccepted
          · exact haccepted
          · exact haccepted.voteLoop
        dsimp only
        unfold finalizeNow
        split
        · exact hvoted.tryToFinalizeLockCandidate
        · exact hvoted
    · exact hfilled
    · exact hfilled.congr rfl

end Filled

/-- The requests that a call passes to `CreateTxLockCandidate` are in time. -/
def RequestsInTime (s : CInstantSend) (a : InstantSendStep) : Prop :=
  match a.call with
  | .txLockRequest tx => s.inTime a.env (some tx)
  | .txLockVote _ vote => (s.knownRequest vote.txHash).all (s.inTime a.env)
  | _ => True

instance (s : CInstantSend) (a : InstantSendStep) : Decidable (s.RequestsInTime a) :=
  match a with
  | ⟨env, .txLockRequest tx⟩ => inferInstanceAs (Decidable (s.inTime env (some tx)))
  | ⟨env, .txLockVote _ vote⟩ =>
    inferInstanceAs (Decidable ((s.knownRequest vote.txHash).all (s.inTime env)))
  | ⟨_, .verdict _⟩ => .isTrue trivial
  | ⟨_, .updatedBlockTip _⟩ => .isTrue trivial
  | ⟨_, .syncTransaction ..⟩ => .isTrue trivial
  | ⟨_, .checkAndRemove⟩ => .isTrue trivial

theorem Filled.processMessage (hfilled : s.Filled) {nVersion : ℤ} {vote : CTxLockVote}
    (hinTime : s.RequestsInTime ⟨env, .txLockVote nVersion vote⟩) :
    (s.processMessage crypto env nVersion (vote.received env)).Filled := by
  have hstored : (s.storeVote crypto (vote.received env)).Filled := hfilled.congr rfl
  have horphan : ((s.storeVote crypto (vote.received env)).processOrphanVote crypto env
      (vote.received env)).2.Filled := by
    refine hstored.processOrphanVote fun request hknown => ?_
    have hknown' : s.knownRequest vote.txHash = some request := hknown
    have hinTime' : s.inTime env request := by
      simpa [RequestsInTime, hknown'] using hinTime
    exact hinTime'
  unfold CInstantSend.processMessage processTxLockVote
  split
  · exact hfilled
  · split
    · exact hstored
    · split
      · exact horphan
      · split_ifs
        · exact horphan
        · exact hstored
        · exact hstored.countVote env _

theorem Filled.next (hfilled : s.Filled) {a : InstantSendStep}
    (hinTime : s.RequestsInTime a) : (s.next crypto a).Filled := by
  obtain ⟨env, call⟩ := a
  cases call with
  | txLockVote nVersion vote => exact hfilled.processMessage hinTime
  | txLockRequest tx => exact hfilled.processTxLockRequest hinTime
  | verdict tx => exact hfilled.processVerdict
  | updatedBlockTip nHeight => exact hfilled
  | syncTransaction tx pblock =>
    change (s.syncTransaction crypto env tx pblock).Filled
    unfold syncTransaction
    split
    · exact hfilled
    · split
      · exact hfilled.adjusted (CTxLockCandidate.HasInputs.setConfirmedHeight _) rfl
      · split
        · exact hfilled
        · exact hfilled.adjusted (CTxLockCandidate.HasInputs.setConfirmedHeight _) rfl
  | checkAndRemove => exact hfilled.checkAndRemove env

/-- Candidates are stored under the hash of their request and have exactly its inputs; a
call of `CreateTxLockCandidate` that fails leaves the candidates alone exactly if the
request is in time. -/
theorem candidates_wellFormed (crypto : LockCrypto) (steps : List InstantSendStep)
    (hinTime : Along (next crypto) RequestsInTime {} steps) :
    (∀ h c tx, (runSteps crypto {} steps).mapTxLockCandidates.lookup h = some c →
      c.txLockRequest = some tx → tx.hash = h ∧
          ∀ o, o ∈ c.mapOutPointLocks.keys ↔ o ∈ tx.vin.map (·.prevout)) ∧
    ∀ env request,
      ((((runSteps crypto {} steps).createTxLockCandidate env request).1 = false →
        ((runSteps crypto {} steps).createTxLockCandidate env request).2.mapTxLockCandidates =
          (runSteps crypto {} steps).mapTxLockCandidates) ↔
        (runSteps crypto {} steps).inTime env request) := by
  have hinv : (runSteps crypto {} steps).Filled ∧
      LockInv (fun _ => True) (runSteps crypto {} steps) := by
    refine Along.foldl (P := fun s => s.Filled ∧ LockInv (fun _ => True) s) ?_
      ⟨fun h c hc => absurd hc (by simp), .empty⟩ hinTime
    exact fun s a hs hinTime => ⟨hs.1.next hinTime, hs.2.next fun _ _ => trivial⟩
  generalize runSteps crypto {} steps = s at hinv
  obtain ⟨hfilled, hlocks⟩ := hinv
  refine ⟨fun h c tx hc hrequest => ?_, createTxLockCandidate_eq_false_iff s⟩
  have hok := hlocks.candidates h c hc
  have hinputs := hfilled h c hc
  refine ⟨hok.hash tx hrequest, fun o => ⟨fun ho => ?_, fun ho => ?_⟩⟩
  · have hmem := hok.inputs o ho
    rwa [hrequest] at hmem
  · exact hinputs o (by rwa [hrequest])

def lateLockingEnv : InstantSendEnv := { lockingEnv with getTime := lockingEnv.getTime + 16 }

def lateRequestRun : List InstantSendStep :=
  voting [0] 101 0 ++ [⟨lateLockingEnv, .txLockRequest (spending 101 [0])⟩]

/-- The call fails and changes the candidate: it has the request, and no lock for its
input.  The same request succeeds when it comes again. -/
theorem candidates_lateRequest :
    ((runSteps plainLockCrypto {} (voting [0] 101 0)).createTxLockCandidate lateLockingEnv
      (some (spending 101 [0]))).1 = false ∧
    ((runSteps plainLockCrypto {} (voting [0] 101 0)).mapTxLockCandidates.lookup 101).map
      (·.txLockRequest) = some none ∧
    ((runSteps plainLockCrypto {} lateRequestRun).mapTxLockCandidates.lookup 101).map
      (fun c => (c.txLockRequest, c.mapOutPointLocks.keys)) = some (some (spending 101 [0]), []) ∧
    ((runSteps plainLockCrypto {} lateRequestRun).createTxLockCandidate lateLockingEnv
      (some (spending 101 [0]))).1 := by
  decide +kernel

theorem candidates_wellFormed_inTime : ∃ c, (runSteps plainLockCrypto {}
        (voting [0] 101 0 ++ [requesting (spending 101 [0])])).mapTxLockCandidates.lookup 101 =
          some c ∧
      ∀ o, o ∈ c.mapOutPointLocks.keys ↔ o ∈ (spending 101 [0]).vin.map (·.prevout) := by
  have hrequest : ((runSteps plainLockCrypto {}
      (voting [0] 101 0 ++ [requesting (spending 101 [0])])).mapTxLockCandidates.lookup
        101).map (·.txLockRequest) = some (some (spending 101 [0])) := by
    decide +kernel
  obtain ⟨c, hc, hc'⟩ := Option.map_eq_some_iff.mp hrequest
  exact ⟨c, hc, ((candidates_wellFormed plainLockCrypto _ (by decide +kernel)).1 101 c _ hc hc').2⟩

end CInstantSend
end ImageCoin
