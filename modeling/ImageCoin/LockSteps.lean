import ImageCoin.LockMoves

/-!
# The shape of a call

Every call of InstantSend prepares one transaction and may then try to lock it, or
moves the tip, sets the height of a transaction, or removes what is old.
-/

namespace ImageCoin

open MapEntries Relation Option CTxLockVote CTxLockCandidate

namespace CInstantSend

variable {crypto : LockCrypto} {env : InstantSendEnv} {valid : CTxLockVote → Prop}
  {h : UInt256} {s s' t : CInstantSend} {requests : List CTxLockRequest} {tx : CTransaction}
  {k txHash : UInt256} {o : COutPoint} {a : InstantSendStep}

def requestsOf (s : CInstantSend) (h : UInt256) : List CTxLockRequest :=
  ((s.mapTxLockCandidates.lookup h).map (·.txLockRequest)).toList ++
    ((s.mapLockRequestAccepted.lookup h).toList ++ (s.mapLockRequestRejected.lookup h).toList)

def requestsFor (s : CInstantSend) : InstantSendCall → List CTxLockRequest
  | .txLockVote _ vote => s.requestsOf vote.txHash
  | .txLockRequest tx => some tx :: s.requestsOf tx.hash
  | .verdict tx => s.requestsOf tx.hash
  | _ => []

variable {c : CTxLockCandidate}

theorem mem_requestsOf_of_candidate
    (hc : s.mapTxLockCandidates.lookup h = some c) : c.txLockRequest ∈ s.requestsOf h := by
  simp [requestsOf, hc]

theorem mem_requestsOf_of_knownRequest {request : CTxLockRequest}
    (hknown : s.knownRequest h = some request) : request ∈ s.requestsOf h := by
  rcases or_eq_some_iff.mp hknown with haccepted | ⟨-, hrejected⟩
  · simp [requestsOf, haccepted]
  · simp [requestsOf, hrejected]

def Outcome (valid : CTxLockVote → Prop) (env : InstantSendEnv) (h : UInt256)
    (requests : List CTxLockRequest) (s t : CInstantSend) : Prop :=
  ∃ s₁, Preps valid h s s₁ ∧ (t = s₁ ∨ ∃ c, s₁.mapTxLockCandidates.lookup h = some c ∧
      c.txLockRequest ∈ requests ∧ Finalized env s₁ c t)

theorem Outcome.of_preps (hpreps : Preps valid h s t) : Outcome valid env h requests s t :=
  ⟨t, hpreps, .inl rfl⟩

theorem Outcome.head (hpreps : Preps valid h s s')
    (houtcome : Outcome valid env h requests s' t) : Outcome valid env h requests s t := by
  obtain ⟨s₁, hpreps', hrest⟩ := houtcome
  exact ⟨s₁, hpreps.trans hpreps', hrest⟩

theorem outcome_tried (hc : s.mapTxLockCandidates.lookup h = some c)
    (hrequest : c.txLockRequest ∈ requests) :
    Outcome valid env h requests s (s.tryToFinalizeLockCandidate env c) :=
  ⟨s, .refl, .inr ⟨c, hc, hrequest, finalized s env c⟩⟩

theorem preps_setCandidate
    {old : Option CTxLockCandidate} (hold : s.mapTxLockCandidates.lookup k = old)
    (hmove : CandidateMove (fun v => valid v ∧ h ∈ s.votedFor v.outpoint) h k old c) :
    Preps valid h s (s.setCandidate k c) :=
  .single (.candidate (hold ▸ hmove))

theorem mem_votedFor_recordVoted : h ∈ (s.recordVoted o h).votedFor o := by
  simp [votedFor, recordVoted]

theorem preps_createEmpty : Preps valid h s (s.createEmptyTxLockCandidate env h) := by
  unfold createEmptyTxLockCandidate
  cases hold : s.mapTxLockCandidates.lookup h with
  | none => exact preps_setCandidate hold (.created _)
  | some c => exact .refl

theorem setCandidate_setCandidate
    {c c' : CTxLockCandidate} : (s.setCandidate k c).setCandidate k c' = s.setCandidate k c' := by
  simp [setCandidate]

theorem lookup_setCandidate_self (s : CInstantSend) (k : UInt256) (c : CTxLockCandidate) :
    (s.setCandidate k c).mapTxLockCandidates.lookup k = some c :=
  AList.lookup_insert _

variable (valid) in
theorem createTxLockCandidate_spec :
    Preps valid tx.hash s (s.createTxLockCandidate env (some tx)).2 ∧
      ((s.createTxLockCandidate env (some tx)).1 →
        ∃ c, (s.createTxLockCandidate env (some tx)).2.mapTxLockCandidates.lookup tx.hash =
            some c ∧
          (c.txLockRequest = some tx ∨ s.mapTxLockCandidates.lookup tx.hash = some c ∧
            c.txLockRequest ≠ none)) := by
  unfold createTxLockCandidate
  cases CTxLockRequest.isValid (some tx) env with
  | false => exact ⟨.refl, by simp⟩
  | true =>
    simp only [Bool.not_true, Bool.false_eq_true, if_false]
    generalize hhash : CTxLockRequest.getHash (some tx) = hash
    obtain rfl : tx.hash = hash := hhash
    cases hold : s.mapTxLockCandidates.lookup tx.hash with
    | none =>
      refine ⟨?_, fun _ => ⟨_, lookup_setCandidate_self .., .inl (by simp)⟩⟩
      -- The candidate is created empty and gets its request at once.
      have hcreated : Preps valid tx.hash s
          (s.setCandidate tx.hash { nTimeCreated := env.getTime, txLockRequest := none }) :=
        preps_setCandidate hold (.created _)
      refine hcreated.trans ?_
      have hempty : txLockRequest
        { nTimeCreated := env.getTime, txLockRequest := none } = none := rfl
      have hfilled : Preps valid tx.hash _ _ :=
        preps_setCandidate (lookup_setCandidate_self s ..) (.filled hempty rfl)
      rwa [setCandidate_setCandidate] at hfilled
    | some c =>
      dsimp only
      cases hempty : isNone c.txLockRequest with
      | false =>
        have hne : c.txLockRequest ≠ none := by
          intro hnone
          simp [hnone] at hempty
        exact ⟨.refl, fun _ => ⟨c, hold, .inr ⟨rfl, hne⟩⟩⟩
      | true =>
        have hrequest : c.txLockRequest = none := isNone_iff_eq_none.mp hempty
        simp only [if_true]
        split
        · exact ⟨preps_setCandidate hold (.stored hrequest rfl), by simp⟩
        · exact ⟨preps_setCandidate hold (.filled hrequest rfl),
            fun _ => ⟨_, lookup_setCandidate_self .., .inl (by simp)⟩⟩

theorem outcome_processTxLockRequest (hrequest : some tx ∈ requests)
    (hold : ∀ c, s.mapTxLockCandidates.lookup tx.hash = some c → c.txLockRequest ≠ none →
      c.txLockRequest ∈ requests) :
    Outcome valid env tx.hash requests s (s.processTxLockRequest env (some tx)).2 := by
  obtain ⟨hpreps, hcreated⟩ := createTxLockCandidate_spec valid
  unfold processTxLockRequest
  generalize s.createTxLockCandidate env (some tx) = result at hpreps hcreated
  obtain ⟨created, t⟩ := result
  cases created with
  | false => exact .of_preps hpreps
  | true =>
    obtain ⟨c, hc, hcases⟩ := hcreated rfl
    generalize hhash : CTxLockRequest.getHash (some tx) = hash
    obtain rfl : tx.hash = hash := hhash
    simp only [hc]
    refine .head hpreps (outcome_tried hc ?_)
    rcases hcases with hnew | ⟨hlookup, hne⟩
    · rwa [hnew]
    · exact hold c hlookup hne

/-! ## Received votes -/

theorem preps_trackOrphanVote (env : InstantSendEnv) (s : CInstantSend)
    (vote : CTxLockVote) : Preps valid h s (s.trackOrphanVote env vote).2 := by
  unfold trackOrphanVote
  split
  · exact .single (.books _ _ _)
  · split
    · exact .refl
    · exact .single (.books _ _ _)

theorem preps_storeVote {vote : CTxLockVote} : Preps valid h s (s.storeVote crypto vote) :=
  .single (.books _ s.mapTxLockVotesOrphan s.mapMasternodeOrphanVotes)

variable (valid) in
theorem preps_storeOrphanVote (crypto : LockCrypto) (env : InstantSendEnv) (s : CInstantSend)
    (vote : CTxLockVote) : Preps valid vote.txHash s (s.storeOrphanVote crypto env vote) :=
  preps_createEmpty.tail (.books _ _ _)

variable {vote : CTxLockVote}

theorem lookup_storeOrphanVote
    (hc : (s.storeOrphanVote crypto env vote).mapTxLockCandidates.lookup vote.txHash = some c)
    (hne : c.txLockRequest ≠ none) : s.mapTxLockCandidates.lookup vote.txHash = some c := by
  have hsame : (s.storeOrphanVote crypto env vote).mapTxLockCandidates =
      (s.createEmptyTxLockCandidate env vote.txHash).mapTxLockCandidates := rfl
  rw [hsame, createEmptyTxLockCandidate] at hc
  split_ifs at hc with hsome
  · exact hc
  · rw [lookup_setCandidate_self] at hc
    obtain rfl := some.inj hc
    exact absurd rfl hne

theorem knownRequest_storeOrphanVote :
    (s.storeOrphanVote crypto env vote).knownRequest h = s.knownRequest h := by
  unfold storeOrphanVote createEmptyTxLockCandidate
  split_ifs <;> rfl

variable {nVersion : ℤ} (hknown : ∀ request, s.knownRequest vote.txHash = some request →
  request.getHash = vote.txHash)

include hknown in
theorem outcome_processOrphanVote : Outcome valid env vote.txHash (s.requestsOf vote.txHash) s
    (s.processOrphanVote crypto env vote).2 := by
  unfold processOrphanVote
  split
  · exact .of_preps (preps_trackOrphanVote env s vote)
  · have hstored := preps_storeOrphanVote valid crypto env s vote
    dsimp only
    rw [knownRequest_storeOrphanVote]
    cases hrequest : s.knownRequest vote.txHash with
    | none => exact .of_preps (hstored.trans (preps_trackOrphanVote env _ vote))
    | some request =>
      dsimp only
      split
      · cases request with
        | none => exact .of_preps hstored
        | some tx =>
          have hhash : tx.hash = vote.txHash := hknown _ hrequest
          refine .head hstored ?_
          rw [← hhash]
          refine outcome_processTxLockRequest ?_ ?_
          · rw [hhash]
            exact mem_requestsOf_of_knownRequest hrequest
          · intro c hc hne
            rw [hhash] at hc ⊢
            exact mem_requestsOf_of_candidate (lookup_storeOrphanVote hc hne)
      · exact .of_preps (hstored.trans (preps_trackOrphanVote env _ vote))

theorem preps_attacked (s : CInstantSend) (k : UInt256) (o : COutPoint) : Preps valid h s { s with
    mapTxLockCandidates :=
        adjust s.mapTxLockCandidates k (·.markOutpointAsAttacked o) } := by
  unfold adjust
  cases hold : s.mapTxLockCandidates.lookup k with
  | none => exact .refl
  | some c => exact preps_setCandidate hold (.attacked o)

theorem preps_markConflicting (vote : CTxLockVote) (hashes : List UInt256)
    (s : CInstantSend) : Preps valid h s (markConflicting vote hashes s) := by
  induction hashes generalizing s with
  | nil => exact .refl
  | cons hash hashes ih =>
    unfold markConflicting
    dsimp only
    split
    · exact ((preps_attacked s vote.txHash vote.outpoint).trans
        (preps_attacked _ hash vote.outpoint)).trans (ih _)
    · exact ih s

theorem txLockRequest_markConflicting {hashes : List UInt256}
    (hc : (markConflicting vote hashes s).mapTxLockCandidates.lookup k = some c) :
    ∃ c₀, s.mapTxLockCandidates.lookup k = some c₀ ∧ c₀.txLockRequest = c.txLockRequest := by
  induction hashes generalizing s with
  | nil => exact ⟨c, hc, rfl⟩
  | cons hash hashes ih =>
    unfold markConflicting at hc
    dsimp only at hc
    split at hc
    · obtain ⟨c₁, hc₁, hrequest⟩ := ih hc
      have hadjust : ∀ (m : Map UInt256 CTxLockCandidate) (k' : UInt256) (c' : CTxLockCandidate),
          (adjust m k' (·.markOutpointAsAttacked vote.outpoint)).lookup k = some c' →
          ∃ c₀, m.lookup k = some c₀ ∧ c₀.txLockRequest = c'.txLockRequest := by
        intro m k' c' hlookup
        rw [lookup_adjust] at hlookup
        split_ifs at hlookup with heq
        · subst heq
          obtain ⟨c₀, hc₀, rfl⟩ := map_eq_some_iff.mp hlookup
          exact ⟨c₀, hc₀, rfl⟩
        · exact ⟨c', hlookup, rfl⟩
      obtain ⟨c₂, hc₂, hrequest₂⟩ := hadjust _ _ _ hc₁
      obtain ⟨c₃, hc₃, hrequest₃⟩ := hadjust _ _ _ hc₂
      exact ⟨c₃, hc₃, hrequest₃.trans (hrequest₂.trans hrequest)⟩
    · exact ih hc

theorem outcome_countVote (hvalid : valid vote) :
    Outcome valid env vote.txHash (s.requestsOf vote.txHash) s (s.countVote env vote).2 := by
  unfold countVote
  dsimp only
  generalize hhashes : (s.mapVotedOutpoints.lookup vote.outpoint).getD [] = hashes
  have hrecorded : Preps valid vote.txHash s
      ((markConflicting vote hashes s).recordVoted vote.outpoint vote.txHash) :=
    (preps_markConflicting vote hashes s).tail (.recorded vote.outpoint)
  cases hadd : (((markConflicting vote hashes s).recordVoted vote.outpoint
      vote.txHash).mapTxLockCandidates.lookup vote.txHash).bind (·.addVote vote) with
  | none => exact .of_preps hrecorded
  | some c =>
    obtain ⟨c₁, hc₁, hadd₁⟩ := bind_eq_some_iff.mp hadd
    have hvoted := hrecorded.trans (preps_setCandidate hc₁
      (.voted ⟨hvalid, mem_votedFor_recordVoted⟩ rfl hadd₁))
    refine .head hvoted (outcome_tried (lookup_setCandidate_self ..) ?_)
    obtain ⟨c₀, hc₀, hrequest⟩ := txLockRequest_markConflicting hc₁
    rw [(fields_addVote hadd₁).1, ← hrequest]
    exact mem_requestsOf_of_candidate hc₀

include hknown in
theorem outcome_processTxLockVote : Outcome (fun v => v.isValid crypto env) env vote.txHash
    (s.requestsOf vote.txHash) s (s.processTxLockVote crypto env vote).2 := by
  unfold processTxLockVote
  cases hvalid : vote.isValid crypto env with
  | false => exact .of_preps .refl
  | true =>
    simp only [Bool.not_true, Bool.false_eq_true, if_false]
    cases s.mapTxLockCandidates.lookup vote.txHash with
    | none => exact outcome_processOrphanVote hknown
    | some c =>
      dsimp only
      split
      · exact outcome_processOrphanVote hknown
      · split
        · exact .of_preps .refl
        · exact outcome_countVote hvalid

include hknown in
theorem outcome_processMessage : Outcome (fun v => v.isValid crypto env) env vote.txHash
    (s.requestsOf vote.txHash) s (s.processMessage crypto env nVersion vote) := by
  unfold processMessage
  split
  · exact .of_preps .refl
  · exact .head preps_storeVote (outcome_processTxLockVote hknown)

/-! ## Own votes -/

theorem voteDecision_eq_sign (hsign : s.voteDecision crypto env txHash o = .sign vote) :
    vote.txHash = txHash ∧ vote.outpoint = o ∧
      vote.outpointMasternode = env.activeMasternode.outpoint ∧
      (env.getUTXOCoin o).isSome ∧ s.alreadyVoted env o = false ∧
      vote.isValid crypto env := by
  unfold voteDecision at hsign
  cases hcoin : env.getUTXOCoin o with
  | none => simp [hcoin] at hsign
  | some coin =>
    cases hrank : env.getMasternodeRank env.activeMasternode.outpoint
        (coin.nHeight.toNat + 4) minInstantsendProtoVersion with
    | none => simp [hcoin, hrank] at hsign
    | some nRank =>
      simp only [hcoin, hrank] at hsign
      split_ifs at hsign with htop hvoted
      generalize hsigned : sign crypto
        ⟨txHash, o, env.activeMasternode.outpoint, [], -1, env.getTime⟩ env = signed at hsign
      cases signed with
      | none => simp at hsign
      | some vote' =>
        simp only at hsign
        split_ifs at hsign with hcheck
        obtain rfl : vote' = vote := VoteDecision.sign.inj hsign
        unfold sign at hsigned
        split at hsigned
        · simp at hsigned
        · split_ifs at hsigned
          obtain rfl := some.inj hsigned
          have hinfo : (env.getMasternodeInfo env.activeMasternode.outpoint).isNone = false := by
            unfold checkSignature at hcheck
            cases hmn : env.getMasternodeInfo env.activeMasternode.outpoint with
            | none => simp [hmn] at hcheck
            | some info => rfl
          refine ⟨rfl, rfl, rfl, rfl, by simpa using hvoted, ?_⟩
          simp [isValid, hinfo, hcoin, hrank, htop, hcheck]

theorem preps_storeOwnVote (crypto : LockCrypto) (s : CInstantSend) (vote : CTxLockVote)
    (hvalid : valid vote) : Preps valid vote.txHash s (s.storeOwnVote crypto vote.txHash vote) := by
  have hstored : Preps valid vote.txHash s (s.storeVote crypto vote) :=
    preps_storeVote
  unfold storeOwnVote
  dsimp only
  cases hadd : ((s.storeVote crypto vote).mapTxLockCandidates.lookup vote.txHash).bind
      (·.addVote vote) with
  | none => exact hstored
  | some c =>
    obtain ⟨c₀, hc₀, hadd₀⟩ := bind_eq_some_iff.mp hadd
    -- It makes no difference that the vote is added first.
    have hrecorded : Preps valid vote.txHash s
        ((s.storeVote crypto vote).recordVoted vote.outpoint vote.txHash) :=
      hstored.tail (.recorded vote.outpoint)
    exact hrecorded.trans (preps_setCandidate hc₀
      (.voted ⟨hvalid, mem_votedFor_recordVoted⟩ rfl hadd₀))

theorem preps_voteLoop (env : InstantSendEnv) (txHash : UInt256) (os : List COutPoint)
    (s : CInstantSend) :
    Preps (fun v => v.isValid crypto env) txHash s
      (voteLoop crypto env txHash txHash os s).1 := by
  induction os generalizing s with
  | nil => exact .refl
  | cons o os ih =>
    unfold voteLoop
    cases hdecision : s.voteDecision crypto env txHash o with
    | stop => exact .refl
    | skip => exact ih s
    | sign vote =>
      obtain ⟨rfl, -, -, -, -, hvalid⟩ := voteDecision_eq_sign hdecision
      exact (preps_storeOwnVote crypto s vote hvalid).trans (ih _)

theorem txLockRequest_voteLoop {key : UInt256} {os : List COutPoint}
    (hc : (voteLoop crypto env key txHash os s).1.mapTxLockCandidates.lookup key = some c) :
    ∃ c₀, s.mapTxLockCandidates.lookup key = some c₀ ∧ c₀.txLockRequest = c.txLockRequest := by
  induction os generalizing s with
  | nil => exact ⟨c, hc, rfl⟩
  | cons o os ih =>
    unfold voteLoop at hc
    cases hdecision : s.voteDecision crypto env txHash o with
    | stop =>
      simp only [hdecision] at hc
      exact ⟨c, hc, rfl⟩
    | skip =>
      simp only [hdecision] at hc
      exact ih hc
    | sign vote =>
      simp only [hdecision] at hc
      obtain ⟨c₁, hc₁, hrequest⟩ := ih hc
      unfold storeOwnVote at hc₁
      dsimp only at hc₁
      split at hc₁
      · exact ⟨c₁, hc₁, hrequest⟩
      · rename_i c₂ hadd
        obtain ⟨c₀, hc₀, hadd₀⟩ := bind_eq_some_iff.mp hadd
        obtain rfl : c₂ = c₁ :=
          some.inj ((lookup_setCandidate_self ..).symm.trans hc₁)
        exact ⟨c₀, hc₀, (fields_addVote hadd₀).1.symm.trans hrequest⟩

theorem voteCandidate_spec (hkey : c.mapOutPointLocks.keys ≠ [] → c.getHash = h) :
    Preps (fun v => v.isValid crypto env) h s (s.voteCandidate crypto env h c).1 ∧
      ∀ c', (s.voteCandidate crypto env h c).1.mapTxLockCandidates.lookup h = some c' →
        ∃ c₀, s.mapTxLockCandidates.lookup h = some c₀ ∧ c₀.txLockRequest = c'.txLockRequest := by
  have hsame : ∀ c', s.mapTxLockCandidates.lookup h = some c' →
      ∃ c₀, s.mapTxLockCandidates.lookup h = some c₀ ∧
        c₀.txLockRequest = c'.txLockRequest := fun c' hc' => ⟨c', hc', rfl⟩
  unfold voteCandidate
  split_ifs
  · exact ⟨.refl, hsame⟩
  · exact ⟨.refl, hsame⟩
  · exact ⟨.refl, hsame⟩
  · by_cases hempty : c.mapOutPointLocks.keys = []
    · rw [hempty]
      exact ⟨.refl, hsame⟩
    · rw [hkey hempty]
      exact ⟨preps_voteLoop env h _ s, fun c' => txLockRequest_voteLoop⟩

theorem outcome_vote (hkey : ∀ c, s.mapTxLockCandidates.lookup h = some c →
      c.mapOutPointLocks.keys ≠ [] → c.getHash = h)
    (hrequests : ∀ c, s.mapTxLockCandidates.lookup h = some c → c.txLockRequest ∈ requests) :
    Outcome (fun v => v.isValid crypto env) env h requests s (s.vote crypto env h).1 := by
  unfold vote
  cases hc : s.mapTxLockCandidates.lookup h with
  | none => exact .of_preps .refl
  | some c =>
    obtain ⟨hpreps, hsame⟩ := voteCandidate_spec (hkey c hc)
    refine .head hpreps ?_
    dsimp only
    unfold finalizeNow
    cases hc' : (s.voteCandidate crypto env h c).1.mapTxLockCandidates.lookup h with
    | none => exact .of_preps .refl
    | some c' =>
      obtain ⟨c₀, hc₀, hrequest⟩ := hsame c' hc'
      exact outcome_tried hc' (hrequest ▸ hrequests c₀ hc₀)

/-- Candidates with outpoints and requests are stored under their own hash. -/
structure Keyed (s : CInstantSend) : Prop where
  candidates : ∀ h c, s.mapTxLockCandidates.lookup h = some c →
    c.mapOutPointLocks.keys ≠ [] → c.getHash = h
  known : ∀ h request, s.knownRequest h = some request → request.getHash = h

theorem outcome_processVerdict (hkeyed : s.Keyed) :
    Outcome (fun v => v.isValid crypto env) env tx.hash (s.requestsOf tx.hash) s
      (s.processVerdict crypto env tx).1 := by
  unfold processVerdict
  split
  · exact .of_preps .refl
  · split
    · exact .head (.single (.accepted tx)) (outcome_vote
        (hkeyed.candidates tx.hash) fun c hc => mem_requestsOf_of_candidate hc)
    · exact .of_preps .refl
    · exact .of_preps (.single (.rejected tx))

inductive StepShape (crypto : LockCrypto) (s : CInstantSend) (a : InstantSendStep) :
    CInstantSend → Prop where
  | prepared {h : UInt256} {t : CInstantSend}
      (houtcome : Outcome (fun v => v.isValid crypto a.env) a.env h
        (s.requestsFor a.call) s t) : StepShape crypto s a t
  | tip (nHeight : ℤ) : StepShape crypto s a { s with nCachedBlockHeight := nHeight }
  | confirmed (h : UInt256) (nHeight : ℤ) (votes : Map UInt256 CTxLockVote)
      (hheight : -1 ≤ nHeight) :
      StepShape crypto s a { s with
        mapTxLockCandidates :=
          adjust s.mapTxLockCandidates h (·.setConfirmedHeight nHeight)
        mapTxLockVotes := votes }
  | removed (hcall : a.call = .checkAndRemove) : StepShape crypto s a (s.checkAndRemove a.env)

theorem stepShape_syncTransaction {pblock : Option UInt256} :
    StepShape crypto s a (s.syncTransaction crypto a.env tx pblock) := by
  have hsame : StepShape crypto s a s := .prepared (h := 0) (.of_preps .refl)
  unfold syncTransaction
  split
  · exact hsame
  · split
    · exact .confirmed _ _ _ le_rfl
    · split
      · exact hsame
      · exact .confirmed _ _ _ (by omega)

theorem stepShape (hkeyed : s.Keyed) : StepShape crypto s a (s.next crypto a) := by
  obtain ⟨env, call⟩ := a
  cases call with
  | txLockVote nVersion vote =>
    exact .prepared (outcome_processMessage (hkeyed.known vote.txHash))
  | txLockRequest tx =>
    exact .prepared (outcome_processTxLockRequest List.mem_cons_self
      fun c hc _ => List.mem_cons_of_mem _ (mem_requestsOf_of_candidate hc))
  | verdict tx => exact .prepared (outcome_processVerdict hkeyed)
  | updatedBlockTip nHeight => exact .tip nHeight
  | syncTransaction tx pblock => exact stepShape_syncTransaction
  | checkAndRemove => exact .removed rfl

end CInstantSend
end ImageCoin
