import ImageCoin.LockTally

/-!
# Orphan votes

A vote that comes before its lock request is kept as an orphan.  It is not counted when the
request comes, as `ProcessOrphanTxLockVotes` is never called, and it is ignored when it comes
again.
-/

namespace ImageCoin

open MapEntries Relation CTxLockRequest CInstantSend CTxLockCandidate List

namespace CInstantSend

variable {crypto : LockCrypto} {env : InstantSendEnv} {s t : CInstantSend}
  {tx : CTransaction} {t₀ : ℤ} {V : Tally} {vote : CTxLockVote} {time : ℤ}
  {votes : List CTxLockVote} {h : UInt256}

/-- The request has not come, and nothing is known of the transaction and its inputs but
votes. -/
structure Waiting (tx : CTransaction) (t₀ : ℤ) (s : CInstantSend) : Prop where
  candidate : ∀ c, s.mapTxLockCandidates.lookup tx.hash = some c →
    c.txLockRequest = none ∧ c.mapOutPointLocks = ∅ ∧ t₀ ≤ c.nTimeCreated
  unknown : s.alreadyHave tx.hash = false
  voted : ∀ o ∈ prevouts (some tx), s.votedFor o = []
  unlocked : ∀ o ∈ prevouts (some tx), s.mapLockedOutpoints.lookup o = none

theorem alreadyHave_eq_false : s.alreadyHave h = false ↔
    s.mapLockRequestAccepted.lookup h = none ∧ s.mapLockRequestRejected.lookup h = none ∧
      s.mapTxLockVotes.lookup h = none := by
  simp [alreadyHave, and_assoc]

section
variable (hwaiting : s.Waiting tx t₀)
include hwaiting

theorem Waiting.trackOrphanVote : (s.trackOrphanVote env vote).2.Waiting tx t₀ := by
  unfold CInstantSend.trackOrphanVote
  split
  · exact ⟨hwaiting.candidate, hwaiting.unknown, hwaiting.voted, hwaiting.unlocked⟩
  · split_ifs
    · exact hwaiting
    · exact ⟨hwaiting.candidate, hwaiting.unknown, hwaiting.voted, hwaiting.unlocked⟩

section
variable (htime : t₀ ≤ env.getTime)
include htime

theorem Waiting.storeOrphanVote (hhash : vote.txHash = tx.hash) :
    (s.storeOrphanVote crypto env vote).Waiting tx t₀ := by
  unfold CInstantSend.storeOrphanVote createEmptyTxLockCandidate
  rw [hhash]
  split_ifs
  · exact ⟨hwaiting.candidate, hwaiting.unknown, hwaiting.voted, hwaiting.unlocked⟩
  · refine ⟨fun c hc => ?_, hwaiting.unknown, hwaiting.voted, hwaiting.unlocked⟩
    obtain rfl := Option.some.inj ((lookup_setCandidate_self s tx.hash _).symm.trans hc)
    exact ⟨rfl, rfl, htime⟩

theorem Waiting.processOrphanVote (hhash : vote.txHash = tx.hash) :
    (s.processOrphanVote crypto env vote).2.Waiting tx t₀ := by
  unfold CInstantSend.processOrphanVote
  split_ifs
  · exact hwaiting.trackOrphanVote
  · have hunknown : s.knownRequest vote.txHash = none := by
      obtain ⟨haccepted, hrejected, -⟩ := alreadyHave_eq_false.mp hwaiting.unknown
      rw [knownRequest, hhash, haccepted, hrejected]
      rfl
    dsimp only
    rw [knownRequest_storeOrphanVote, hunknown]
    exact (hwaiting.storeOrphanVote htime hhash).trackOrphanVote

theorem Waiting.processMessage {nVersion : ℤ} (hhash : vote.txHash = tx.hash)
    (hne : vote.getHash crypto ≠ tx.hash) :
    (s.processMessage crypto env nVersion vote).Waiting tx t₀ := by
  unfold CInstantSend.processMessage
  split_ifs
  · exact hwaiting
  · have hstored : (s.storeVote crypto vote).Waiting tx t₀ := by
      refine ⟨hwaiting.candidate, ?_, hwaiting.voted, hwaiting.unlocked⟩
      obtain ⟨haccepted, hrejected, hvotes⟩ := alreadyHave_eq_false.mp hwaiting.unknown
      refine alreadyHave_eq_false.mpr ⟨haccepted, hrejected, ?_⟩
      exact (lookup_insertNew _ _ _ _).trans ((if_neg (Ne.symm hne)).trans hvotes)
    unfold processTxLockVote
    split_ifs
    · exact hstored
    · split
      · exact hstored.processOrphanVote htime hhash
      · rename_i c hc
        rw [hhash] at hc
        rw [(hstored.candidate c hc).1]
        exact hstored.processOrphanVote htime hhash

end

theorem Waiting.runSteps {votes : List (ℤ × CTxLockVote)}
    (htimes : ∀ p ∈ votes, t₀ ≤ p.1) (hhashes : ∀ p ∈ votes, p.2.txHash = tx.hash)
    (hne : ∀ p ∈ votes, p.2.getHash crypto ≠ tx.hash) :
    (runSteps crypto s (voteSteps env votes)).Waiting tx t₀ := by
  induction votes generalizing s with
  | nil => exact hwaiting
  | cons p votes ih =>
    have hnext : (s.processMessage crypto (env.atTime p.1) minInstantsendProtoVersion
        (p.2.received (env.atTime p.1))).Waiting tx t₀ :=
      hwaiting.processMessage (htimes p mem_cons_self) (hhashes p mem_cons_self)
        (hne p mem_cons_self)
    exact ih hnext (fun q hq => htimes q (mem_cons_of_mem _ hq))
      (fun q hq => hhashes q (mem_cons_of_mem _ hq)) (fun q hq => hne q (mem_cons_of_mem _ hq))

end

def inputLocks (tx : CTransaction) : Map COutPoint COutPointLock :=
  (addOutPointLocks { nTimeCreated := 0, txLockRequest := none }
    (prevouts (some tx))).mapOutPointLocks

theorem addOutPointLocks_congr {c c' : CTxLockCandidate}
    (hsame : c.mapOutPointLocks = c'.mapOutPointLocks) {prevouts : List COutPoint} :
    (c.addOutPointLocks prevouts).mapOutPointLocks =
      (c'.addOutPointLocks prevouts).mapOutPointLocks := by
  unfold addOutPointLocks
  induction prevouts.reverse generalizing c c' with
  | nil => exact hsame
  | cons o os ih =>
    refine ih ?_
    simp [addOutPointLock, hsame]

variable {c : CTxLockCandidate}

theorem addOutPointLocks_eq_inputLocks (hempty : c.mapOutPointLocks = ∅) :
    (c.addOutPointLocks (prevouts (some tx))).mapOutPointLocks = inputLocks tx :=
  addOutPointLocks_congr hempty

theorem counts_addOutPointLocks (hrequest : c.txLockRequest = some tx)
    (hempty : c.mapOutPointLocks = ∅) (htime : t₀ ≤ c.nTimeCreated) :
    (c.addOutPointLocks (prevouts (some tx))).Counts tx t₀ fun _ => ∅ := by
  have hlookup := c.lookup_addOutPointLocks (prevouts (some tx))
  refine ⟨?_, ?_, fun o => ?_, fun o lock hlock => ?_⟩
  · rw [txLockRequest_addOutPointLocks, hrequest]
  · rw [nTimeCreated_addOutPointLocks]
    exact htime
  · rw [mem_keys_iff, hlookup, hempty]
    by_cases ho : o ∈ prevouts (some tx)
    · simp
    · simp
  · rw [hlookup, hempty] at hlock
    split_ifs at hlock with ho
    · obtain rfl := Option.some.inj hlock
      exact ⟨rfl, fun m => by simp⟩
    · simp at hlock

theorem isValid_atTime {request : CTxLockRequest} :
    request.isValid (env.atTime time) = request.isValid env := by
  have hloop : ∀ (vin : List CTxIn) (nValueIn : CAmount),
      valueInLoop (env.atTime time) vin nValueIn = valueInLoop env vin nValueIn := by
    intro vin
    induction vin with
    | nil => exact fun _ => rfl
    | cons txin vin ih =>
      intro nValueIn
      simp only [valueInLoop, ih]
      rfl
  cases request with
  | none => rfl
  | some tx =>
    simp only [isValid, hloop]
    rfl

theorem Waiting.processTxLockRequest (hwaiting : s.Waiting tx t₀)
    (hvalid : isValid (some tx) env) (htime : t₀ ≤ env.getTime)
    (hlate : env.getTime ≤ t₀ + instantsendLockTimeoutSeconds) :
    ∃ c, (s.processTxLockRequest env (some tx)).2 = s.setCandidate tx.hash c ∧
      c.Counts tx t₀ (fun _ => ∅) ∧ c.mapOutPointLocks = inputLocks tx := by
  have hcreated : ∃ c, s.createTxLockCandidate env (some tx) =
      (true, s.setCandidate tx.hash c) ∧ c.Counts tx t₀ (fun _ => ∅) ∧
        c.mapOutPointLocks = inputLocks tx := by
    unfold createTxLockCandidate
    rw [hvalid]
    simp only
    generalize hhash : getHash (some tx) = hash
    obtain rfl : tx.hash = hash := hhash
    cases hc : s.mapTxLockCandidates.lookup tx.hash with
    | none =>
      exact ⟨_, rfl, counts_addOutPointLocks rfl rfl htime, addOutPointLocks_eq_inputLocks rfl⟩
    | some c =>
      obtain ⟨hrequest, hempty, hold⟩ := hwaiting.candidate c hc
      have hintime : isTimedOut { c with txLockRequest := some tx } env = false := by
        have hsmall : ¬env.getTime - c.nTimeCreated > instantsendLockTimeoutSeconds := by
          omega
        simpa [isTimedOut] using hsmall
      dsimp only
      rw [hrequest, hintime]
      exact ⟨_, rfl, counts_addOutPointLocks rfl hempty hold, addOutPointLocks_eq_inputLocks hempty⟩
  obtain ⟨c, heq, hcounts, hlocks⟩ := hcreated
  refine ⟨c, ?_, hcounts, hlocks⟩
  have hready : c.isAllOutPointsReady = false := by
    rw [← Bool.not_eq_true, hcounts.ready_iff]
    exact Tally.not_enough_of_subset ⟨0, 0⟩ fun _ => Finset.empty_subset _
  have hlookup : (s.setCandidate tx.hash c).mapTxLockCandidates.lookup
    (getHash (some tx)) = some c := lookup_setCandidate_self ..
  unfold CInstantSend.processTxLockRequest
  rw [heq]
  dsimp only
  rw [hlookup]
  exact tryToFinalizeLockCandidate_of_not_ready hready

/-! ## Own votes -/

def VoteDecision.atTime (time : ℤ) : VoteDecision → VoteDecision
  | .sign vote => .sign { vote with nTimeCreated := time }
  | decision => decision

def ownVotes (crypto : LockCrypto) (env : InstantSendEnv) (txHash : UInt256) :
    List COutPoint → List CTxLockVote
  | [] => []
  | o :: os =>
    match voteDecision crypto {} env txHash o with
    | .stop => []
    | .skip => ownVotes crypto env txHash os
    | .sign vote => vote :: ownVotes crypto env txHash os

def ownVotesFor (crypto : LockCrypto) (env : InstantSendEnv) (tx : CTransaction) :
    List CTxLockVote :=
  if env.fMasterNode && env.instantSendEnabled then
    ownVotes crypto env tx.hash (mapOrder (inputLocks tx).keys)
  else []

theorem sign_atTime (vote : CTxLockVote) (time : ℤ) :
    CTxLockVote.sign crypto { vote with nTimeCreated := time } (env.atTime time) =
      (vote.sign crypto env).map fun v => { v with nTimeCreated := time } := by
  have hmessage : CTxLockVote.strMessage { vote with nTimeCreated := time } = vote.strMessage := rfl
  unfold CTxLockVote.sign
  rw [hmessage]
  dsimp only [InstantSendEnv.atTime]
  cases env.activeMasternode.signMessage vote.strMessage with
  | none => rfl
  | some vchSig =>
    cases hverify : crypto.verifyMessage env.activeMasternode.pubKeyMasternode vchSig
        vote.strMessage with
    | false => simp [hverify]
    | true => simp [hverify]

theorem voteDecision_atTime {o : COutPoint} (hvoted : s.alreadyVoted env o = false) :
    s.voteDecision crypto (env.atTime time) h o = (voteDecision crypto {} env h o).atTime time := by
  set later := env.atTime time
  have hvoted' : s.alreadyVoted later o = false := hvoted
  have hempty : alreadyVoted {} env o = false := rfl
  have hsign : CTxLockVote.sign crypto
      ⟨h, o, env.activeMasternode.outpoint, [], -1, time⟩ later = _ :=
    sign_atTime ⟨h, o, env.activeMasternode.outpoint, [], -1, env.getTime⟩ time
  have hcheck : ∀ v : CTxLockVote, CTxLockVote.checkSignature crypto
      { v with nTimeCreated := time } later = v.checkSignature crypto env :=
    fun _ => rfl
  have hcoin : later.getUTXOCoin = env.getUTXOCoin := rfl
  have hrank : later.getMasternodeRank = env.getMasternodeRank := rfl
  have hactive : later.activeMasternode = env.activeMasternode := rfl
  have htime : later.getTime = time := rfl
  unfold voteDecision
  rw [hvoted', hempty, hcoin, hrank, hactive, htime]
  simp only [Bool.false_eq_true, if_false]
  cases env.getUTXOCoin o with
  | none => rfl
  | some coin =>
    dsimp only
    cases env.getMasternodeRank env.activeMasternode.outpoint (coin.nHeight.toNat + 4)
        minInstantsendProtoVersion with
    | none => rfl
    | some nRank =>
      dsimp only
      rw [hsign]
      split_ifs
      · rfl
      · cases CTxLockVote.sign crypto
            ⟨h, o, env.activeMasternode.outpoint, [], -1, env.getTime⟩ env with
        | none => rfl
        | some v =>
          dsimp only [Option.map_some]
          rw [hcheck]
          split_ifs <;> rfl

theorem Tallied.alreadyVoted_eq_false (htallied : s.Tallied tx t₀ V) {o : COutPoint}
    (ho : o ∈ prevouts (some tx))
    (hnot : env.activeMasternode.outpoint ∉ V o) : s.alreadyVoted env o = false := by
  have hvoted := htallied.voted o ho
  unfold votedFor at hvoted
  unfold alreadyVoted
  cases hhashes : s.mapVotedOutpoints.lookup o with
  | none => rfl
  | some hashes =>
    rw [hhashes] at hvoted
    refine any_eq_false.mpr fun k hk => ?_
    obtain rfl := hvoted k hk
    obtain ⟨c, hc, hcounts⟩ := htallied.candidate
    rw [hc]
    intro hhas
    obtain ⟨lock, v, hlock, hv⟩ := hasMasternodeVoted_iff.mp hhas
    exact hnot (((hcounts.locks o lock hlock).2 _).mp ((mem_keys_iff _ _).mpr ⟨v, hv⟩))

theorem Tallied.storeOwnVote (htallied : s.Tallied tx t₀ V) (crypto : LockCrypto)
    (vote : CTxLockVote) (hhash : vote.txHash = tx.hash) (ho : vote.outpoint ∈ prevouts (some tx)) :
    (s.storeOwnVote crypto tx.hash vote).Tallied tx t₀ (V.add vote) ∧
      (s.storeOwnVote crypto tx.hash vote).mapTxLockVotes =
        insertNew s.mapTxLockVotes (vote.getHash crypto) vote ∧
      (s.storeOwnVote crypto tx.hash vote).mapLockedOutpoints = s.mapLockedOutpoints := by
  have hstored : (s.storeVote crypto vote).Tallied tx t₀ V :=
    ⟨htallied.candidate, htallied.voted, htallied.free⟩
  obtain ⟨c, hc, hcounts⟩ := hstored.candidate
  unfold CInstantSend.storeOwnVote
  dsimp only
  rw [hc, Option.bind_some, hhash]
  cases hadd : c.addVote vote with
  | none =>
    rw [hcounts.add_of_addVote_eq_none ho hadd]
    exact ⟨hstored, rfl, rfl⟩
  | some c' => exact ⟨(hstored.addVote hcounts hadd).recordVoted vote.outpoint, rfl, rfl⟩

variable {all : List CTxLockVote}

theorem Tallied.voteLoop (htallied : s.Tallied tx t₀ V)
    (hapart : HashesApart crypto all) (time : ℤ) {os : List COutPoint} (hnodup : os.Nodup)
    (hos : ∀ o ∈ os, o ∈ prevouts (some tx) ∧ env.activeMasternode.outpoint ∉ V o)
    (hall : ∀ v ∈ ownVotes crypto env tx.hash os, v ∈ all) :
    ∃ W, (voteLoop crypto (env.atTime time) tx.hash tx.hash os s).1.Tallied tx t₀ W ∧
      (∀ o m, m ∈ W o ↔ m ∈ V o ∨ m ∈ voters (ownVotes crypto env tx.hash os) o) ∧
      (voteLoop crypto (env.atTime time) tx.hash tx.hash os s).1.mapLockedOutpoints =
        s.mapLockedOutpoints ∧
      (s.Seen crypto all V →
        (voteLoop crypto (env.atTime time) tx.hash tx.hash os s).1.Seen crypto all W) := by
  induction os generalizing s V with
  | nil => exact ⟨V, htallied, by simp [ownVotes, mem_voters], rfl, fun hseen => hseen⟩
  | cons o os ih =>
    obtain ⟨ho, hnot⟩ := hos o mem_cons_self
    have hrest : ∀ o' ∈ os, o' ∈ prevouts (some tx) ∧ env.activeMasternode.outpoint ∉ V o' :=
      fun o' ho' => hos o' (mem_cons_of_mem _ ho')
    have hdecision : s.voteDecision crypto (env.atTime time) tx.hash o = _ :=
      voteDecision_atTime (htallied.alreadyVoted_eq_false ho hnot)
    unfold voteLoop ownVotes
    rw [hdecision]
    unfold ownVotes at hall
    cases hown : voteDecision crypto {} env tx.hash o with
    | stop =>
      exact ⟨V, htallied, by simp [mem_voters], rfl, fun hseen => hseen⟩
    | skip =>
      rw [hown] at hall
      exact ih htallied (nodup_cons.mp hnodup).2 hrest hall
    | sign vote =>
      rw [hown] at hall
      obtain ⟨hhash, houtpoint, hmasternode, -, -, -⟩ := voteDecision_eq_sign hown
      have hinput : vote.outpoint ∈ prevouts (some tx) := houtpoint ▸ ho
      obtain ⟨hstored, hvotes, hlocked⟩ := htallied.storeOwnVote crypto
        { vote with nTimeCreated := time } hhash hinput
      obtain ⟨hnew, hnodup'⟩ := nodup_cons.mp hnodup
      have hrest' : ∀ o' ∈ os, o' ∈ prevouts (some tx) ∧
          env.activeMasternode.outpoint ∉ V.add vote o' := by
        intro o' ho'
        refine ⟨(hrest o' ho').1, fun hmem => ?_⟩
        rcases Tally.mem_add.mp hmem with hmem | ⟨heq, -⟩
        · exact (hrest o' ho').2 hmem
        · exact hnew (houtpoint ▸ heq ▸ ho')
      obtain ⟨W, htallied', hW, hlocked', hseen'⟩ := ih hstored hnodup' hrest'
        fun v hv => hall v (mem_cons_of_mem _ hv)
      refine ⟨W, htallied', fun o' m => ?_, hlocked'.trans hlocked, fun hseen => ?_⟩
      · rw [hW, Tally.mem_add, mem_voters_cons, or_assoc]
      · have hadded : Seen crypto all (V.add vote)
            (s.storeOwnVote crypto tx.hash { vote with nTimeCreated := time }) :=
          hseen.add hapart (hall vote mem_cons_self) hvotes
        exact hseen' hadded

theorem ownVotes_spec {os : List COutPoint} (hvote : vote ∈ ownVotes crypto env h os) :
    vote.outpointMasternode = env.activeMasternode.outpoint := by
  induction os with
  | nil => simp [ownVotes] at hvote
  | cons o os ih =>
    unfold ownVotes at hvote
    cases hown : voteDecision crypto {} env h o with
    | stop => simp [hown] at hvote
    | skip =>
      rw [hown] at hvote
      exact ih hvote
    | sign vote' =>
      rw [hown] at hvote
      rcases mem_cons.mp hvote with rfl | hvote
      · exact (voteDecision_eq_sign hown).2.2.1
      · exact ih hvote

theorem voters_ownVotesFor_subset {o : COutPoint} :
    voters (ownVotesFor crypto env tx) o ⊆ {env.activeMasternode.outpoint} := by
  intro m hm
  obtain ⟨v, hv, -, rfl⟩ := mem_voters.mp hm
  unfold ownVotesFor at hv
  split_ifs at hv
  · exact Finset.mem_singleton.mpr (ownVotes_spec hv)
  · exact absurd hv not_mem_nil

theorem Tallied.voteCandidate (htallied : s.Tallied tx t₀ fun _ => ∅)
    (hcounts : c.Counts tx t₀ fun _ => ∅) (hlocks : c.mapOutPointLocks = inputLocks tx)
    (haccepted : (s.mapLockRequestAccepted.lookup tx.hash).isSome)
    (hapart : HashesApart crypto all) (hall : ∀ v ∈ ownVotesFor crypto env tx, v ∈ all) :
    ∃ W, (s.voteCandidate crypto (env.atTime time) tx.hash c).1.Tallied tx t₀ W ∧
      (∀ o m, m ∈ W o ↔ m ∈ voters (ownVotesFor crypto env tx) o) ∧
      (s.voteCandidate crypto (env.atTime time) tx.hash c).1.mapLockedOutpoints =
        s.mapLockedOutpoints ∧
      (s.Seen crypto all (fun _ => ∅) →
        (s.voteCandidate crypto (env.atTime time) tx.hash c).1.Seen crypto all W) := by
  have hmasternode : (env.atTime time).fMasterNode = env.fMasterNode := rfl
  have henabled : (env.atTime time).instantSendEnabled = env.instantSendEnabled := rfl
  have hnone : (s.mapLockRequestAccepted.lookup tx.hash).isNone = false := by
    rw [← Option.not_isSome, haccepted]
    rfl
  unfold ownVotesFor at hall ⊢
  unfold CInstantSend.voteCandidate
  rw [hmasternode, henabled, hcounts.getHash_eq, hnone]
  cases hboth : env.fMasterNode && env.instantSendEnabled with
  | false =>
    rcases Bool.and_eq_false_iff.mp hboth with hoff | hoff
    · rw [hoff]
      exact ⟨_, htallied, by simp [mem_voters], rfl, fun hseen => hseen⟩
    · rw [hoff, Bool.not_false, if_pos rfl, ite_self]
      exact ⟨_, htallied, by simp [mem_voters], rfl, fun hseen => hseen⟩
  | true =>
    obtain ⟨hon, hon'⟩ := Bool.and_eq_true_iff.mp hboth
    rw [hboth] at hall
    rw [hon, hon', ← hlocks]
    rw [← hlocks] at hall
    have hnodup : (mapOrder c.mapOutPointLocks.keys).Nodup :=
      (perm_insertionSort _ _).nodup_iff.mpr c.mapOutPointLocks.keys_nodup
    have hos : ∀ o ∈ mapOrder c.mapOutPointLocks.keys, o ∈ prevouts (some tx) ∧
          env.activeMasternode.outpoint ∉ (∅ : Finset COutPoint) := by
      intro o ho
      exact ⟨(hcounts.keys o).mp ((mem_insertionSort _).mp ho), Finset.notMem_empty _⟩
    obtain ⟨W, htallied', hmem, hlocked, hseen⟩ :=
      htallied.voteLoop hapart time hnodup hos hall
    exact ⟨W, htallied', fun o m => by simpa using hmem o m, hlocked, hseen⟩

theorem Tallied.ownVotes_counted (htallied : s.Tallied tx t₀ fun _ => ∅)
    (hc : s.mapTxLockCandidates.lookup tx.hash = some c)
    (hlocks : c.mapOutPointLocks = inputLocks tx)
    (haccepted : (s.mapLockRequestAccepted.lookup tx.hash).isSome)
    (hunlocked : ∀ o ∈ prevouts (some tx), s.mapLockedOutpoints.lookup o = none)
    (hapart : HashesApart crypto all) (hall : ∀ v ∈ ownVotesFor crypto env tx, v ∈ all) :
    ∃ W, (s.vote crypto (env.atTime time) tx.hash).1.Tallied tx t₀ W ∧
      (s.vote crypto (env.atTime time) tx.hash).1.Settled tx W ∧
      (∀ o m, m ∈ W o ↔ m ∈ voters (ownVotesFor crypto env tx) o) ∧
      (s.Seen crypto all (fun _ => ∅) →
        (s.vote crypto (env.atTime time) tx.hash).1.Seen crypto all W) := by
  obtain ⟨c', hc', hcounts⟩ := htallied.candidate
  obtain rfl : c = c' := Option.some.inj (hc.symm.trans hc')
  obtain ⟨W, hW, hmem, hlocked, hseen⟩ :=
    htallied.voteCandidate hcounts hlocks haccepted hapart hall
  have hfew : ¬W.Enough tx := Tally.not_enough_of_subset env.activeMasternode.outpoint
    fun o m hm => voters_ownVotesFor_subset ((hmem o m).mp hm)
  have hvote : (s.vote crypto (env.atTime time) tx.hash).1 =
      (s.voteCandidate crypto (env.atTime time) tx.hash c).1 := by
    obtain ⟨c₁, hc₁, hcounts₁⟩ := hW.candidate
    have hready : c₁.isAllOutPointsReady = false := by
      rw [← Bool.not_eq_true, hcounts₁.ready_iff]
      exact hfew
    unfold vote finalizeNow
    rw [hc]
    dsimp only
    rw [hc₁]
    exact tryToFinalizeLockCandidate_of_not_ready hready
  rw [hvote]
  refine ⟨W, hW, fun o ho => ?_, hmem, hseen⟩
  rw [hlocked, hunlocked o ho]
  simp [hfew]

/-! ## Deliveries -/

/-- Votes before and after a lock request, with the times at which they come. -/
structure Delivery where
  before : List (ℤ × CTxLockVote)
  requestTime : ℤ
  verdictTime : ℤ
  after : List (ℤ × CTxLockVote)

/-- The steps that a node takes; the transaction is in the mempool after the verdict. -/
def Delivery.steps (env : InstantSendEnv) (tx : CTransaction) (d : Delivery) :
    List InstantSendStep :=
  voteSteps env d.before ++ (⟨env.atTime d.requestTime, .txLockRequest tx⟩ ::
      ⟨env.atTime d.verdictTime, .verdict tx⟩ :: voteSteps (env.withTx tx) d.after)

/-- The votes come in some order, all within the timeout. -/
structure Delivery.Of (votes : List CTxLockVote) (t₀ : ℤ) (d : Delivery) : Prop where
  perm : List.Perm ((d.before ++ d.after).map (·.2)) votes
  times : ∀ time ∈ d.requestTime :: d.verdictTime :: (d.before ++ d.after).map (·.1),
    t₀ ≤ time ∧ time ≤ t₀ + instantsendLockTimeoutSeconds

/-- A lock request and votes for it that are new to the node, with nothing in their way. -/
structure Deliverable (crypto : LockCrypto) (env : InstantSendEnv) (tx : CTransaction)
    (votes : List CTxLockVote) (s : CInstantSend) : Prop where
  request : isValid (some tx) env
  accepted : env.acceptToMemoryPool tx = .accepted
  pool : ∀ o ∈ prevouts (some tx), env.mapNextTx o = none
  valid : ∀ v ∈ votes, VoteFor crypto env tx v
  apart : HashesApart crypto (votes ++ ownVotesFor crypto env tx)
  notTx : ∀ v ∈ votes, v.getHash crypto ≠ tx.hash
  unseen : ∀ v ∈ votes ++ ownVotesFor crypto env tx,
    s.mapTxLockVotes.lookup (v.getHash crypto) = none
  noCandidate : s.mapTxLockCandidates.lookup tx.hash = none
  unknown : s.alreadyHave tx.hash = false
  voted : ∀ o ∈ prevouts (some tx), s.votedFor o = []
  unlocked : ∀ o ∈ prevouts (some tx), s.mapLockedOutpoints.lookup o = none

theorem getUTXOCoin_of_isValid (hvalid : isValid (some tx) env)
    {o : COutPoint} (ho : o ∈ prevouts (some tx)) : (env.getUTXOCoin o).isSome := by
  have hloop : ∀ (vin : List CTxIn) (value nValueIn : CAmount),
      valueInLoop env vin value = some nValueIn →
      ∀ txin ∈ vin, (env.getUTXOCoin txin.prevout).isSome := by
    intro vin
    induction vin with
    | nil => exact fun _ _ _ txin htxin => absurd htxin not_mem_nil
    | cons txin vin ih =>
      intro value nValueIn hvalue
      unfold valueInLoop at hvalue
      cases hcoin : env.getUTXOCoin txin.prevout with
      | none => simp [hcoin] at hvalue
      | some coin =>
        simp only [hcoin] at hvalue
        split_ifs at hvalue
        rintro txin' (_ | ⟨_, htxin'⟩)
        · rw [hcoin]
          rfl
        · exact ih _ _ hvalue txin' htxin'
  obtain ⟨txin, htxin, rfl⟩ := mem_map.mp ho
  unfold isValid at hvalid
  dsimp only at hvalid
  cases hvalue : valueInLoop env tx.vin 0 with
  | none => simp [hvalue] at hvalid
  | some nValueIn => exact hloop tx.vin 0 nValueIn hvalue txin htxin

theorem acceptToMemoryPool_eq_accepted
    (hunlocked : ∀ o ∈ prevouts (some tx), s.mapLockedOutpoints.lookup o = none)
    (hpool : ∀ o ∈ prevouts (some tx), env.mapNextTx o = none)
    (haccepted : env.acceptToMemoryPool tx = .accepted) :
    s.acceptToMemoryPool env tx = .accepted := by
  have hlocks : (tx.vin.any fun txin => (s.mapLockedOutpoints.lookup txin.prevout).any
      fun hashLocked => tx.hash ≠ hashLocked) = false :=
    any_eq_false.mpr fun txin htxin => by
      simp [hunlocked txin.prevout (mem_map_of_mem htxin)]
  have hnext : (tx.vin.any fun txin => (env.mapNextTx txin.prevout).any
      fun hashConflicting => s.hasTxLockRequest hashConflicting ||
        s.hasTxLockRequest tx.hash) = false :=
    any_eq_false.mpr fun txin htxin => by
      simp [hpool txin.prevout (mem_map_of_mem htxin)]
  rw [acceptToMemoryPool, hlocks, hnext]
  exact haccepted

theorem Waiting.accepted (hwaiting : s.Waiting tx t₀) (hvalid : isValid (some tx) env)
    (haccepted : env.acceptToMemoryPool tx = .accepted)
    (hpool : ∀ o ∈ prevouts (some tx), env.mapNextTx o = none) (hapart : HashesApart crypto all)
    (hall : ∀ v ∈ ownVotesFor crypto env tx, v ∈ all) (time' : ℤ)
    (htime : t₀ ≤ time) (hlate : time ≤ t₀ + instantsendLockTimeoutSeconds) :
    let t := (s.next crypto ⟨env.atTime time, .txLockRequest tx⟩).next crypto
      ⟨env.atTime time', .verdict tx⟩
    ∃ W, t.Tallied tx t₀ W ∧ t.Settled tx W ∧
      (∀ o m, m ∈ W o ↔ m ∈ voters (ownVotesFor crypto env tx) o) ∧
      (s.Seen crypto all (fun _ => ∅) → t.Seen crypto all W) := by
  obtain ⟨c, hrequested, hcounts, hlocks⟩ :
      ∃ c, s.next crypto ⟨env.atTime time, .txLockRequest tx⟩ = s.setCandidate tx.hash c ∧
        c.Counts tx t₀ (fun _ => ∅) ∧ c.mapOutPointLocks = inputLocks tx :=
    hwaiting.processTxLockRequest (isValid_atTime.trans hvalid) htime hlate
  rw [hrequested]
  set t' := s.setCandidate tx.hash c
  have hverdict : t'.next crypto ⟨env.atTime time', .verdict tx⟩ =
      ((t'.acceptLockRequest tx).vote crypto (env.atTime time')
        tx.hash).1 := by
    have hunknown : t'.alreadyHave tx.hash = false := hwaiting.unknown
    have hmempool : t'.acceptToMemoryPool (env.atTime time') tx = .accepted :=
      acceptToMemoryPool_eq_accepted hwaiting.unlocked hpool haccepted
    unfold next step processVerdict
    dsimp only
    rw [hunknown, hmempool]
    rfl
  rw [hverdict]
  have htallied : (t'.acceptLockRequest tx).Tallied tx t₀ fun _ => ∅ := by
    refine ⟨⟨c, lookup_setCandidate_self .., hcounts⟩, fun o ho k hk => ?_, fun o ho k hk => ?_⟩
    · have hnone := hwaiting.voted o ho
      exact absurd (hnone ▸ hk : k ∈ []) not_mem_nil
    · have hnone := hwaiting.unlocked o ho
      exact absurd (hnone.symm.trans hk) (by simp)
  refine htallied.ownVotes_counted (lookup_setCandidate_self ..) hlocks ?_
    hwaiting.unlocked hapart hall
  simp [acceptLockRequest, lookup_insertNew]

theorem Deliverable.run
    (hdeliverable : Deliverable crypto env tx votes s) {d : Delivery} (hd : d.Of votes t₀) :
    ∃ W, (runSteps crypto s (d.steps env tx)).Tallied tx t₀ W ∧
      (runSteps crypto s (d.steps env tx)).Settled tx W ∧
      (∀ o, W o ⊆ voters (ownVotesFor crypto env tx) o ∪ voters (d.after.map (·.2)) o) ∧
      (env.takesVotes = false → ∀ o, W o ⊆ voters (ownVotesFor crypto env tx) o) ∧
      (env.takesVotes → d.before = [] → ∀ o,
        voters (ownVotesFor crypto env tx) o ∪ voters (d.after.map (·.2)) o ⊆ W o) := by
  have htime : ∀ p ∈ d.before ++ d.after,
      t₀ ≤ p.1 ∧ p.1 ≤ t₀ + instantsendLockTimeoutSeconds := fun p hp =>
    hd.times p.1 (mem_cons_of_mem _ (mem_cons_of_mem _ (mem_map_of_mem hp)))
  have hmem : ∀ p ∈ d.before ++ d.after, p.2 ∈ votes := fun p hp =>
    hd.perm.mem_iff.mp (mem_map_of_mem hp)
  have hbefore : ∀ p ∈ d.before, p ∈ d.before ++ d.after :=
    fun p hp => mem_append_left _ hp
  have hafter : ∀ p ∈ d.after, p ∈ d.before ++ d.after :=
    fun p hp => mem_append_right _ hp
  have hwaiting : s.Waiting tx t₀ :=
    ⟨fun c hc => absurd (hdeliverable.noCandidate.symm.trans hc) (by simp),
      hdeliverable.unknown, hdeliverable.voted, hdeliverable.unlocked⟩
  have hwaiting' : (runSteps crypto s (voteSteps env d.before)).Waiting tx t₀ :=
    hwaiting.runSteps (fun p hp => (htime p (hbefore p hp)).1)
      (fun p hp => (hdeliverable.valid _ (hmem p (hbefore p hp))).txHash)
      (fun p hp => hdeliverable.notTx _ (hmem p (hbefore p hp)))
  obtain ⟨hrequest, hlate⟩ := hd.times d.requestTime mem_cons_self
  obtain ⟨V, htallied, hsettled, hown, hseen⟩ := hwaiting'.accepted hdeliverable.request
    hdeliverable.accepted hdeliverable.pool hdeliverable.apart
    (fun v hv => mem_append_right votes hv) d.verdictTime hrequest hlate
  have hfree : Undisturbed tx (env.withTx tx) := by
    refine ⟨fun o ho => getUTXOCoin_of_isValid hdeliverable.request ho, fun o ho k hk => ?_⟩
    simpa [InstantSendEnv.withTx, ho, eq_comm] using hk
  obtain ⟨W, htallied', hsettled', hsub, hupper, hoff, hlower⟩ :=
    htallied.runSteps hsettled hfree hdeliverable.apart (fun p hp => (htime p (hafter p hp)).2)
      (fun p hp => have hvalid := hdeliverable.valid _ (hmem p (hafter p hp))
        ⟨hvalid.valid, hvalid.txHash, hvalid.outpoint⟩)
      (fun p hp => mem_append_left _ (hmem p (hafter p hp)))
  have hV : V = voters (ownVotesFor crypto env tx) := by
    funext o
    ext m
    exact hown o m
  have hrun : runSteps crypto s (d.steps env tx) = _ := foldl_append
  rw [hrun]
  refine ⟨W, htallied', hsettled', hV ▸ hupper, hV ▸ hoff, fun htakes hnone o m hm => ?_⟩
  rcases Finset.mem_union.mp hm with hm | hm
  · exact hsub o (hV ▸ hm)
  · refine hlower htakes (hseen fun v hv hsome => ?_) o hm
    rw [hnone] at hsome
    simp [voteSteps, runSteps, hdeliverable.unseen v hv] at hsome

def EnoughVotes (crypto : LockCrypto) (env : InstantSendEnv) (tx : CTransaction)
    (votes : List CTxLockVote) : Prop :=
  env.takesVotes ∧ (voters (ownVotesFor crypto env tx ++ votes)).Enough tx

theorem voters_append {votes' : List CTxLockVote} {o : COutPoint} :
    voters (votes ++ votes') o = voters votes o ∪ voters votes' o := by
  ext m
  simp [mem_voters, or_and_right, exists_or]

theorem Delivery.Of.at_once {d : Delivery}
    (hperm : List.Perm ((d.before ++ d.after).map (·.2)) votes) (hrequest : d.requestTime = t₀)
    (hverdict : d.verdictTime = t₀)
    (htimes : ∀ time ∈ (d.before ++ d.after).map (·.1), time = t₀) : d.Of votes t₀ := by
  have hall : ∀ time ∈ d.requestTime :: d.verdictTime :: (d.before ++ d.after).map (·.1),
      time = t₀ :=
    forall_mem_cons.mpr ⟨hrequest, forall_mem_cons.mpr ⟨hverdict, htimes⟩⟩
  refine ⟨hperm, fun time htime => ?_⟩
  rw [hall time htime]
  exact ⟨le_rfl, by simp [instantsendLockTimeoutSeconds]⟩

/-- The order in which a lock request and its votes come makes no difference to whether the
transaction gets locked if and only if there are not enough votes to lock it. -/
theorem deliveries_agree_iff (crypto : LockCrypto) (env : InstantSendEnv) (tx : CTransaction)
    (votes : List CTxLockVote) (t₀ : ℤ) (s : CInstantSend)
    (hdeliverable : Deliverable crypto env tx votes s) :
    (∀ d d' : Delivery, d.Of votes t₀ → d'.Of votes t₀ →
      (runSteps crypto s (d.steps env tx)).locksAll tx.hash =
        (runSteps crypto s (d'.steps env tx)).locksAll tx.hash) ↔
      ¬EnoughVotes crypto env tx votes := by
  constructor
  · rintro hagree ⟨htakes, henough⟩
    have hfirst : Delivery.Of votes t₀ ⟨[], t₀, t₀, votes.map fun v => (t₀, v)⟩ :=
      .at_once (by simp) rfl rfl (by simp)
    have hlast : Delivery.Of votes t₀ ⟨votes.map fun v => (t₀, v), t₀, t₀, []⟩ :=
      .at_once (by simp) rfl rfl (by simp)
    have hsame := hagree _ _ hfirst hlast
    obtain ⟨W, htallied, hsettled, -, -, hlower⟩ := hdeliverable.run hfirst
    obtain ⟨W', htallied', hsettled', hupper', -, -⟩ := hdeliverable.run hlast
    have hlocked := (htallied.locksAll_iff hsettled).mpr
      (henough.mono fun o => by simpa [voters_append] using hlower htakes rfl o)
    rw [hlocked] at hsame
    -- The votes that came first are not counted.
    have hfew : ¬W'.Enough tx :=
      Tally.not_enough_of_subset env.activeMasternode.outpoint fun o m hm => by
        have hm' : m ∈ voters (ownVotesFor crypto env tx) o := by
          simpa [mem_voters] using hupper' o hm
        exact voters_ownVotesFor_subset hm'
    exact hfew ((htallied'.locksAll_iff hsettled').mp hsame.symm)
  · intro hfew
    have hunlocked : ∀ d : Delivery, d.Of votes t₀ →
        (runSteps crypto s (d.steps env tx)).locksAll tx.hash = false := by
      intro d hd
      obtain ⟨W, htallied, hsettled, hupper, hoff, -⟩ := hdeliverable.run hd
      rw [← Bool.not_eq_true, htallied.locksAll_iff hsettled]
      intro henough
      cases htakes : env.takesVotes with
      | false =>
        exact Tally.not_enough_of_subset env.activeMasternode.outpoint
          (fun o => (hoff htakes o).trans voters_ownVotesFor_subset) henough
      | true =>
        refine hfew ⟨htakes, henough.mono fun o m hm => ?_⟩
        rw [voters_append, Finset.mem_union]
        rcases Finset.mem_union.mp (hupper o hm) with hm | hm
        · exact .inl hm
        · obtain ⟨v, hv, hvo⟩ := mem_voters.mp hm
          refine .inr (mem_voters.mpr ⟨v, hd.perm.mem_iff.mp ?_, hvo⟩)
          rw [List.map_append]
          exact List.mem_append_right _ hv
    intro d d' hd hd'
    rw [hunlocked d hd, hunlocked d' hd']

def lockVotes (ms : List UInt32) : List CTxLockVote := ms.map fun m => voteOf m 101 0

theorem deliverable_lockVotes {ms : List UInt32}
    (hvalid : ∀ v ∈ lockVotes ms, v.isValid plainLockCrypto lockingEnv)
    (hapart : HashesApart plainLockCrypto (lockVotes ms))
    (hnotTx : ∀ v ∈ lockVotes ms, v.getHash plainLockCrypto ≠ 101) :
    Deliverable plainLockCrypto lockingEnv (spending 101 [0]) (lockVotes ms) {} where
  request := by decide +kernel
  accepted := rfl
  pool := fun _ _ => rfl
  valid := by
    intro v hv
    have hfields : v.txHash = 101 ∧ v.outpoint = ⟨5, 0⟩ := by
      obtain ⟨m, -, rfl⟩ := mem_map.mp hv
      exact ⟨rfl, rfl⟩
    exact ⟨hvalid v hv, hfields.1, by simp [hfields.2, spending, prevouts]⟩
  apart := by simpa [ownVotesFor, lockingEnv] using hapart
  notTx := hnotTx
  unseen := fun _ _ => rfl
  noCandidate := rfl
  unknown := rfl
  voted := fun _ _ => rfl
  unlocked := fun _ _ => rfl

theorem deliveries_agree_five :
    Deliverable plainLockCrypto lockingEnv (spending 101 [0]) (lockVotes [0, 1, 2, 3, 4]) {} ∧
      ∀ d d' : Delivery, d.Of (lockVotes [0, 1, 2, 3, 4]) 1530000000 →
        d'.Of (lockVotes [0, 1, 2, 3, 4]) 1530000000 →
        (runSteps plainLockCrypto {} (d.steps lockingEnv (spending 101 [0]))).locksAll 101 =
          (runSteps plainLockCrypto {}
            (d'.steps lockingEnv (spending 101 [0]))).locksAll 101 := by
  have hdeliverable : Deliverable plainLockCrypto lockingEnv (spending 101 [0])
      (lockVotes [0, 1, 2, 3, 4]) {} :=
    deliverable_lockVotes (by decide +kernel) (by unfold HashesApart; decide +kernel)
      (by decide +kernel)
  refine ⟨hdeliverable, (deliveries_agree_iff plainLockCrypto lockingEnv (spending 101 [0])
    (lockVotes [0, 1, 2, 3, 4]) 1530000000 {} hdeliverable).mpr ?_⟩
  rintro ⟨-, -, hcard⟩
  have hfive : (voters (ownVotesFor plainLockCrypto lockingEnv (spending 101 [0]) ++
      lockVotes [0, 1, 2, 3, 4]) ⟨5, 0⟩).card = 5 := by
    decide +kernel
  have hsix := hcard ⟨5, 0⟩ (by decide +kernel)
  exact absurd hsix (by decide)

/-- Six votes lock the transaction if they come after the request, and not if they come
before it. -/
theorem deliveries_disagree : let votes := lockVotes [0, 1, 2, 3, 4, 5]
    let requestFirst : Delivery :=
      ⟨[], 1530000000, 1530000000, votes.map fun v => (1530000000, v)⟩
    let votesFirst : Delivery :=
      ⟨votes.map fun v => (1530000000, v), 1530000000, 1530000000, []⟩
    Deliverable plainLockCrypto lockingEnv (spending 101 [0]) votes {} ∧
      requestFirst.Of votes 1530000000 ∧ votesFirst.Of votes 1530000000 ∧
      (runSteps plainLockCrypto {}
        (requestFirst.steps lockingEnv (spending 101 [0]))).locksAll 101 ∧
      (runSteps plainLockCrypto {}
        (votesFirst.steps lockingEnv (spending 101 [0]))).locksAll 101 = false :=
  ⟨deliverable_lockVotes (by decide +kernel) (by unfold HashesApart; decide +kernel)
      (by decide +kernel),
    .at_once (by simp) rfl rfl (by simp), .at_once (by simp) rfl rfl (by simp),
    by decide +kernel, by decide +kernel⟩

end CInstantSend
end ImageCoin
