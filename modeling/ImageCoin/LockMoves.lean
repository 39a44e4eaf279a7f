import ImageCoin.InstantSendCalls

/-!
# What a call does to the locks

A call of InstantSend first prepares a transaction (its candidate is created, gets its request
or a vote, candidates are marked as attacked, the voted outpoints are recorded), and may then
try to lock it, which can end in a lock or in both of two conflicting candidates being dropped.
-/

namespace ImageCoin

open MapEntries Relation List AList
variable {o o' : COutPoint} {txHash hash : UInt256}

/-! ## Candidates -/

namespace CTxLockCandidate

variable {c c' : CTxLockCandidate} {o : COutPoint} {vote : CTxLockVote}

theorem lookup_addOutPointLocks (c : CTxLockCandidate) (prevouts : List COutPoint) (o : COutPoint) :
    (c.addOutPointLocks prevouts).mapOutPointLocks.lookup o =
      if o ∈ prevouts then some ((c.mapOutPointLocks.lookup o).getD { outpoint := o })
      else c.mapOutPointLocks.lookup o := by
  unfold addOutPointLocks
  have hmem : o ∈ prevouts ↔ o ∈ prevouts.reverse := mem_reverse.symm
  simp only [hmem]
  induction prevouts.reverse generalizing c with
  | nil => simp
  | cons p ps ih =>
    rw [foldl_cons, ih, addOutPointLock, lookup_insertNew]
    by_cases heq : o = p
    · subst heq
      simp
    · simp [heq]

theorem foldl_addOutPointLock_fields (c : CTxLockCandidate) (ps : List COutPoint) :
    (ps.foldl addOutPointLock c).txLockRequest = c.txLockRequest ∧
      (ps.foldl addOutPointLock c).nConfirmedHeight = c.nConfirmedHeight ∧
      (ps.foldl addOutPointLock c).nTimeCreated = c.nTimeCreated := by
  induction ps generalizing c with
  | nil => exact ⟨rfl, rfl, rfl⟩
  | cons p ps ih => exact ih (c.addOutPointLock p)

variable {prevouts : List COutPoint}

@[simp] theorem txLockRequest_addOutPointLocks :
    (c.addOutPointLocks prevouts).txLockRequest = c.txLockRequest :=
  (foldl_addOutPointLock_fields c _).1

@[simp] theorem nConfirmedHeight_addOutPointLocks :
    (c.addOutPointLocks prevouts).nConfirmedHeight = c.nConfirmedHeight :=
  (foldl_addOutPointLock_fields c _).2.1

@[simp] theorem nTimeCreated_addOutPointLocks :
    (c.addOutPointLocks prevouts).nTimeCreated = c.nTimeCreated :=
  (foldl_addOutPointLock_fields c _).2.2

theorem lookup_markOutpointAsAttacked : (c.markOutpointAsAttacked o).mapOutPointLocks.lookup o' =
    if o' = o then (c.mapOutPointLocks.lookup o).map COutPointLock.markAsAttacked
    else c.mapOutPointLocks.lookup o' :=
  lookup_adjust _ _ _ _

theorem addVote_eq_some (hadd : c.addVote vote = some c') :
    ∃ lock, c.mapOutPointLocks.lookup vote.outpoint = some lock ∧
      lock.mapMasternodeVotes.lookup vote.outpointMasternode = none ∧
      c' = { c with
        mapOutPointLocks := c.mapOutPointLocks.insert vote.outpoint
          { lock with
            mapMasternodeVotes :=
              lock.mapMasternodeVotes.insert vote.outpointMasternode vote } } := by
  unfold addVote at hadd
  cases hlock : c.mapOutPointLocks.lookup vote.outpoint with
  | none => simp [hlock] at hadd
  | some lock =>
    cases hvoted : lock.mapMasternodeVotes.lookup vote.outpointMasternode with
    | some old => simp [hlock, COutPointLock.addVote, hvoted] at hadd
    | none =>
      refine ⟨lock, rfl, hvoted, ?_⟩
      simpa [hlock, COutPointLock.addVote, hvoted] using hadd.symm

theorem isAllOutPointsReady_iff : c.isAllOutPointsReady ↔ (∃ o, o ∈ c.mapOutPointLocks.keys) ∧
    ∀ o lock, c.mapOutPointLocks.lookup o = some lock → lock.isReady := by
  unfold isAllOutPointsReady
  rw [Bool.and_eq_true, all_eq_true]
  refine and_congr ?_ ?_
  · rw [Bool.not_eq_true', isEmpty_eq_false_iff_exists_mem]
    constructor
    · rintro ⟨e, he⟩
      exact ⟨e.1, mem_map_of_mem he⟩
    · rintro ⟨o, ho⟩
      obtain ⟨e, he, -⟩ := mem_map.mp ho
      exact ⟨e, he⟩
  · constructor
    · intro hall o lock hlock
      exact hall ⟨o, lock⟩ (mem_lookup_iff.mp hlock)
    · intro hall e he
      exact hall e.1 e.2 (mem_lookup_iff.mpr he)

/-- No vote of a candidate is lost. -/
def Grows (c c' : CTxLockCandidate) : Prop :=
  ∀ o lock, c.mapOutPointLocks.lookup o = some lock →
    ∃ lock', c'.mapOutPointLocks.lookup o = some lock' ∧
      lock.mapMasternodeVotes.entries.length ≤ lock'.mapMasternodeVotes.entries.length ∧
      ∀ m v, lock.mapMasternodeVotes.lookup m = some v →
        lock'.mapMasternodeVotes.lookup m = some v

theorem Grows.refl (c : CTxLockCandidate) : c.Grows c :=
  fun _ lock hlock => ⟨lock, hlock, le_rfl, fun _ _ hv => hv⟩

theorem Grows.hasMasternodeVoted (h : c.Grows c') {m : COutPoint}
    (hvoted : c.hasMasternodeVoted o m) : c'.hasMasternodeVoted o m := by
  unfold CTxLockCandidate.hasMasternodeVoted at hvoted ⊢
  cases hlock : c.mapOutPointLocks.lookup o with
  | none => simp [hlock] at hvoted
  | some lock =>
    obtain ⟨lock', hlock', -, hvotes⟩ := h o lock hlock
    simp only [hlock, hlock', COutPointLock.hasMasternodeVoted] at hvoted ⊢
    obtain ⟨v, hv⟩ := Option.isSome_iff_exists.mp hvoted
    rw [hvotes m v hv]
    rfl

theorem grows_addOutPointLocks {request : CTxLockRequest} :
    c.Grows ({ c with txLockRequest := request }.addOutPointLocks prevouts) := by
  intro o lock hlock
  refine ⟨lock, ?_, le_rfl, fun _ _ hv => hv⟩
  rw [lookup_addOutPointLocks]
  simp [hlock]

theorem grows_markOutpointAsAttacked : c.Grows (c.markOutpointAsAttacked o) := by
  intro o' lock hlock
  rw [lookup_markOutpointAsAttacked]
  by_cases heq : o' = o
  · subst heq
    exact ⟨lock.markAsAttacked, by simp [hlock], le_rfl, fun _ _ hv => hv⟩
  · exact ⟨lock, by simp [heq, hlock], le_rfl, fun _ _ hv => hv⟩

variable (hadd : c.addVote vote = some c')
include hadd

theorem grows_addVote : c.Grows c' := by
  obtain ⟨lock₀, hlock₀, hfresh, rfl⟩ := addVote_eq_some hadd
  intro o lock hlock
  simp only [lookup_insert_eq]
  by_cases heq : o = vote.outpoint
  · subst heq
    obtain rfl : lock₀ = lock := Option.some.inj (hlock₀.symm.trans hlock)
    refine ⟨_, if_pos rfl, ?_, ?_⟩
    · have hnotMem : vote.outpointMasternode ∉ lock₀.mapMasternodeVotes :=
        lookup_eq_none.mp hfresh
      rw [entries_insert_of_notMem hnotMem]
      exact Nat.le_succ _
    · intro m v hv
      have hne : m ≠ vote.outpointMasternode := by
        rintro rfl
        simp [hfresh] at hv
      rw [lookup_insert_eq, if_neg hne, hv]
  · exact ⟨lock, by rw [if_neg heq, hlock], le_rfl, fun _ _ hv => hv⟩

theorem mem_keys_addVote : o ∈ c'.mapOutPointLocks.keys ↔ o ∈ c.mapOutPointLocks.keys := by
  obtain ⟨lock, hlock, -, rfl⟩ := addVote_eq_some hadd
  rw [mem_keys_iff, mem_keys_iff]
  by_cases heq : o = vote.outpoint
  · subst heq
    simp [hlock]
  · simp [heq]

omit hadd in
theorem mem_keys_markOutpointAsAttacked :
    o ∈ (c.markOutpointAsAttacked o').mapOutPointLocks.keys ↔ o ∈ c.mapOutPointLocks.keys := by
  rw [mem_keys_iff, mem_keys_iff, lookup_markOutpointAsAttacked]
  by_cases heq : o = o'
  · subst heq
    cases c.mapOutPointLocks.lookup o with
    | none => simp
    | some lock => simp
  · simp [heq]

theorem fields_addVote :
    c'.txLockRequest = c.txLockRequest ∧ c'.nConfirmedHeight = c.nConfirmedHeight ∧
      c'.nTimeCreated = c.nTimeCreated := by
  obtain ⟨lock, -, -, rfl⟩ := addVote_eq_some hadd
  exact ⟨rfl, rfl, rfl⟩

end CTxLockCandidate

/-- A change of the candidate under a key while the transaction `h` is prepared. -/
inductive CandidateMove (valid : CTxLockVote → Prop) (h : UInt256) :
    UInt256 → Option CTxLockCandidate → CTxLockCandidate → Prop where
  | created (time : ℤ) :
      CandidateMove valid h h none { nTimeCreated := time, txLockRequest := none }
  /-- The request came too late. -/
  | stored {c : CTxLockCandidate} {tx : CTransaction} (hempty : c.txLockRequest = none)
      (hhash : tx.hash = h) :
      CandidateMove valid h h (some c) { c with txLockRequest := some tx }
  | filled {c : CTxLockCandidate} {tx : CTransaction} (hempty : c.txLockRequest = none)
      (hhash : tx.hash = h) :
      CandidateMove valid h h (some c)
        ({ c with txLockRequest := some tx }.addOutPointLocks
          (CTxLockRequest.prevouts (some tx)))
  | voted {c c' : CTxLockCandidate} {vote : CTxLockVote} (hvalid : valid vote)
      (hhash : vote.txHash = h) (hadd : c.addVote vote = some c') :
      CandidateMove valid h h (some c) c'
  | attacked {k : UInt256} {c : CTxLockCandidate} (o : COutPoint) :
      CandidateMove valid h k (some c) (c.markOutpointAsAttacked o)

namespace CInstantSend

theorem lookup_setCandidate (s : CInstantSend) (k : UInt256) (c : CTxLockCandidate) (k' : UInt256) :
    (s.setCandidate k c).mapTxLockCandidates.lookup k' =
      if k' = k then some c else s.mapTxLockCandidates.lookup k' :=
  lookup_insert_eq _ _ _ _

def votedFor (s : CInstantSend) (o : COutPoint) : List UInt256 :=
  (s.mapVotedOutpoints.lookup o).getD []

/-- A change that is not to the locks, while the transaction `h` is prepared.  A vote is
counted once the outpoint is recorded as voted for. -/
inductive Prep (valid : CTxLockVote → Prop) (h : UInt256) :
    CInstantSend → CInstantSend → Prop where
  | candidate {s : CInstantSend} {k : UInt256} {c : CTxLockCandidate}
      (hmove : CandidateMove (fun v => valid v ∧ h ∈ s.votedFor v.outpoint) h k
        (s.mapTxLockCandidates.lookup k) c) :
      Prep valid h s (s.setCandidate k c)
  | recorded {s : CInstantSend} (o : COutPoint) : Prep valid h s (s.recordVoted o h)
  | accepted {s : CInstantSend} (tx : CTransaction) : Prep valid h s (s.acceptLockRequest tx)
  | rejected {s : CInstantSend} (tx : CTransaction) : Prep valid h s (s.rejectLockRequest tx)
  /-- Stored votes and the rates of orphan votes. -/
  | books {s : CInstantSend} (votes orphans : Map UInt256 CTxLockVote) (times : Map COutPoint ℤ) :
      Prep valid h s { s with
        mapTxLockVotes := votes
        mapTxLockVotesOrphan := orphans
        mapMasternodeOrphanVotes := times }

abbrev Preps (valid : CTxLockVote → Prop) (h : UInt256) : CInstantSend → CInstantSend → Prop :=
  ReflTransGen (Prep valid h)

/-- What becomes of a prepared candidate that is tried. -/
inductive Finalized (env : InstantSendEnv) (s : CInstantSend) (c : CTxLockCandidate) :
    CInstantSend → Prop where
  | same : Finalized env s c s
  | locked (hready : c.isAllOutPointsReady)
      (hfree : ∀ o ∈ c.txLockRequest.prevouts, ∀ h, s.mapLockedOutpoints.lookup o = some h →
        h = c.getHash) :
      Finalized env s c { s with
        mapLockedOutpoints :=
          insertAllNew s.mapLockedOutpoints c.mapOutPointLocks.keys c.getHash }
  | dropped {o : COutPoint} {hash : UInt256} {own other : CTxLockCandidate}
      (hready : c.isAllOutPointsReady) (ho : o ∈ c.txLockRequest.prevouts)
      (hlocked : s.mapLockedOutpoints.lookup o = some hash) (hne : hash ≠ c.getHash)
      (hown : s.mapTxLockCandidates.lookup c.getHash = some own)
      (hother : s.mapTxLockCandidates.lookup hash = some other) :
      Finalized env s c (s.dropBoth env c.getHash hash own other)

theorem mempoolConflict_ne_completedLock {env : InstantSendEnv} :
    mempoolConflict env txHash o ≠ some (.completedLock hash) := by
  unfold mempoolConflict
  split
  · split_ifs <;> simp
  · simp

variable {env : InstantSendEnv} {s : CInstantSend} {o : COutPoint}

theorem conflictAt_eq_none {h : UInt256} (hnone : s.conflictAt env txHash o = none)
    (hlocked : s.mapLockedOutpoints.lookup o = some h) : h = txHash := by
  by_contra hne
  simp [conflictAt, hlocked, Ne.symm hne] at hnone

theorem conflictAt_eq_completedLock
    (hsome : s.conflictAt env txHash o = some (.completedLock hash)) :
    hash ≠ txHash ∧ s.mapLockedOutpoints.lookup o = some hash := by
  unfold conflictAt at hsome
  cases hlocked : s.mapLockedOutpoints.lookup o with
  | none =>
    exact absurd (by simpa [hlocked] using hsome) mempoolConflict_ne_completedLock
  | some hash' =>
    by_cases heq : txHash = hash'
    · exact absurd (by simpa [hlocked, heq] using hsome) mempoolConflict_ne_completedLock
    · obtain rfl : hash' = hash := by simpa [hlocked, heq] using hsome
      exact ⟨fun h => heq h.symm, rfl⟩

theorem finalized (s : CInstantSend) (env : InstantSendEnv) (c : CTxLockCandidate) :
    Finalized env s c (s.tryToFinalizeLockCandidate env c) := by
  unfold tryToFinalizeLockCandidate
  cases henabled : env.instantSendEnabled with
  | false => exact .same
  | true =>
    by_cases htry : (c.isAllOutPointsReady &&
        !s.isLockedInstantSendTransaction env c.getHash)
    swap
    · rw [if_neg htry]
      exact .same
    rw [if_pos htry]
    have hready : c.isAllOutPointsReady := (Bool.and_eq_true_iff.mp htry).1
    have hlock : s.lockTransactionInputs env c = { s with
        mapLockedOutpoints :=
          insertAllNew s.mapLockedOutpoints c.mapOutPointLocks.keys c.getHash } := by
      simp [lockTransactionInputs, henabled, hready]
    unfold resolveConflicts
    simp only [hready]
    cases hconflict : s.findConflict env c.getHash c.txLockRequest.prevouts with
    | none =>
      have hfree : ∀ o ∈ c.txLockRequest.prevouts, ∀ h,
          s.mapLockedOutpoints.lookup o = some h → h = c.getHash := fun o ho h =>
        conflictAt_eq_none (findSome?_eq_none_iff.mp hconflict o ho)
      by_cases hblock : env.includedInBlock c.getHash
      · simp [hblock, hlock]
        exact .locked hready hfree
      · simp [hblock]
        cases c.txLockRequest.prevouts.all fun o => (env.getUTXOCoin o).isSome with
        | true =>
          simp only [hlock]
          exact .locked hready hfree
        | false => exact .same
    | some conflict =>
      cases conflict with
      | mempool => exact .same
      | completedLock hash =>
        obtain ⟨o, ho, hat⟩ := exists_of_findSome?_eq_some hconflict
        obtain ⟨hne, hlocked⟩ := conflictAt_eq_completedLock hat
        dsimp only
        cases hown : s.mapTxLockCandidates.lookup c.getHash with
        | none => exact .same
        | some own =>
          cases hother : s.mapTxLockCandidates.lookup hash with
          | none => exact .same
          | some other => exact .dropped hready ho hlocked hne hown hother

/-! ### Removing expired candidates -/

/-- The next `CheckAndRemove` erases what is stored for the outpoint. -/
def Expiring (s : CInstantSend) (env : InstantSendEnv) (o : COutPoint) : Prop :=
  ∃ h c, s.mapTxLockCandidates.lookup h = some c ∧
    c.isExpired env s.nCachedBlockHeight ∧ o ∈ c.mapOutPointLocks.keys

/-- What `CheckAndRemove` leaves of candidates, locks and voted outpoints. -/
structure Removal (env : InstantSendEnv) (s t : CInstantSend) : Prop where
  candidates : ∀ h c, t.mapTxLockCandidates.lookup h = some c ↔
    s.mapTxLockCandidates.lookup h = some c ∧ c.isExpired env s.nCachedBlockHeight = false
  locked : ∀ o h, t.mapLockedOutpoints.lookup o = some h ↔
    s.mapLockedOutpoints.lookup o = some h ∧ ¬s.Expiring env o
  voted : ∀ o hashes, t.mapVotedOutpoints.lookup o = some hashes ↔
    s.mapVotedOutpoints.lookup o = some hashes ∧ ¬s.Expiring env o
  accepted : ∀ h request, t.mapLockRequestAccepted.lookup h = some request →
    s.mapLockRequestAccepted.lookup h = some request
  rejected : ∀ h request, t.mapLockRequestRejected.lookup h = some request →
    s.mapLockRequestRejected.lookup h = some request

/-- The same for a part of the candidates. -/
structure PartialRemoval (env : InstantSendEnv)
    (visited : List (Sigma fun _ : UInt256 => CTxLockCandidate)) (s t : CInstantSend) :
    Prop where
  candidates : ∀ h c, t.mapTxLockCandidates.lookup h = some c ↔
    s.mapTxLockCandidates.lookup h = some c ∧
      ∀ e ∈ visited, e.1 = h → e.2.isExpired env s.nCachedBlockHeight = false
  locked : ∀ o h, t.mapLockedOutpoints.lookup o = some h ↔
    s.mapLockedOutpoints.lookup o = some h ∧ ∀ e ∈ visited, o ∈ e.2.mapOutPointLocks.keys →
        e.2.isExpired env s.nCachedBlockHeight = false
  voted : ∀ o hashes, t.mapVotedOutpoints.lookup o = some hashes ↔
    s.mapVotedOutpoints.lookup o = some hashes ∧ ∀ e ∈ visited, o ∈ e.2.mapOutPointLocks.keys →
        e.2.isExpired env s.nCachedBlockHeight = false
  accepted : ∀ h request, t.mapLockRequestAccepted.lookup h = some request →
    s.mapLockRequestAccepted.lookup h = some request
  rejected : ∀ h request, t.mapLockRequestRejected.lookup h = some request →
    s.mapLockRequestRejected.lookup h = some request

theorem eq_some_of_lookup_erase {α β : Type} [DecidableEq α] {m : Map α β} {k k' : α}
    {v : β} (hlookup : (m.erase k).lookup k' = some v) : m.lookup k' = some v := by
  rw [lookup_erase_eq] at hlookup
  split_ifs at hlookup
  exact hlookup

theorem removeExpiredLoop_spec (env : InstantSendEnv)
    (candidates : List (Sigma fun _ : UInt256 => CTxLockCandidate)) (s : CInstantSend) :
    PartialRemoval env candidates s (removeExpiredLoop env candidates s) := by
  induction candidates generalizing s with
  | nil => constructor <;> simp [removeExpiredLoop]
  | cons e candidates ih =>
    obtain ⟨key, c⟩ := e
    cases hexpired : c.isExpired env s.nCachedBlockHeight with
    | false =>
      have hloop : removeExpiredLoop env (⟨key, c⟩ :: candidates) s =
          removeExpiredLoop env candidates s := by
        simp [removeExpiredLoop, hexpired]
      rw [hloop]
      obtain ⟨hc, hl, hv, ha, hr⟩ := ih s
      exact ⟨by simp [hc, hexpired], by simp [hl, hexpired], by simp [hv, hexpired], ha, hr⟩
    | true =>
      have hloop : removeExpiredLoop env (⟨key, c⟩ :: candidates) s =
          removeExpiredLoop env candidates (s.removeCandidate key c) := by
        simp [removeExpiredLoop, hexpired]
      rw [hloop]
      set t := s.removeCandidate key c
      obtain ⟨hc, hl, hv, ha, hr⟩ := ih t
      have hheight : t.nCachedBlockHeight = s.nCachedBlockHeight := rfl
      rw [hheight] at hc hl hv
      refine ⟨?_, ?_, ?_, ?_, ?_⟩
      · intro h c'
        have herased : t.mapTxLockCandidates.lookup h =
            if h = key then none else s.mapTxLockCandidates.lookup h :=
          lookup_erase_eq _ _ _
        rw [hc, herased]
        by_cases heq : h = key
        · simp [heq, hexpired]
        · simp [heq, Ne.symm heq]
      · intro o h
        have herased : t.mapLockedOutpoints.lookup o = if o ∈ c.mapOutPointLocks.keys then none
            else s.mapLockedOutpoints.lookup o :=
          lookup_eraseAll _ _ _
        rw [hl, herased]
        by_cases hmem : o ∈ c.mapOutPointLocks.keys
        · simp [hmem, hexpired]
        · simp [hmem]
      · intro o hashes
        have herased : t.mapVotedOutpoints.lookup o = if o ∈ c.mapOutPointLocks.keys then none
            else s.mapVotedOutpoints.lookup o :=
          lookup_eraseAll _ _ _
        rw [hv, herased]
        by_cases hmem : o ∈ c.mapOutPointLocks.keys
        · simp [hmem, hexpired]
        · simp [hmem]
      · exact fun h request hmem => eq_some_of_lookup_erase (ha h request hmem)
      · exact fun h request hmem => eq_some_of_lookup_erase (hr h request hmem)

theorem not_expiring_iff : ¬s.Expiring env o ↔ ∀ e ∈ s.mapTxLockCandidates.entries,
    o ∈ e.2.mapOutPointLocks.keys → e.2.isExpired env s.nCachedBlockHeight = false := by
  constructor
  · intro hnot e he ho
    by_contra hexpired
    exact hnot ⟨e.1, e.2, mem_lookup_iff.mpr he, by simpa using hexpired, ho⟩
  · rintro hall ⟨h, c, hc, hexpired, ho⟩
    have hkept := hall ⟨h, c⟩ (mem_lookup_iff.mp hc) ho
    rw [hexpired] at hkept
    exact Bool.noConfusion hkept

theorem removal_removeExpiredCandidates : Removal env s (s.removeExpiredCandidates env) := by
  obtain ⟨hc, hl, hv, ha, hr⟩ := removeExpiredLoop_spec env s.mapTxLockCandidates.entries s
  refine ⟨?_, ?_, ?_, ha, hr⟩
  · intro h c
    refine (hc h c).trans (and_congr_right fun hlookup => ?_)
    constructor
    · intro hall
      exact hall ⟨h, c⟩ (mem_lookup_iff.mp hlookup) rfl
    · rintro hkept ⟨h', c'⟩ he heq
      obtain rfl : h' = h := heq
      obtain rfl : c = c' :=
        Option.some.inj (hlookup.symm.trans (mem_lookup_iff.mpr he))
      exact hkept
  · intro o h
    rw [not_expiring_iff]
    exact hl o h
  · intro o hashes
    rw [not_expiring_iff]
    exact hv o hashes

theorem checkAndRemove_cases : s.checkAndRemove env = s ∨ Removal env s (s.checkAndRemove env) := by
  unfold checkAndRemove
  cases env.isMasternodeListSynced with
  | false => exact .inl rfl
  | true =>
    right
    obtain ⟨hc, hl, hv, ha, hr⟩ := removal_removeExpiredCandidates
    exact ⟨hc, hl, hv, ha, hr⟩

end CInstantSend
end ImageCoin
