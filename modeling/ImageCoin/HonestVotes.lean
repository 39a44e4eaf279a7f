import ImageCoin.LockSafety

/-!
# Own votes

A masternode signs a vote on an outpoint only if it finds no vote of its own in the candidates
that are recorded for the outpoint.  The record goes with any candidate that has the outpoint.
-/

namespace ImageCoin

open MapEntries Relation StepRuns CTxLockCandidate List Option
variable {steps : List InstantSendStep}

namespace CTxLockCandidate

variable {c c' : CTxLockCandidate} {o m : COutPoint} {vote : CTxLockVote}

theorem hasMasternodeVoted_iff :
    c.hasMasternodeVoted o m ↔ ∃ lock v, c.mapOutPointLocks.lookup o = some lock ∧
      lock.mapMasternodeVotes.lookup m = some v := by
  unfold hasMasternodeVoted COutPointLock.hasMasternodeVoted
  cases c.mapOutPointLocks.lookup o with
  | none => simp
  | some lock => simp [isSome_iff_exists]

theorem mem_keys_of_hasMasternodeVoted (hvoted : c.hasMasternodeVoted o m) :
    o ∈ c.mapOutPointLocks.keys := by
  obtain ⟨lock, -, hlock, -⟩ := hasMasternodeVoted_iff.mp hvoted
  exact (mem_keys_iff _ _).mpr ⟨lock, hlock⟩

theorem hasMasternodeVoted_addVote (hadd : c.addVote vote = some c') :
    c'.hasMasternodeVoted vote.outpoint vote.outpointMasternode := by
  obtain ⟨lock, -, -, rfl⟩ := addVote_eq_some hadd
  exact hasMasternodeVoted_iff.mpr ⟨_, vote, AList.lookup_insert _, AList.lookup_insert _⟩

theorem hasMasternodeVoted_of_addVote_eq_none (ho : vote.outpoint ∈ c.mapOutPointLocks.keys)
    (hadd : c.addVote vote = none) :
    c.hasMasternodeVoted vote.outpoint vote.outpointMasternode := by
  obtain ⟨lock, hlock⟩ := (mem_keys_iff _ _).mp ho
  unfold addVote COutPointLock.addVote at hadd
  simp only [hlock] at hadd
  cases hvoted : lock.mapMasternodeVotes.lookup vote.outpointMasternode with
  | none => simp [hvoted] at hadd
  | some v => exact hasMasternodeVoted_iff.mpr ⟨lock, v, hlock, hvoted⟩

theorem Grows.mem_keys (hgrows : c.Grows c') (ho : o ∈ c.mapOutPointLocks.keys) :
    o ∈ c'.mapOutPointLocks.keys := by
  obtain ⟨lock, hlock⟩ := (mem_keys_iff _ _).mp ho
  obtain ⟨lock', hlock', -⟩ := hgrows o lock hlock
  exact (mem_keys_iff _ _).mpr ⟨lock', hlock'⟩

end CTxLockCandidate

theorem CandidateMove.hasMasternodeVoted {valid : CTxLockVote → Prop} {h k : UInt256}
    {old : Option CTxLockCandidate} {c' : CTxLockCandidate} {o m : COutPoint}
    (hmove : CandidateMove valid h k old c') (hvoted : c'.hasMasternodeVoted o m) :
    (∃ c, old = some c ∧ c.hasMasternodeVoted o m) ∨
      k = h ∧ ∃ vote, valid vote ∧ vote.outpoint = o := by
  obtain ⟨lock', v, hlock', hv⟩ := hasMasternodeVoted_iff.mp hvoted
  cases hmove with
  | created time => simp at hlock'
  | stored hempty hhash => exact .inl ⟨_, rfl, hvoted⟩
  | @filled c tx hempty hhash =>
    left
    rw [lookup_addOutPointLocks] at hlock'
    split_ifs at hlock' with hmem
    · cases hlock : c.mapOutPointLocks.lookup o with
      | none =>
        -- The lock is a new one.
        rw [hlock] at hlock'
        obtain rfl := some.inj hlock'
        simp at hv
      | some lock =>
        rw [hlock] at hlock'
        obtain rfl := some.inj hlock'
        exact ⟨c, rfl, hasMasternodeVoted_iff.mpr ⟨lock, v, hlock, hv⟩⟩
    · exact ⟨c, rfl, hasMasternodeVoted_iff.mpr ⟨lock', v, hlock', hv⟩⟩
  | @voted c _ vote hvalid hhash hadd =>
    by_cases ho : o = vote.outpoint
    · exact .inr ⟨rfl, vote, hvalid, ho.symm⟩
    · obtain ⟨lock₀, -, -, rfl⟩ := addVote_eq_some hadd
      rw [lookup_insert_eq, if_neg ho] at hlock'
      exact .inl ⟨c, rfl, hasMasternodeVoted_iff.mpr ⟨lock', v, hlock', hv⟩⟩
  | @attacked _ c o' =>
    left
    rw [lookup_markOutpointAsAttacked] at hlock'
    split_ifs at hlock' with heq
    · subst heq
      obtain ⟨lock₀, hlock₀, rfl⟩ := map_eq_some_iff.mp hlock'
      exact ⟨c, rfl, hasMasternodeVoted_iff.mpr ⟨lock₀, v, hlock₀, hv⟩⟩
    · exact ⟨c, rfl, hasMasternodeVoted_iff.mpr ⟨lock', v, hlock', hv⟩⟩

namespace CInstantSend

variable {crypto : LockCrypto} {env : InstantSendEnv} {valid : CTxLockVote → Prop}
  {s t : CInstantSend} {h k : UInt256} {m o : COutPoint}

/-- The candidate of a transaction has the vote of a masternode on an outpoint. -/
def HasVote (s : CInstantSend) (m o : COutPoint) (h : UInt256) : Prop :=
  ∃ c, s.mapTxLockCandidates.lookup h = some c ∧ c.hasMasternodeVoted o m

/-- `mapVotedOutpoints` remembers all that the masternode signed for. -/
def Recorded (m : COutPoint) (s : CInstantSend) : Prop :=
  ∀ o h, s.HasVote m o h → h ∈ s.votedFor o

theorem Recorded.alreadyVoted (hrecorded : s.Recorded env.activeMasternode.outpoint)
    (hvote : s.HasVote env.activeMasternode.outpoint o h) : s.alreadyVoted env o := by
  have hmem := hrecorded o h hvote
  obtain ⟨c, hc, hvoted⟩ := hvote
  unfold votedFor at hmem
  unfold CInstantSend.alreadyVoted
  cases hhashes : s.mapVotedOutpoints.lookup o with
  | none => simp [hhashes] at hmem
  | some hashes =>
    rw [hhashes] at hmem
    exact any_eq_true.mpr ⟨h, hmem, by simp [hc, hvoted]⟩

theorem votedFor_recordVoted {o o' : COutPoint} : (s.recordVoted o h).votedFor o' =
    if o' = o then insert h (s.votedFor o) else s.votedFor o' := by
  unfold votedFor recordVoted
  rw [lookup_insert_eq]
  split_ifs <;> rfl

variable {c : CTxLockCandidate}

theorem Prep.candidate_grows (hprep : Prep valid k s t)
    (hc : s.mapTxLockCandidates.lookup h = some c) :
    ∃ c', t.mapTxLockCandidates.lookup h = some c' ∧ c.Grows c' := by
  cases hprep with
  | @candidate k' c' hmove =>
    rw [lookup_setCandidate]
    by_cases heq : h = k'
    · subst heq
      rw [hc] at hmove
      exact ⟨c', if_pos rfl, hmove.grows⟩
    · exact ⟨c, by rw [if_neg heq, hc], .refl c⟩
  | recorded o => exact ⟨c, hc, .refl c⟩
  | accepted tx => exact ⟨c, hc, .refl c⟩
  | rejected tx => exact ⟨c, hc, .refl c⟩
  | books votes orphans times => exact ⟨c, hc, .refl c⟩

theorem HasVote.prep (hprep : Prep valid k s t) (hvote : s.HasVote m o h) : t.HasVote m o h := by
  obtain ⟨c, hc, hvoted⟩ := hvote
  obtain ⟨c', hc', hgrows⟩ := hprep.candidate_grows hc
  exact ⟨c', hc', hgrows.hasMasternodeVoted hvoted⟩

theorem HasVote.preps (hpreps : Preps valid k s t) (hvote : s.HasVote m o h) : t.HasVote m o h := by
  induction hpreps with
  | refl => exact hvote
  | tail _ hprep ih => exact ih.prep hprep

theorem Recorded.prep (hprep : Prep valid k s t) (hrecorded : s.Recorded m) : t.Recorded m := by
  cases hprep with
  | @candidate k' c' hmove =>
    rintro o h ⟨c, hc, hvoted⟩
    rw [lookup_setCandidate] at hc
    split_ifs at hc with heq
    · obtain rfl := some.inj hc
      subst heq
      rcases hmove.hasMasternodeVoted hvoted with hold | ⟨rfl, vote, hvote, rfl⟩
      · exact hrecorded o h hold
      · exact hvote.2
    · exact hrecorded o h ⟨c, hc, hvoted⟩
  | recorded o' =>
    intro o h hvote
    have hmem : h ∈ s.votedFor o := hrecorded o h hvote
    rw [votedFor_recordVoted]
    split_ifs with heq
    · exact mem_insert_of_mem (heq ▸ hmem)
    · exact hmem
  | accepted tx => exact hrecorded
  | rejected tx => exact hrecorded
  | books votes orphans times => exact hrecorded

theorem Recorded.preps (hpreps : Preps valid k s t) (hrecorded : s.Recorded m) : t.Recorded m := by
  induction hpreps with
  | refl => exact hrecorded
  | tail _ hprep ih => exact ih.prep hprep

/-! ## Calls -/

/-- The outpoints of expired candidates are spent, and have the vote of the masternode in
expired candidates only. -/
def ExpiresSpent (m : COutPoint) (env : InstantSendEnv) (s : CInstantSend) : Prop :=
  ∀ e ∈ s.mapTxLockCandidates.entries, e.2.isExpired env s.nCachedBlockHeight →
    ∀ o ∈ e.2.mapOutPointLocks.keys, (env.getUTXOCoin o).isNone ∧
      ∀ e' ∈ s.mapTxLockCandidates.entries, e'.2.hasMasternodeVoted o m →
        e'.2.isExpired env s.nCachedBlockHeight

/-- No request that a call may try conflicts with a completed lock, and `CheckAndRemove`
finds the outpoints of expired candidates spent. -/
def KeepsRecord (m : COutPoint) (s : CInstantSend) (a : InstantSendStep) : Prop :=
  (∀ request ∈ s.requestsFor a.call, ∀ o ∈ request.prevouts,
    s.lockedForOther request.getHash o = false) ∧
  match a.call with
  | .checkAndRemove => s.ExpiresSpent m a.env
  | _ => True

instance (m : COutPoint) (env : InstantSendEnv) (s : CInstantSend) :
    Decidable (s.ExpiresSpent m env) :=
  inferInstanceAs (Decidable (∀ e ∈ s.mapTxLockCandidates.entries,
    e.2.isExpired env s.nCachedBlockHeight →
      ∀ o ∈ e.2.mapOutPointLocks.keys, (env.getUTXOCoin o).isNone ∧
        ∀ e' ∈ s.mapTxLockCandidates.entries, e'.2.hasMasternodeVoted o m →
          e'.2.isExpired env s.nCachedBlockHeight))

instance (m : COutPoint) (s : CInstantSend) (a : InstantSendStep) : Decidable (s.KeepsRecord m a) :=
  have : Decidable (match a.call with
      | .checkAndRemove => s.ExpiresSpent m a.env
      | _ => True) :=
    match a.call with
    | .checkAndRemove => inferInstanceAs (Decidable (s.ExpiresSpent m a.env))
    | .txLockVote .. => .isTrue trivial
    | .txLockRequest _ => .isTrue trivial
    | .verdict _ => .isTrue trivial
    | .updatedBlockTip _ => .isTrue trivial
    | .syncTransaction .. => .isTrue trivial
  inferInstanceAs (Decidable (_ ∧ _))

theorem ExpiresSpent.spent (hspent : s.ExpiresSpent m env) (hexpiring : s.Expiring env o) :
    (env.getUTXOCoin o).isNone ∧ ∀ h c, s.mapTxLockCandidates.lookup h = some c →
      c.hasMasternodeVoted o m → c.isExpired env s.nCachedBlockHeight := by
  obtain ⟨k, c, hc, hexpired, ho⟩ := hexpiring
  obtain ⟨hnone, hvotes⟩ := hspent ⟨k, c⟩ (AList.mem_lookup_iff.mp hc) hexpired o ho
  exact ⟨hnone, fun h c' hc' => hvotes ⟨h, c'⟩ (AList.mem_lookup_iff.mp hc')⟩

theorem Recorded.removal (hremoval : Removal env s t) (hspent : s.ExpiresSpent m env)
    (hrecorded : s.Recorded m) : t.Recorded m := by
  rintro o h ⟨c, hc, hvoted⟩
  obtain ⟨hc₀, hkept⟩ := (hremoval.candidates h c).mp hc
  have hmem := hrecorded o h ⟨c, hc₀, hvoted⟩
  have hnot : ¬s.Expiring env o := by
    intro hexpiring
    have hexpired := (hspent.spent hexpiring).2 h c hc₀ hvoted
    simp [hkept] at hexpired
  unfold votedFor at hmem ⊢
  cases hhashes : s.mapVotedOutpoints.lookup o with
  | none => simp [hhashes] at hmem
  | some hashes =>
    rw [(hremoval.voted o hashes).mpr ⟨hhashes, hnot⟩]
    rwa [hhashes] at hmem

theorem HasVote.removal (hremoval : Removal env s t) (hspent : s.ExpiresSpent m env)
    (hcoin : (env.getUTXOCoin o).isSome) (hvote : s.HasVote m o h) : t.HasVote m o h := by
  obtain ⟨c, hc, hvoted⟩ := hvote
  refine ⟨c, (hremoval.candidates h c).mpr ⟨hc, ?_⟩, hvoted⟩
  by_contra hexpired
  have hexpiring : s.Expiring env o := ⟨h, c, hc, by simpa using hexpired,
    mem_keys_of_hasMasternodeVoted hvoted⟩
  have hnone := (hspent.spent hexpiring).1
  rw [isNone_iff_eq_none] at hnone
  simp [hnone] at hcoin

theorem Finalized.sameVotes (hfinal : Finalized env s c t)
    (hfree : ∀ o ∈ c.txLockRequest.prevouts, s.lockedForOther c.getHash o = false) :
    t.mapTxLockCandidates = s.mapTxLockCandidates ∧ t.mapVotedOutpoints = s.mapVotedOutpoints := by
  cases hfinal with
  | same => exact ⟨rfl, rfl⟩
  | locked hready hfree => exact ⟨rfl, rfl⟩
  | dropped hready ho hlocked hne hown hother =>
    have hother' := hfree _ ho
    simp [lockedForOther, hlocked, hne] at hother'

theorem hasVote_congr (hsame : t.mapTxLockCandidates = s.mapTxLockCandidates) :
    t.HasVote m o h ↔ s.HasVote m o h := by
  rw [HasVote, HasVote, hsame]

theorem hasVote_adjusted {nHeight : ℤ} {votes : Map UInt256 CTxLockVote} : HasVote { s with
    mapTxLockCandidates := adjust s.mapTxLockCandidates k (·.setConfirmedHeight nHeight)
    mapTxLockVotes := votes } m o h ↔ s.HasVote m o h := by
  unfold HasVote
  simp only [lookup_adjust]
  by_cases heq : h = k
  · subst heq
    cases s.mapTxLockCandidates.lookup h with
    | none => simp
    | some c => simp [hasMasternodeVoted, setConfirmedHeight]
  · simp [heq]

theorem LockInv.next_keepsRecord (hinv : LockInv valid s) {a : InstantSendStep}
    (hkeeps : s.KeepsRecord m a) (hrecorded : s.Recorded m) :
    (s.next crypto a).Recorded m ∧ ∀ o h, (a.env.getUTXOCoin o).isSome →
      s.HasVote m o h → (s.next crypto a).HasVote m o h := by
  have hshape : StepShape crypto s a (s.next crypto a) := stepShape hinv.keyed
  generalize s.next crypto a = t at hshape
  cases hshape with
  | prepared houtcome =>
    obtain ⟨s₁, hpreps, rfl | ⟨c, hc, hrequest, hfinal⟩⟩ := houtcome
    · exact ⟨hrecorded.preps hpreps, fun o h _ hvote => hvote.preps hpreps⟩
    · have hfree : ∀ o ∈ c.txLockRequest.prevouts, s₁.lockedForOther c.getHash o = false := by
        intro o ho
        rw [lockedForOther, hpreps.same.1]
        exact hkeeps.1 c.txLockRequest hrequest o ho
      obtain ⟨hcandidates, hvoted⟩ := hfinal.sameVotes hfree
      refine ⟨fun o h hvote => ?_, fun o h _ hvote =>
        (hasVote_congr hcandidates).mpr (hvote.preps hpreps)⟩
      rw [votedFor, hvoted]
      exact hrecorded.preps hpreps o h ((hasVote_congr hcandidates).mp hvote)
  | tip nHeight => exact ⟨hrecorded, fun _ _ _ hvote => hvote⟩
  | confirmed k nHeight votes hheight =>
    exact ⟨fun o h hvote => hrecorded o h (hasVote_adjusted.mp hvote),
      fun o h _ hvote => hasVote_adjusted.mpr hvote⟩
  | removed hcall =>
    have hspent : s.ExpiresSpent m a.env := by
      have hmatch := hkeeps.2
      rwa [hcall] at hmatch
    rcases checkAndRemove_cases with hsame | hremoval
    · rw [hsame]
      exact ⟨hrecorded, fun _ _ _ hvote => hvote⟩
    · exact ⟨hrecorded.removal hremoval hspent,
        fun o h hcoin hvote => hvote.removal hremoval hspent hcoin⟩

/-! ## Signed votes -/

def HasOutpoint (s : CInstantSend) (h : UInt256) (o : COutPoint) : Prop :=
  ∃ c, s.mapTxLockCandidates.lookup h = some c ∧ o ∈ c.mapOutPointLocks.keys

variable {vote : CTxLockVote}

theorem hasVote_storeOwnVote (ho : s.HasOutpoint vote.txHash vote.outpoint) :
    (s.storeOwnVote crypto vote.txHash vote).HasVote vote.outpointMasternode vote.outpoint
      vote.txHash := by
  obtain ⟨c, hc, ho⟩ := ho
  have hstored : (s.storeVote crypto vote).mapTxLockCandidates.lookup vote.txHash = some c :=
    hc
  unfold storeOwnVote
  dsimp only
  rw [hstored, bind_some]
  cases hadd : c.addVote vote with
  | none => exact ⟨c, hc, hasMasternodeVoted_of_addVote_eq_none ho hadd⟩
  | some c' =>
    exact ⟨c', lookup_setCandidate_self .., hasMasternodeVoted_addVote hadd⟩

theorem HasOutpoint.storeOwnVote (ho : s.HasOutpoint h o) (k : UInt256)
    (vote : CTxLockVote) : (s.storeOwnVote crypto k vote).HasOutpoint h o := by
  obtain ⟨c, hc, ho⟩ := ho
  unfold CInstantSend.storeOwnVote
  dsimp only
  split
  · exact ⟨c, hc, ho⟩
  · rename_i c' hadd
    obtain ⟨c₀, hc₀, hadd₀⟩ := bind_eq_some_iff.mp hadd
    have hlookup := lookup_setCandidate (s.storeVote crypto vote) k c' h
    by_cases heq : h = k
    · subst heq
      obtain rfl : c₀ = c := some.inj (hc₀.symm.trans hc)
      exact ⟨c', hlookup.trans (if_pos rfl), (mem_keys_addVote hadd₀).mpr ho⟩
    · exact ⟨c, (hlookup.trans (if_neg heq)).trans hc, ho⟩

section
variable (hrecorded : s.Recorded vote.outpointMasternode)
include hrecorded

theorem voteLoop_signed {os : List COutPoint} (hos : ∀ o ∈ os, s.HasOutpoint h o)
    (hvote : vote ∈ (voteLoop crypto env h h os s).2) :
    vote.txHash = h ∧ (∀ k, ¬s.HasVote vote.outpointMasternode vote.outpoint k) ∧
      (voteLoop crypto env h h os s).1.HasVote vote.outpointMasternode vote.outpoint h := by
  induction os generalizing s with
  | nil => simp [voteLoop] at hvote
  | cons o os ih =>
    have hrest : ∀ o' ∈ os, s.HasOutpoint h o' :=
      fun o' ho' => hos o' (mem_cons_of_mem _ ho')
    unfold voteLoop at hvote ⊢
    cases hdecision : s.voteDecision crypto env h o with
    | stop => simp [hdecision] at hvote
    | skip =>
      rw [hdecision] at hvote
      exact ih hrecorded hrest hvote
    | sign vote' =>
      rw [hdecision] at hvote
      obtain ⟨rfl, rfl, hmasternode, -, halready, hvalid⟩ :=
        voteDecision_eq_sign hdecision
      have hstored : Preps (fun v => v.isValid crypto env) vote'.txHash s
          (s.storeOwnVote crypto vote'.txHash vote') :=
        preps_storeOwnVote crypto s vote' hvalid
      rcases mem_cons.mp hvote with rfl | hlater
      · refine ⟨rfl, fun k hvote => ?_, ?_⟩
        · rw [hmasternode] at hvote hrecorded
          simp [hrecorded.alreadyVoted hvote] at halready
        · exact (hasVote_storeOwnVote (hos _ mem_cons_self)).preps (preps_voteLoop env _ os _)
      · obtain ⟨hhash, hnone, hhas⟩ := ih (hrecorded.preps hstored)
          (fun o' ho' => (hrest o' ho').storeOwnVote _ vote') hlater
        exact ⟨hhash, fun k hvote => hnone k (hvote.preps hstored), hhas⟩

theorem voteCandidate_signed (hc : s.mapTxLockCandidates.lookup h = some c)
    (hkey : c.mapOutPointLocks.keys ≠ [] → c.getHash = h)
    (hvote : vote ∈ (s.voteCandidate crypto env h c).2) :
    vote.txHash = h ∧ (∀ k, ¬s.HasVote vote.outpointMasternode vote.outpoint k) ∧
      (s.voteCandidate crypto env h c).1.HasVote vote.outpointMasternode vote.outpoint h := by
  unfold voteCandidate at hvote ⊢
  split_ifs at hvote ⊢
  · exact absurd hvote not_mem_nil
  · exact absurd hvote not_mem_nil
  · exact absurd hvote not_mem_nil
  · by_cases hempty : c.mapOutPointLocks.keys = []
    · rw [hempty] at hvote
      exact absurd hvote not_mem_nil
    · rw [hkey hempty] at hvote ⊢
      refine voteLoop_signed hrecorded (fun o ho => ⟨c, hc, ?_⟩) hvote
      exact (mem_insertionSort _).mp ho

theorem vote_signed (hkey : ∀ c, s.mapTxLockCandidates.lookup h = some c →
    c.mapOutPointLocks.keys ≠ [] → c.getHash = h)
    (hfree : ∀ c, s.mapTxLockCandidates.lookup h = some c → ∀ o ∈ c.txLockRequest.prevouts,
    s.lockedForOther c.getHash o = false) (hvote : vote ∈ (s.vote crypto env h).2) :
    vote.txHash = h ∧ (∀ k, ¬s.HasVote vote.outpointMasternode vote.outpoint k) ∧
      (s.vote crypto env h).1.HasVote vote.outpointMasternode vote.outpoint h := by
  unfold CInstantSend.vote at hvote ⊢
  cases hc : s.mapTxLockCandidates.lookup h with
  | none => simp [hc] at hvote
  | some c =>
    rw [hc] at hvote
    obtain ⟨hhash, hnone, hhas⟩ :=
      voteCandidate_signed hrecorded hc (hkey c hc) hvote
    refine ⟨hhash, hnone, ?_⟩
    obtain ⟨hpreps, hsame⟩ := voteCandidate_spec (hkey c hc)
    dsimp only
    generalize (s.voteCandidate crypto env h c).1 = s₁ at hpreps hsame hhas ⊢
    unfold finalizeNow
    cases hc' : s₁.mapTxLockCandidates.lookup h with
    | none => exact hhas
    | some c' =>
      obtain ⟨c₀, hc₀, hrequest⟩ := hsame c' hc'
      have hfree₁ : ∀ o ∈ c'.txLockRequest.prevouts, s₁.lockedForOther c'.getHash o = false := by
        intro o ho
        rw [lockedForOther, hpreps.same.1, getHash, ← hrequest]
        exact hfree c₀ hc₀ o (hrequest ▸ ho)
      exact (hasVote_congr ((finalized s₁ env c').sameVotes hfree₁).1).mpr hhas

end

variable {a : InstantSendStep}

theorem step_signed (hkeyed : s.Keyed) (hkeeps : s.KeepsRecord vote.outpointMasternode a)
    (hrecorded : s.Recorded vote.outpointMasternode) (hvote : vote ∈ (s.step crypto a).2) :
    (∃ tx, a.call = .verdict tx ∧ vote.txHash = tx.hash) ∧
      (∀ k, ¬s.HasVote vote.outpointMasternode vote.outpoint k) ∧
      (s.next crypto a).HasVote vote.outpointMasternode vote.outpoint vote.txHash := by
  obtain ⟨env, call⟩ := a
  cases call with
  | verdict tx =>
    unfold CInstantSend.next
    unfold step processVerdict at hvote ⊢
    dsimp only at hvote ⊢
    split_ifs at hvote ⊢
    · exact absurd hvote not_mem_nil
    · split at hvote
      · have haccepted : (s.acceptLockRequest tx).Recorded vote.outpointMasternode :=
          hrecorded
        obtain ⟨hhash, hnone, hhas⟩ := vote_signed haccepted (hkeyed.candidates tx.hash)
          (fun c hc => hkeeps.1 c.txLockRequest (mem_requestsOf_of_candidate hc)) hvote
        exact ⟨⟨tx, rfl, hhash⟩, hnone, hhash ▸ hhas⟩
      · exact absurd hvote not_mem_nil
      · exact absurd hvote not_mem_nil
  | txLockVote nVersion vote => exact absurd hvote not_mem_nil
  | txLockRequest tx => exact absurd hvote not_mem_nil
  | updatedBlockTip nHeight => exact absurd hvote not_mem_nil
  | syncTransaction tx pblock => exact absurd hvote not_mem_nil
  | checkAndRemove => exact absurd hvote not_mem_nil

def stateAt (crypto : LockCrypto) (steps : List InstantSendStep) (i : ℕ) : CInstantSend :=
  runSteps crypto {} (steps.take i)

def signedAt (crypto : LockCrypto) (steps : List InstantSendStep) (i : ℕ) : List CTxLockVote :=
  match steps[i]? with
  | some a => ((stateAt crypto steps i).step crypto a).2
  | none => []

variable {i : ℕ}

theorem stateAt_succ (ha : steps[i]? = some a) :
    stateAt crypto steps (i + 1) = (stateAt crypto steps i).next crypto a := by
  simp [stateAt, runSteps, take_add_one, ha]

theorem stateAt_succ_of_none (ha : steps[i]? = none) :
    stateAt crypto steps (i + 1) = stateAt crypto steps i := by
  simp [stateAt, take_add_one, ha]

theorem mem_signedAt (hvote : vote ∈ signedAt crypto steps i) :
    ∃ a, steps[i]? = some a ∧ vote ∈ ((stateAt crypto steps i).step crypto a).2 := by
  unfold signedAt at hvote
  cases ha : steps[i]? with
  | none => simp [ha] at hvote
  | some a => exact ⟨a, rfl, by simpa [ha] using hvote⟩

theorem lockInv_stateAt : LockInv (fun v => ∃ a ∈ steps.take i, v.isValid crypto a.env)
    (stateAt crypto steps i) :=
  LockInv.runSteps crypto (steps.take i)

section
variable
  (hkeeps : Along (next crypto) (KeepsRecord m) {} steps)
include hkeeps

theorem recorded_stateAt : (stateAt crypto steps i).Recorded m := by
  induction i with
  | zero =>
    rintro o h ⟨c, hc, -⟩
    simp [stateAt, runSteps] at hc
  | succ i ih =>
    cases ha : steps[i]? with
    | none =>
      rw [stateAt_succ_of_none ha]
      exact ih
    | some a =>
      rw [stateAt_succ ha]
      exact (lockInv_stateAt.next_keepsRecord (hkeeps.getElem? ha) ih).1

theorem hasVote_stateAt {i j : ℕ} (hij : i ≤ j)
    (hunspent : ∀ k a, i ≤ k → k < j → steps[k]? = some a → (a.env.getUTXOCoin o).isSome)
    (hvote : (stateAt crypto steps i).HasVote m o h) : (stateAt crypto steps j).HasVote m o h := by
  induction j, hij using Nat.le_induction with
  | base => exact hvote
  | succ j hij ih =>
    have hvote' := ih fun k a hk hk' => hunspent k a hk (by omega)
    cases ha : steps[j]? with
    | none =>
      rw [stateAt_succ_of_none ha]
      exact hvote'
    | some a =>
      rw [stateAt_succ ha]
      exact (lockInv_stateAt.next_keepsRecord (hkeeps.getElem? ha)
        (recorded_stateAt hkeeps)).2 o h (hunspent j a hij (by omega) ha) hvote'

end

/-- In a run that keeps the record, no two votes of a masternode on an outpoint that stays
unspent are for different transactions. -/
theorem signedAt_agree (crypto : LockCrypto) (m : COutPoint) (steps : List InstantSendStep)
    (hkeeps : Along (next crypto) (KeepsRecord m) {} steps) :
    ∀ i j, i ≤ j → ∀ v ∈ signedAt crypto steps i, ∀ w ∈ signedAt crypto steps j,
      v.outpointMasternode = m → w.outpointMasternode = m → v.outpoint = w.outpoint →
      (∀ k a, i ≤ k → k ≤ j → steps[k]? = some a → (a.env.getUTXOCoin v.outpoint).isSome) →
      v.txHash = w.txHash := by
  intro i j hij v hv w hw hvm hwm ho hunspent
  obtain ⟨a, ha, hv⟩ := mem_signedAt hv
  obtain ⟨b, hb, hw⟩ := mem_signedAt hw
  subst hvm
  obtain ⟨⟨tx, hcall, htx⟩, -, hhas⟩ := step_signed lockInv_stateAt.keyed
    (hkeeps.getElem? ha) (recorded_stateAt hkeeps) hv
  rw [← hwm] at hkeeps
  obtain ⟨⟨tx', hcall', htx'⟩, hnone, -⟩ := step_signed
    lockInv_stateAt.keyed (hkeeps.getElem? hb) (recorded_stateAt hkeeps) hw
  rcases hij.eq_or_lt with rfl | hlt
  · obtain rfl : a = b := Option.some.inj (ha.symm.trans hb)
    obtain rfl : tx = tx' := InstantSendCall.verdict.inj (hcall.symm.trans hcall')
    rw [htx, htx']
  · -- The first vote is still there when the second one would be signed.
    rw [← stateAt_succ ha, ← hwm, ho] at hhas
    rw [ho] at hunspent
    exact absurd (hasVote_stateAt hkeeps hlt
      (fun k a hk hk' => hunspent k a (by omega) hk'.le) hhas) (hnone v.txHash)

def votingEnv : InstantSendEnv := { lockingEnv with fMasterNode := true }

def laterVotingEnv : InstantSendEnv :=
  { votingEnv with
    getMasternodeRank := fun o _ _ =>
      if o.n = 0 then some 1 else if o.n < 6 then none else some (o.n.toNat - 4) }

/-- The masternode signs for a transaction, and is asked to sign for another one that
spends the same output. -/
def competingRun : List InstantSendStep :=
  [⟨votingEnv, .txLockRequest (spending 101 [0])⟩, ⟨votingEnv, .verdict (spending 101 [0])⟩,
    ⟨votingEnv, .txLockRequest (spending 103 [0])⟩, ⟨votingEnv, .verdict (spending 103 [0])⟩,
    ⟨votingEnv, .checkAndRemove⟩]

/-- The masternode signs for a transaction that gets locked.  It then
leaves the mempool: in `laterVotingEnv` nothing in `mapNextTx` spends the output.  A conflicting
one gets the votes of others, both are dropped, and a third one with the same input comes. -/
def droppedRun : List InstantSendStep :=
  [⟨votingEnv, .updatedBlockTip 100⟩, ⟨votingEnv, .txLockRequest (spending 101 [0])⟩,
    ⟨votingEnv, .verdict (spending 101 [0])⟩] ++
  [1, 2, 3, 4, 5].map (fun n => ⟨votingEnv, .txLockVote 70208 (voteOf n 101 0)⟩) ++
  ⟨laterVotingEnv, .txLockRequest (spending 102 [0])⟩ ::
  [6, 7, 8, 9, 10, 11].map (fun n => ⟨laterVotingEnv, .txLockVote 70208 (voteOf n 102 0)⟩) ++
  [⟨laterVotingEnv, .txLockRequest (spending 103 [0])⟩,
    ⟨laterVotingEnv, .verdict (spending 103 [0])⟩]

theorem signedAt_agree_competing :
    (signedAt plainLockCrypto competingRun 1).map (·.txHash) = [101] ∧
      signedAt plainLockCrypto competingRun 3 = [] ∧
      ∀ i j, i ≤ j → ∀ v ∈ signedAt plainLockCrypto competingRun i,
        ∀ w ∈ signedAt plainLockCrypto competingRun j,
        v.outpointMasternode = ⟨9, 0⟩ → w.outpointMasternode = ⟨9, 0⟩ →
        v.outpoint = w.outpoint →
        (∀ k a, i ≤ k → k ≤ j → competingRun[k]? = some a →
          (a.env.getUTXOCoin v.outpoint).isSome) →
        v.txHash = w.txHash :=
  ⟨by decide +kernel, by decide +kernel,
    signedAt_agree plainLockCrypto ⟨9, 0⟩ competingRun (by decide +kernel)⟩

/-- The masternode signs for both transactions on an output that is unspent all the
time. -/
theorem signedAt_dropped : (signedAt plainLockCrypto droppedRun 2).map
        (fun v => (v.txHash, v.outpoint, v.outpointMasternode)) =
      [(101, ⟨5, 0⟩, ⟨9, 0⟩)] ∧
    (signedAt plainLockCrypto droppedRun 16).map
        (fun v => (v.txHash, v.outpoint, v.outpointMasternode)) =
      [(103, ⟨5, 0⟩, ⟨9, 0⟩)] ∧
    ∀ a ∈ droppedRun, (a.env.getUTXOCoin ⟨5, 0⟩).isSome := by
  decide +kernel

end CInstantSend
end ImageCoin
