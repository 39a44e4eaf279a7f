import ImageCoin.LockSteps

/-!
# The lock invariant

Candidates are stored under the hash of their request, have all of its inputs or none, and
their votes were valid when they came.
-/

namespace ImageCoin

open MapEntries Relation CTxLockCandidate List Option
variable {nHeight : ℤ} {k : UInt256} {c c' : CTxLockCandidate}

/-- A candidate has locks for all inputs of its request or for none, with votes under their own
keys. -/
structure CandidateOk (valid : CTxLockVote → Prop) (h : UInt256) (c : CTxLockCandidate) : Prop where
  height : -1 ≤ c.nConfirmedHeight
  hash : ∀ tx, c.txLockRequest = some tx → tx.hash = h
  inputs : ∀ o ∈ c.mapOutPointLocks.keys, o ∈ c.txLockRequest.prevouts
  complete : c.mapOutPointLocks.keys ≠ [] → ∀ o ∈ c.txLockRequest.prevouts,
    o ∈ c.mapOutPointLocks.keys
  votes : ∀ o lock, c.mapOutPointLocks.lookup o = some lock → ∀ m v,
    lock.mapMasternodeVotes.lookup m = some v →
      v.txHash = h ∧ v.outpoint = o ∧ v.outpointMasternode = m ∧ valid v

/-- Every input has the votes that a lock takes. -/
def CTxLockCandidate.Enough (c : CTxLockCandidate) : Prop :=
  ∀ o lock, c.mapOutPointLocks.lookup o = some lock →
    signaturesRequired ≤ lock.mapMasternodeVotes.entries.length

namespace CandidateOk

variable {valid valid' : CTxLockVote → Prop} {h k : UInt256} {c c' : CTxLockCandidate}
  {o : COutPoint}

section
variable (hok : CandidateOk valid h c)
include hok

section
variable (hempty : c.txLockRequest = none)
include hempty

theorem keys_eq_nil : c.mapOutPointLocks.keys = [] := by
  rw [eq_nil_iff_forall_not_mem]
  intro o ho
  have hmem := hok.inputs o ho
  rw [hempty] at hmem
  exact not_mem_nil hmem

theorem lookup_eq_none : c.mapOutPointLocks.lookup o = none := by
  by_contra hsome
  have hmem : o ∈ c.mapOutPointLocks.keys :=
    (mem_keys_iff _ _).mpr (ne_none_iff_exists'.mp hsome)
  rw [hok.keys_eq_nil hempty] at hmem
  exact not_mem_nil hmem

omit hempty in
theorem exists_request (ho : o ∈ c.mapOutPointLocks.keys) :
    ∃ tx, c.txLockRequest = some tx ∧ tx.hash = h := by
  cases hrequest : c.txLockRequest with
  | none =>
    rw [hok.keys_eq_nil hrequest] at ho
    exact absurd ho not_mem_nil
  | some tx => exact ⟨tx, rfl, hok.hash tx hrequest⟩

omit hempty in
theorem getHash_eq (ho : o ∈ c.mapOutPointLocks.keys) : c.getHash = h := by
  obtain ⟨tx, hrequest, hhash⟩ := hok.exists_request ho
  rw [getHash, hrequest]
  exact hhash

variable {tx : CTransaction}

theorem stored (hhash : tx.hash = h) : CandidateOk valid h { c with txLockRequest := some tx } where
  height := hok.height
  hash := by
    intro tx' heq
    obtain rfl := some.inj heq
    exact hhash
  inputs := by
    intro o ho
    rw [hok.keys_eq_nil hempty] at ho
    exact absurd ho not_mem_nil
  complete := fun hne => absurd (hok.keys_eq_nil hempty) hne
  votes := hok.votes

theorem filled (hhash : tx.hash = h) :
    CandidateOk valid h ({ c with txLockRequest := some tx }.addOutPointLocks
      (CTxLockRequest.prevouts (some tx))) := by
  have hlookup := lookup_addOutPointLocks
    { c with txLockRequest := some tx } (CTxLockRequest.prevouts (some tx))
  simp only [hok.lookup_eq_none hempty] at hlookup
  refine ⟨?_, ?_, ?_, ?_, ?_⟩
  · rw [nConfirmedHeight_addOutPointLocks]
    exact hok.height
  · intro tx' heq
    rw [txLockRequest_addOutPointLocks] at heq
    obtain rfl := some.inj heq
    exact hhash
  · intro o ho
    rw [txLockRequest_addOutPointLocks]
    obtain ⟨lock, hlock⟩ := (mem_keys_iff _ _).mp ho
    rw [hlookup] at hlock
    split_ifs at hlock with hmem
    exact hmem
  · intro _ o ho
    rw [txLockRequest_addOutPointLocks] at ho
    exact (mem_keys_iff _ _).mpr ⟨_, by rw [hlookup, if_pos ho]⟩
  · intro o lock hlock m v hv
    rw [hlookup] at hlock
    split_ifs at hlock
    -- The lock is a new one.
    obtain rfl := some.inj hlock
    simp at hv

end

theorem attacked : CandidateOk valid h (c.markOutpointAsAttacked o) where
  height := hok.height
  hash := hok.hash
  inputs := fun o' ho' =>
    hok.inputs o' (mem_keys_markOutpointAsAttacked.mp ho')
  complete := by
    intro hne o' ho'
    obtain ⟨o'', ho''⟩ := exists_mem_of_ne_nil _ hne
    have hmem := mem_keys_markOutpointAsAttacked.mp ho''
    exact mem_keys_markOutpointAsAttacked.mpr (hok.complete (ne_nil_of_mem hmem) o' ho')
  votes := by
    intro o' lock hlock m v hv
    rw [lookup_markOutpointAsAttacked] at hlock
    split_ifs at hlock with heq
    · subst heq
      obtain ⟨lock₀, hlock₀, rfl⟩ := map_eq_some_iff.mp hlock
      exact hok.votes o' lock₀ hlock₀ m v hv
    · exact hok.votes o' lock hlock m v hv

theorem voted {vote : CTxLockVote} (hvalid : valid vote)
    (hhash : vote.txHash = h) (hadd : c.addVote vote = some c') : CandidateOk valid h c' := by
  have hkeys : ∀ o, o ∈ c'.mapOutPointLocks.keys ↔ o ∈ c.mapOutPointLocks.keys :=
    fun _ => mem_keys_addVote hadd
  obtain ⟨hrequest, hheight, -⟩ := fields_addVote hadd
  refine ⟨?_, ?_, ?_, ?_, ?_⟩
  · rw [hheight]
    exact hok.height
  · rw [hrequest]
    exact hok.hash
  · intro o ho
    rw [hrequest]
    exact hok.inputs o ((hkeys o).mp ho)
  · intro hne o ho
    rw [hrequest] at ho
    obtain ⟨o', ho'⟩ := exists_mem_of_ne_nil _ hne
    exact (hkeys o).mpr (hok.complete (ne_nil_of_mem ((hkeys o').mp ho')) o ho)
  · obtain ⟨lock₀, hlock₀, -, rfl⟩ := addVote_eq_some hadd
    intro o lock hlock m v hv
    simp only [lookup_insert_eq] at hlock
    split_ifs at hlock with ho
    · subst ho
      obtain rfl := some.inj hlock
      simp only [lookup_insert_eq] at hv
      split_ifs at hv with hm
      · obtain rfl := some.inj hv
        exact ⟨hhash, rfl, hm.symm, hvalid⟩
      · exact hok.votes _ lock₀ hlock₀ m v hv
    · exact hok.votes o lock hlock m v hv

theorem confirmed (hheight : -1 ≤ nHeight) : CandidateOk valid h (c.setConfirmedHeight nHeight) :=
  ⟨hheight, hok.hash, hok.inputs, hok.complete, hok.votes⟩

end

theorem of_move (hsub : ∀ v, valid' v → valid v) {old : Option CTxLockCandidate}
    (hmove : CandidateMove valid' h k old c)
    (hold : ∀ c₀, old = some c₀ → CandidateOk valid k c₀) : CandidateOk valid k c := by
  cases hmove with
  | created time =>
    exact ⟨le_rfl, by simp, fun _ ho => absurd ho not_mem_nil,
      fun hne => absurd rfl hne, by simp⟩
  | stored hempty hhash => exact (hold _ rfl).stored hempty hhash
  | filled hempty hhash => exact (hold _ rfl).filled hempty hhash
  | voted hvalid hhash hadd => exact (hold _ rfl).voted (hsub _ hvalid) hhash hadd
  | attacked o => exact (hold _ rfl).attacked

theorem move_keeps (hok : CandidateOk valid k c)
    (hmove : CandidateMove valid' h k (some c) c') (hmem : o ∈ c.mapOutPointLocks.keys) :
    (∀ o, o ∈ c'.mapOutPointLocks.keys ↔ o ∈ c.mapOutPointLocks.keys) ∧
      c'.txLockRequest = c.txLockRequest ∧ c'.nConfirmedHeight = c.nConfirmedHeight := by
  have hrequest : c.txLockRequest ≠ none := by
    intro hempty
    rw [hok.keys_eq_nil hempty] at hmem
    exact not_mem_nil hmem
  cases hmove with
  | stored hempty hhash => exact absurd hempty hrequest
  | filled hempty hhash => exact absurd hempty hrequest
  | voted hvalid hhash hadd =>
    obtain ⟨hrequest', hheight, -⟩ := fields_addVote hadd
    exact ⟨fun _ => mem_keys_addVote hadd, hrequest', hheight⟩
  | attacked o => exact ⟨fun _ => mem_keys_markOutpointAsAttacked, rfl, rfl⟩

end CandidateOk

theorem CandidateMove.grows {valid : CTxLockVote → Prop} {h : UInt256}
    (hmove : CandidateMove valid h k (some c) c') : c.Grows c' := by
  cases hmove with
  | stored hempty hhash => exact .refl c
  | filled hempty hhash => exact grows_addOutPointLocks
  | voted hvalid hhash hadd => exact grows_addVote hadd
  | attacked o => exact grows_markOutpointAsAttacked

theorem CTxLockCandidate.Enough.of_grows (henough : c.Enough) (hgrows : c.Grows c')
    (hkeys : ∀ o, o ∈ c'.mapOutPointLocks.keys → o ∈ c.mapOutPointLocks.keys) :
    c'.Enough := by
  intro o lock' hlock'
  obtain ⟨lock, hlock⟩ := (mem_keys_iff _ _).mp (hkeys o ((mem_keys_iff _ _).mpr ⟨_, hlock'⟩))
  obtain ⟨lock'', hlock'', hlength, -⟩ := hgrows o lock hlock
  obtain rfl : lock'' = lock' := some.inj (hlock''.symm.trans hlock')
  exact (henough o lock hlock).trans hlength

theorem CTxLockCandidate.enough_of_ready (hready : c.isAllOutPointsReady) : c.Enough := by
  intro o lock hlock
  have hlockReady := (isAllOutPointsReady_iff.mp hready).2 o lock hlock
  unfold COutPointLock.isReady COutPointLock.countVotes at hlockReady
  cases hattacked : lock.fAttacked with
  | true => simp [hattacked] at hlockReady
  | false => simpa [hattacked] using hlockReady

/-! ## The invariant -/

namespace CInstantSend

/-- The invariant of all calls: a lock is held by a candidate with enough votes. -/
structure LockInv (valid : CTxLockVote → Prop) (s : CInstantSend) : Prop where
  candidates : ∀ h c, s.mapTxLockCandidates.lookup h = some c → CandidateOk valid h c
  accepted : ∀ h request, s.mapLockRequestAccepted.lookup h = some request → request.getHash = h
  rejected : ∀ h request, s.mapLockRequestRejected.lookup h = some request → request.getHash = h
  locks : ∀ o h, s.mapLockedOutpoints.lookup o = some h →
    ∃ c, s.mapTxLockCandidates.lookup h = some c ∧ o ∈ c.mapOutPointLocks.keys ∧ c.Enough

namespace LockInv

variable {valid valid' : CTxLockVote → Prop} {s t : CInstantSend} {h : UInt256}
  {env : InstantSendEnv}

theorem empty : LockInv valid {} := by
  constructor <;> simp

theorem keyed (hinv : LockInv valid s) : s.Keyed where
  candidates := by
    intro h c hc hne
    obtain ⟨o, ho⟩ := exists_mem_of_ne_nil _ hne
    exact (hinv.candidates h c hc).getHash_eq ho
  known := by
    intro h request hknown
    rcases or_eq_some_iff.mp hknown with haccepted | ⟨-, hrejected⟩
    · exact hinv.accepted h request haccepted
    · exact hinv.rejected h request hrejected

theorem getHash_of_insertNew {m : Map UInt256 CTxLockRequest}
    (hm : ∀ h request, m.lookup h = some request → request.getHash = h)
    {new : CTxLockRequest} (hnew : new.getHash = k) :
    ∀ h request, (insertNew m k new).lookup h = some request → request.getHash = h := by
  intro h request hlookup
  rw [lookup_insertNew] at hlookup
  split_ifs at hlookup with heq
  · subst heq
    cases hold : m.lookup h with
    | none =>
      obtain rfl : new = request := by simpa [hold] using hlookup
      exact hnew
    | some old =>
      obtain rfl : old = request := by simpa [hold] using hlookup
      exact hm h old hold
  · exact hm h request hlookup

theorem prep (hsub : ∀ v, valid' v → valid v) (hinv : LockInv valid s)
    (hprep : Prep valid' h s t) : LockInv valid t := by
  cases hprep with
  | @candidate k c hmove =>
    have hok : CandidateOk valid k c :=
      .of_move (fun v hv => hsub v hv.1) hmove fun c₀ hc₀ => hinv.candidates k c₀ hc₀
    refine ⟨?_, hinv.accepted, hinv.rejected, ?_⟩
    · intro k' c' hc'
      rw [lookup_setCandidate] at hc'
      split_ifs at hc' with heq
      · obtain rfl := some.inj hc'
        exact heq ▸ hok
      · exact hinv.candidates k' c' hc'
    · intro o h' hlocked
      obtain ⟨c₀, hc₀, ho, henough⟩ := hinv.locks o h' hlocked
      rw [lookup_setCandidate]
      by_cases heq : h' = k
      · subst heq
        rw [hc₀] at hmove
        obtain ⟨hkeys, -, -⟩ := (hinv.candidates h' c₀ hc₀).move_keeps hmove ho
        exact ⟨c, if_pos rfl, (hkeys o).mpr ho,
          henough.of_grows hmove.grows fun o' => (hkeys o').mp⟩
      · exact ⟨c₀, by rw [if_neg heq, hc₀], ho, henough⟩
  | recorded o => exact ⟨hinv.candidates, hinv.accepted, hinv.rejected, hinv.locks⟩
  | accepted tx =>
    exact ⟨hinv.candidates, getHash_of_insertNew hinv.accepted rfl, hinv.rejected, hinv.locks⟩
  | rejected tx =>
    exact ⟨hinv.candidates, hinv.accepted, getHash_of_insertNew hinv.rejected rfl, hinv.locks⟩
  | books votes orphans times =>
    exact ⟨hinv.candidates, hinv.accepted, hinv.rejected, hinv.locks⟩

theorem preps (hsub : ∀ v, valid' v → valid v) (hinv : LockInv valid s)
    (hpreps : Preps valid' h s t) : LockInv valid t := by
  induction hpreps with
  | refl => exact hinv
  | tail _ hprep ih => exact ih.prep hsub hprep

section
variable (hinv : LockInv valid s)
include hinv

theorem adjusted (k : UInt256) (hheight : -1 ≤ nHeight) (votes : Map UInt256 CTxLockVote) :
    LockInv valid { s with
      mapTxLockCandidates := adjust s.mapTxLockCandidates k (·.setConfirmedHeight nHeight)
      mapTxLockVotes := votes } := by
  refine ⟨?_, hinv.accepted, hinv.rejected, ?_⟩
  · intro h c hc
    rw [lookup_adjust] at hc
    split_ifs at hc with heq
    · subst heq
      obtain ⟨c₀, hc₀, rfl⟩ := map_eq_some_iff.mp hc
      exact (hinv.candidates h c₀ hc₀).confirmed hheight
    · exact hinv.candidates h c hc
  · intro o h hlocked
    obtain ⟨c, hc, ho, henough⟩ := hinv.locks o h hlocked
    simp only [lookup_adjust]
    by_cases heq : h = k
    · subst heq
      exact ⟨c.setConfirmedHeight nHeight, by simp [hc], ho, henough⟩
    · exact ⟨c, by simp [heq, hc], ho, henough⟩

theorem removal (hremoval : Removal env s t) : LockInv valid t where
  candidates := fun h c hc => hinv.candidates h c ((hremoval.candidates h c).mp hc).1
  accepted := fun h request hmem => hinv.accepted h request (hremoval.accepted h request hmem)
  rejected := fun h request hmem => hinv.rejected h request (hremoval.rejected h request hmem)
  locks := by
    intro o h hlocked
    obtain ⟨hlocked, hkept⟩ := (hremoval.locked o h).mp hlocked
    obtain ⟨c, hc, ho, henough⟩ := hinv.locks o h hlocked
    refine ⟨c, (hremoval.candidates h c).mpr ⟨hc, ?_⟩, ho, henough⟩
    by_contra hexpired
    exact hkept ⟨h, c, hc, by simpa using hexpired, ho⟩

theorem checkAndRemove (env : InstantSendEnv) : LockInv valid (s.checkAndRemove env) := by
  rcases checkAndRemove_cases with hsame | hremoval
  · rwa [hsame]
  · exact hinv.removal hremoval

variable {c : CTxLockCandidate}

theorem locked (hc : s.mapTxLockCandidates.lookup h = some c) (hready : c.isAllOutPointsReady) :
    LockInv valid { s with
      mapLockedOutpoints :=
        insertAllNew s.mapLockedOutpoints c.mapOutPointLocks.keys c.getHash } := by
  refine ⟨hinv.candidates, hinv.accepted, hinv.rejected, ?_⟩
  intro o h' hlocked
  rw [lookup_insertAllNew] at hlocked
  split_ifs at hlocked with ho
  · cases hold : s.mapLockedOutpoints.lookup o with
    | some old =>
      obtain rfl : old = h' := by simpa [hold] using hlocked
      exact hinv.locks o old hold
    | none =>
      obtain rfl : c.getHash = h' := by simpa [hold] using hlocked
      rw [(hinv.candidates h c hc).getHash_eq ho]
      exact ⟨c, hc, ho, enough_of_ready hready⟩
  · exact hinv.locks o h' hlocked

theorem expired (k k' : UInt256) :
    LockInv valid { s with
      mapTxLockCandidates :=
        adjust (adjust s.mapTxLockCandidates k (·.setConfirmedHeight 0)) k'
          (·.setConfirmedHeight 0) } :=
  (hinv.adjusted k (by decide) s.mapTxLockVotes).adjusted k' (by decide) s.mapTxLockVotes

theorem dropBoth {k' : UInt256} {own other : CTxLockCandidate} (hown : own.getHash = k)
    (hother : other.getHash = k') : LockInv valid (s.dropBoth env k k' own other) := by
  have hremoved := (hinv.expired k k').checkAndRemove env
  exact ⟨hremoved.candidates, hremoved.accepted,
    getHash_of_insertNew (getHash_of_insertNew hremoved.rejected hown) hother, hremoved.locks⟩

theorem finalized (hc : s.mapTxLockCandidates.lookup h = some c) (hfinal : Finalized env s c t) :
    LockInv valid t := by
  cases hfinal with
  | same => exact hinv
  | locked hready hfree => exact hinv.locked hc hready
  | @dropped o hash own other hready ho hlocked hne hown hother =>
    obtain ⟨⟨o', ho'⟩, -⟩ := isAllOutPointsReady_iff.mp hready
    have hhash := (hinv.candidates h c hc).getHash_eq ho'
    obtain rfl : own = c := by
      rw [hhash] at hown
      exact some.inj (hown.symm.trans hc)
    obtain ⟨c', hc', ho'', -⟩ := hinv.locks o hash hlocked
    obtain rfl : other = c' := some.inj (hother.symm.trans hc')
    exact hinv.dropBoth rfl ((hinv.candidates hash other hother).getHash_eq ho'')

omit hinv in
theorem outcome (hsub : ∀ v, valid' v → valid v) (hinv : LockInv valid s)
    {requests : List CTxLockRequest} (houtcome : Outcome valid' env h requests s t) :
    LockInv valid t := by
  obtain ⟨s₁, hpreps, rfl | ⟨c, hc, -, hfinal⟩⟩ := houtcome
  · exact hinv.preps hsub hpreps
  · exact (hinv.preps hsub hpreps).finalized hc hfinal

theorem next {crypto : LockCrypto} {a : InstantSendStep}
    (hsub : ∀ v, v.isValid crypto a.env → valid v) : LockInv valid (s.next crypto a) := by
  have hshape : StepShape crypto s a (s.next crypto a) := stepShape hinv.keyed
  generalize s.next crypto a = t at hshape
  cases hshape with
  | prepared houtcome => exact hinv.outcome hsub houtcome
  | tip nHeight => exact ⟨hinv.candidates, hinv.accepted, hinv.rejected, hinv.locks⟩
  | confirmed h nHeight votes hheight => exact hinv.adjusted h hheight votes
  | removed hcall => exact hinv.checkAndRemove a.env

end

theorem runSteps (crypto : LockCrypto) (steps : List InstantSendStep) :
    LockInv (fun v => ∃ a ∈ steps, v.isValid crypto a.env)
      (CInstantSend.runSteps crypto {} steps) := by
  have hrun : ∀ (rest : List InstantSendStep) (s : CInstantSend), (∀ a ∈ rest, a ∈ steps) →
      LockInv (fun v => ∃ a ∈ steps, v.isValid crypto a.env) s →
      LockInv (fun v => ∃ a ∈ steps, v.isValid crypto a.env)
        (.runSteps crypto s rest) := by
    intro rest
    induction rest with
    | nil => exact fun s _ hinv => hinv
    | cons a rest ih =>
      intro s hsteps hinv
      refine ih _ (fun b hb => hsteps b (mem_cons_of_mem _ hb)) ?_
      exact hinv.next fun v hv => ⟨a, hsteps a mem_cons_self, hv⟩
  exact hrun steps {} (fun _ ha => ha) .empty

end LockInv
end CInstantSend
end ImageCoin
