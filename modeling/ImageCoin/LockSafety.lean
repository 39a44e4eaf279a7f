import ImageCoin.LockInvariant
import ImageCoin.StepRuns

/-!
# Lock safety

A transaction gets locked only with six valid votes on each of its inputs, none of them marked
as attacked, and two locked transactions share no input.
-/

namespace ImageCoin

open MapEntries Relation StepRuns CTxLockCandidate Option List
variable {nHeight : ℤ}

def CTxLockCandidate.Kept (c c' : CTxLockCandidate) : Prop :=
  (∀ o, o ∈ c'.mapOutPointLocks.keys ↔ o ∈ c.mapOutPointLocks.keys) ∧
    c'.txLockRequest = c.txLockRequest ∧ c'.nConfirmedHeight = c.nConfirmedHeight

theorem CTxLockCandidate.Kept.refl (c : CTxLockCandidate) : c.Kept c :=
  ⟨fun _ => Iff.rfl, rfl, rfl⟩

theorem CTxLockCandidate.Kept.trans {c c' c'' : CTxLockCandidate} (h : c.Kept c')
    (h' : c'.Kept c'') : c.Kept c'' :=
  ⟨fun o => (h'.1 o).trans (h.1 o), h'.2.1.trans h.2.1, h'.2.2.trans h.2.2⟩

theorem CTxLockCandidate.Kept.isExpired_eq {c c' : CTxLockCandidate} (h : c.Kept c')
    {env : InstantSendEnv} : c'.isExpired env nHeight = c.isExpired env nHeight := by
  rw [isExpired, isExpired, h.2.2]

theorem CTxLockCandidate.isExpired_setConfirmedHeight_zero {c : CTxLockCandidate}
    {env : InstantSendEnv} (hheight : -1 ≤ c.nConfirmedHeight)
    (hexpired : c.isExpired env nHeight) :
    (c.setConfirmedHeight 0).isExpired env nHeight := by
  have hold : c.nConfirmedHeight ≠ -1 ∧
      nHeight - c.nConfirmedHeight > nInstantSendKeepLock env.net := by
    simpa [isExpired] using hexpired
  have hnew : nHeight - 0 > nInstantSendKeepLock env.net := by omega
  simpa [isExpired, setConfirmedHeight] using hnew

namespace CInstantSend

variable {valid valid' : CTxLockVote → Prop} {s t : CInstantSend} {h k : UInt256}
  {env : InstantSendEnv} {c : CTxLockCandidate} {o : COutPoint}

theorem Prep.same (hprep : Prep valid h s t) : t.mapLockedOutpoints = s.mapLockedOutpoints ∧
    t.nCachedBlockHeight = s.nCachedBlockHeight := by
  cases hprep <;> exact ⟨rfl, rfl⟩

theorem Preps.same (hpreps : Preps valid h s t) : t.mapLockedOutpoints = s.mapLockedOutpoints ∧
    t.nCachedBlockHeight = s.nCachedBlockHeight := by
  induction hpreps with
  | refl => exact ⟨rfl, rfl⟩
  | tail _ hprep ih => exact ⟨hprep.same.1.trans ih.1, hprep.same.2.trans ih.2⟩

theorem LockInv.prep_kept (hinv : LockInv valid s) (hprep : Prep valid' h s t)
    (hc : s.mapTxLockCandidates.lookup k = some c) (ho : o ∈ c.mapOutPointLocks.keys) :
    ∃ c', t.mapTxLockCandidates.lookup k = some c' ∧ c.Kept c' := by
  cases hprep with
  | @candidate k' c' hmove =>
    rw [lookup_setCandidate]
    by_cases heq : k = k'
    · subst heq
      rw [hc] at hmove
      exact ⟨c', if_pos rfl, (hinv.candidates k c hc).move_keeps hmove ho⟩
    · exact ⟨c, by rw [if_neg heq, hc], .refl c⟩
  | recorded o => exact ⟨c, hc, .refl c⟩
  | accepted tx => exact ⟨c, hc, .refl c⟩
  | rejected tx => exact ⟨c, hc, .refl c⟩
  | books votes orphans times => exact ⟨c, hc, .refl c⟩

theorem LockInv.preps_kept (hsub : ∀ v, valid' v → valid v) (hinv : LockInv valid s)
    (hpreps : Preps valid' h s t) (hc : s.mapTxLockCandidates.lookup k = some c)
    (ho : o ∈ c.mapOutPointLocks.keys) :
    ∃ c', t.mapTxLockCandidates.lookup k = some c' ∧ c.Kept c' := by
  induction hpreps with
  | refl => exact ⟨c, hc, .refl c⟩
  | tail hpreps hprep ih =>
    obtain ⟨c₁, hc₁, hkept⟩ := ih
    obtain ⟨c₂, hc₂, hkept'⟩ :=
      (hinv.preps hsub hpreps).prep_kept hprep hc₁ ((hkept.1 o).mpr ho)
    exact ⟨c₂, hc₂, hkept.trans hkept'⟩

theorem Preps.other (hpreps : Preps valid h s t) (hne : k ≠ h)
    (hc : t.mapTxLockCandidates.lookup k = some c) :
    ∃ c₀, s.mapTxLockCandidates.lookup k = some c₀ ∧ c₀.Kept c := by
  induction hpreps generalizing c with
  | refl => exact ⟨c, hc, .refl c⟩
  | @tail s₁ _ _ hprep ih =>
    cases hprep with
    | @candidate k' c' hmove =>
      rw [lookup_setCandidate] at hc
      split_ifs at hc with heq
      · subst heq
        obtain rfl := some.inj hc
        generalize hold : s₁.mapTxLockCandidates.lookup k = old at hmove
        cases hmove with
        | created time => exact absurd rfl hne
        | stored hempty hhash => exact absurd rfl hne
        | filled hempty hhash => exact absurd rfl hne
        | voted hvalid hhash hadd => exact absurd rfl hne
        | attacked o =>
          obtain ⟨c₀, hc₀, hkept⟩ := ih hold
          exact ⟨c₀, hc₀, hkept.trans ⟨fun _ => mem_keys_markOutpointAsAttacked, rfl, rfl⟩⟩
      · exact ih hc
    | recorded o => exact ih hc
    | accepted tx => exact ih hc
    | rejected tx => exact ih hc
    | books votes orphans times => exact ih hc

theorem locksAll_iff : s.locksAll h ↔ ∃ c, s.mapTxLockCandidates.lookup h = some c ∧
    (∃ o, o ∈ c.mapOutPointLocks.keys) ∧
    ∀ o ∈ c.mapOutPointLocks.keys, s.mapLockedOutpoints.lookup o = some h := by
  unfold locksAll
  cases hc : s.mapTxLockCandidates.lookup h with
  | none => simp
  | some c =>
    simp only [Bool.and_eq_true, Bool.not_eq_true', isEmpty_eq_false_iff_exists_mem,
      List.all_eq_true, decide_eq_true_eq, some.injEq, exists_eq_left']

theorem LockInv.locksAll_of_preps (hsub : ∀ v, valid' v → valid v) (hinv : LockInv valid s)
    (hpreps : Preps valid' h s t) (hlocked : t.locksAll k) : s.locksAll k := by
  obtain ⟨c', hc', ⟨o, ho⟩, hall⟩ := locksAll_iff.mp hlocked
  rw [hpreps.same.1] at hall
  obtain ⟨c₀, hc₀, ho₀, -⟩ := hinv.locks o k (hall o ho)
  obtain ⟨c₁, hc₁, hkept⟩ := hinv.preps_kept hsub hpreps hc₀ ho₀
  obtain rfl : c₁ = c' := some.inj (hc₁.symm.trans hc')
  exact locksAll_iff.mpr ⟨c₀, hc₀, ⟨o, ho₀⟩, fun o' ho' => hall o' ((hkept.1 o').mpr ho')⟩

theorem locksAll_of_removal (hremoval : Removal env s t) (hlocked : t.locksAll k) :
    s.locksAll k := by
  obtain ⟨c, hc, hkeys, hall⟩ := locksAll_iff.mp hlocked
  exact locksAll_iff.mpr ⟨c, ((hremoval.candidates k c).mp hc).1, hkeys,
    fun o ho => ((hremoval.locked o k).mp (hall o ho)).1⟩

theorem locksAll_of_checkAndRemove (hlocked : (s.checkAndRemove env).locksAll k) :
    s.locksAll k := by
  rcases checkAndRemove_cases with hsame | hremoval
  · rwa [hsame] at hlocked
  · exact locksAll_of_removal hremoval hlocked

theorem locksAll_of_adjusted {votes : Map UInt256 CTxLockVote} (hlocked : locksAll { s with
    mapTxLockCandidates := adjust s.mapTxLockCandidates h (·.setConfirmedHeight nHeight)
    mapTxLockVotes := votes } k) : s.locksAll k := by
  obtain ⟨c, hc, hkeys, hall⟩ := locksAll_iff.mp hlocked
  simp only [lookup_adjust] at hc
  split_ifs at hc with heq
  · subst heq
    obtain ⟨c₀, hc₀, rfl⟩ := map_eq_some_iff.mp hc
    exact locksAll_iff.mpr ⟨c₀, hc₀, hkeys, hall⟩
  · exact locksAll_iff.mpr ⟨c, hc, hkeys, hall⟩

theorem locksAll_of_dropBoth {k₁ k₂ : UInt256} {own other : CTxLockCandidate}
    (hlocked : (s.dropBoth env k₁ k₂ own other).locksAll k) : s.locksAll k := by
  have hexpired : locksAll { s with
      mapTxLockCandidates :=
        adjust (adjust s.mapTxLockCandidates k₁ (·.setConfirmedHeight 0)) k₂
          (·.setConfirmedHeight 0) } k :=
    locksAll_of_checkAndRemove hlocked
  have hfirst : locksAll { s with
      mapTxLockCandidates := adjust s.mapTxLockCandidates k₁ (·.setConfirmedHeight 0) } k =
        true :=
    locksAll_of_adjusted hexpired
  exact locksAll_of_adjusted hfirst

theorem lookup_insertAllNew_ne {m : Map COutPoint UInt256} {os : List COutPoint}
    (hne : k ≠ h) : (insertAllNew m os h).lookup o = some k ↔ m.lookup o = some k := by
  rw [lookup_insertAllNew]
  split_ifs
  · cases m.lookup o with
    | none => simp [Ne.symm hne]
    | some old => simp
  · rfl

variable {crypto : LockCrypto}

theorem LockInv.ready_of_next (hinv : LockInv valid s)
    {a : InstantSendStep} (hsub : ∀ v, v.isValid crypto a.env → valid v)
    (hbefore : s.locksAll k = false) (hafter : (s.next crypto a).locksAll k) :
    ∃ c, (s.next crypto a).mapTxLockCandidates.lookup k = some c ∧ c.isAllOutPointsReady := by
  have hshape : StepShape crypto s a (s.next crypto a) := stepShape hinv.keyed
  have hnot : ¬s.locksAll k := by simp [hbefore]
  generalize s.next crypto a = t at hshape hafter
  cases hshape with
  | @prepared h _ houtcome =>
    obtain ⟨s₁, hpreps, rfl | ⟨c, hc, -, hfinal⟩⟩ := houtcome
    · exact absurd (hinv.locksAll_of_preps hsub hpreps hafter) hnot
    · have hnot₁ : ¬s₁.locksAll k :=
        fun hlocked => hnot (hinv.locksAll_of_preps hsub hpreps hlocked)
      cases hfinal with
      | same => exact absurd hafter hnot₁
      | dropped hready ho hlocked hne hown hother =>
        exact absurd (locksAll_of_dropBoth hafter) hnot₁
      | locked hready hfree =>
        obtain ⟨⟨o, ho⟩, -⟩ := isAllOutPointsReady_iff.mp hready
        have hhash := ((hinv.preps hsub hpreps).candidates h c hc).getHash_eq ho
        by_cases heq : k = h
        · subst heq
          exact ⟨c, hc, hready⟩
        · obtain ⟨c', hc', hkeys, hall⟩ := locksAll_iff.mp hafter
          have hne : k ≠ c.getHash := by rwa [hhash]
          have hlocked₁ : s₁.locksAll k := locksAll_iff.mpr ⟨c', hc', hkeys,
            fun o' ho' => (lookup_insertAllNew_ne hne).mp (hall o' ho')⟩
          exact absurd hlocked₁ hnot₁
  | tip nHeight => exact absurd hafter hnot
  | confirmed h nHeight votes hheight => exact absurd (locksAll_of_adjusted hafter) hnot
  | removed hcall => exact absurd (locksAll_of_checkAndRemove hafter) hnot

/-! ## Locks that go together -/

/-- A transaction holds all its inputs or none. -/
def AllOrNone (s : CInstantSend) : Prop :=
  ∀ h c, s.mapTxLockCandidates.lookup h = some c → ∀ o ∈ c.mapOutPointLocks.keys,
    s.mapLockedOutpoints.lookup o = some h →
      ∀ o' ∈ c.mapOutPointLocks.keys, s.mapLockedOutpoints.lookup o' = some h

/-- The locks on outpoints of expired candidates are held by expired candidates. -/
def LocksApart (env : InstantSendEnv) (s : CInstantSend) : Prop :=
  ∀ e ∈ s.mapTxLockCandidates.entries, e.2.isExpired env s.nCachedBlockHeight →
    ∀ o ∈ e.2.mapOutPointLocks.keys, (s.mapLockedOutpoints.lookup o).all fun h =>
      (s.mapTxLockCandidates.lookup h).any (·.isExpired env s.nCachedBlockHeight)

def lockedForOther (s : CInstantSend) (txHash : UInt256) (o : COutPoint) : Bool :=
  (s.mapLockedOutpoints.lookup o).any fun h => h ≠ txHash

/-- All inputs that are locked for others are locked for the same one. -/
def OneConflict (s : CInstantSend) (request : CTxLockRequest) : Prop :=
  ∀ o ∈ request.prevouts, ∀ o' ∈ request.prevouts,
    s.lockedForOther request.getHash o → s.lockedForOther request.getHash o' →
      s.mapLockedOutpoints.lookup o = s.mapLockedOutpoints.lookup o'

/-- A call finds locks on outpoints of expired candidates held by expired candidates only,
and the requests that it may try to lock conflict with at most one completed lock. -/
def Separate (s : CInstantSend) (a : InstantSendStep) : Prop :=
  LocksApart a.env s ∧ ∀ request ∈ s.requestsFor a.call, s.OneConflict request

instance (env : InstantSendEnv) (s : CInstantSend) : Decidable (LocksApart env s) :=
  inferInstanceAs (Decidable (∀ e ∈ s.mapTxLockCandidates.entries,
    e.2.isExpired env s.nCachedBlockHeight →
      ∀ o ∈ e.2.mapOutPointLocks.keys, (s.mapLockedOutpoints.lookup o).all fun h =>
        (s.mapTxLockCandidates.lookup h).any (·.isExpired env s.nCachedBlockHeight)))

instance (s : CInstantSend) (request : CTxLockRequest) : Decidable (s.OneConflict request) :=
  inferInstanceAs (Decidable (∀ o ∈ request.prevouts, ∀ o' ∈ request.prevouts,
    s.lockedForOther request.getHash o → s.lockedForOther request.getHash o' →
        s.mapLockedOutpoints.lookup o = s.mapLockedOutpoints.lookup o'))

instance (s : CInstantSend) (a : InstantSendStep) : Decidable (Separate s a) :=
  inferInstanceAs (Decidable (LocksApart a.env s ∧
    ∀ request ∈ s.requestsFor a.call, s.OneConflict request))

theorem LocksApart.holder (hapart : LocksApart env s) (hexpiring : s.Expiring env o)
    (hlocked : s.mapLockedOutpoints.lookup o = some h) :
    ∃ c, s.mapTxLockCandidates.lookup h = some c ∧ c.isExpired env s.nCachedBlockHeight := by
  obtain ⟨k, c, hc, hexpired, ho⟩ := hexpiring
  have hall := hapart ⟨k, c⟩ (AList.mem_lookup_iff.mp hc) hexpired o ho
  rw [hlocked] at hall
  cases hholder : s.mapTxLockCandidates.lookup h with
  | none => simp [hholder] at hall
  | some c' => exact ⟨c', rfl, by simpa [hholder] using hall⟩

theorem locksApart_of_holder
    (hholder : ∀ o h, s.Expiring env o → s.mapLockedOutpoints.lookup o = some h →
      ∃ c, s.mapTxLockCandidates.lookup h = some c ∧
        c.isExpired env s.nCachedBlockHeight) : LocksApart env s := by
  intro e he hexpired o ho
  cases hlocked : s.mapLockedOutpoints.lookup o with
  | none => rfl
  | some h =>
    obtain ⟨c, hc, hexpired'⟩ := hholder o h
      ⟨e.1, e.2, AList.mem_lookup_iff.mpr he, hexpired, ho⟩ hlocked
    simp [hc, hexpired']

theorem AllOrNone.preps (hsub : ∀ v, valid' v → valid v) (hinv : LockInv valid s)
    (hpreps : Preps valid' h s t) (hall : s.AllOrNone) : t.AllOrNone := by
  intro k c' hc' o ho hlocked o' ho'
  rw [hpreps.same.1] at hlocked ⊢
  obtain ⟨c₀, hc₀, ho₀, -⟩ := hinv.locks o k hlocked
  obtain ⟨c₁, hc₁, hkept⟩ := hinv.preps_kept hsub hpreps hc₀ ho₀
  obtain rfl : c₁ = c' := some.inj (hc₁.symm.trans hc')
  exact hall k c₀ hc₀ o ho₀ hlocked o' ((hkept.1 o').mp ho')

theorem AllOrNone.adjusted (hall : s.AllOrNone) (k : UInt256) (nHeight : ℤ)
    (votes : Map UInt256 CTxLockVote) :
    AllOrNone { s with
      mapTxLockCandidates := adjust s.mapTxLockCandidates k (·.setConfirmedHeight nHeight)
      mapTxLockVotes := votes } := by
  intro h c hc
  rw [lookup_adjust] at hc
  split_ifs at hc with heq
  · subst heq
    obtain ⟨c₀, hc₀, rfl⟩ := map_eq_some_iff.mp hc
    exact hall h c₀ hc₀
  · exact hall h c hc

/-- A lock goes only together with the candidate that holds it. -/
def KeepsLocks (s t : CInstantSend) : Prop :=
  ∀ o h, s.mapLockedOutpoints.lookup o = some h →
    (t.mapTxLockCandidates.lookup h).isSome → t.mapLockedOutpoints.lookup o = some h

theorem LocksApart.keepsLocks (hapart : LocksApart env s) (hremoval : Removal env s t) :
    KeepsLocks s t := by
  intro o h hlocked hsome
  obtain ⟨c, hc⟩ := isSome_iff_exists.mp hsome
  obtain ⟨hc, hkept⟩ := (hremoval.candidates h c).mp hc
  refine (hremoval.locked o h).mpr ⟨hlocked, fun hexpiring => ?_⟩
  obtain ⟨c', hc', hexpired⟩ := hapart.holder hexpiring hlocked
  obtain rfl : c' = c := some.inj (hc'.symm.trans hc)
  simp [hkept] at hexpired

theorem AllOrNone.removal (hall : s.AllOrNone) (hapart : LocksApart env s)
    (hremoval : Removal env s t) : t.AllOrNone := by
  intro h c hc o ho hlocked o' ho'
  have hlocked' := hall h c ((hremoval.candidates h c).mp hc).1 o ho
    ((hremoval.locked o h).mp hlocked).1 o' ho'
  exact hapart.keepsLocks hremoval o' h hlocked' (by rw [hc]; rfl)

theorem checkAndRemove_separate (hall : s.AllOrNone) (hapart : LocksApart env s) :
    (s.checkAndRemove env).AllOrNone ∧ KeepsLocks s (s.checkAndRemove env) := by
  rcases checkAndRemove_cases with hsame | hremoval
  · rw [hsame]
    exact ⟨hall, fun _ _ hlocked _ => hlocked⟩
  · exact ⟨hall.removal hapart hremoval, hapart.keepsLocks hremoval⟩

theorem AllOrNone.locked (hinv : LockInv valid s) (hall : s.AllOrNone)
    (hc : s.mapTxLockCandidates.lookup h = some c) (hready : c.isAllOutPointsReady)
    (hfree : ∀ o ∈ c.txLockRequest.prevouts, ∀ k, s.mapLockedOutpoints.lookup o = some k →
      k = c.getHash) :
    AllOrNone { s with
      mapLockedOutpoints :=
        insertAllNew s.mapLockedOutpoints c.mapOutPointLocks.keys c.getHash } := by
  have hok := hinv.candidates h c hc
  intro k c' hc' o ho hlocked o' ho'
  by_cases heq : k = c.getHash
  · subst heq
    obtain ⟨⟨o₁, ho₁⟩, -⟩ := isAllOutPointsReady_iff.mp hready
    rw [hok.getHash_eq ho₁] at hc'
    obtain rfl : c = c' := some.inj (hc.symm.trans hc')
    rw [lookup_insertAllNew, if_pos ho']
    cases hold : s.mapLockedOutpoints.lookup o' with
    | none => rfl
    | some old => rw [getD_some, hfree o' (hok.inputs o' ho') old hold]
  · exact (lookup_insertAllNew_ne heq).mpr
      (hall k c' hc' o ho ((lookup_insertAllNew_ne heq).mp hlocked) o' ho')

variable {requests : List CTxLockRequest}

theorem locksApart_expired (hsub : ∀ v, valid' v → valid v) (hinv : LockInv valid s)
    (hall : t.AllOrNone) (hpreps : Preps valid' h s t) {hash : UInt256} {other : CTxLockCandidate}
    (hapart : LocksApart env s) (hconflicts : ∀ request ∈ requests, s.OneConflict request)
    (hc : t.mapTxLockCandidates.lookup h = some c) (hrequest : c.txLockRequest ∈ requests)
    (hhash : c.getHash = h) (ho : o ∈ c.txLockRequest.prevouts)
    (hlocked : t.mapLockedOutpoints.lookup o = some hash) (hne : hash ≠ h)
    (hother : t.mapTxLockCandidates.lookup hash = some other) :
    LocksApart env { t with
      mapTxLockCandidates :=
        adjust (adjust t.mapTxLockCandidates h (·.setConfirmedHeight 0)) hash
          (·.setConfirmedHeight 0) } := by
  obtain ⟨hsame, hheight⟩ := hpreps.same
  have hinv' := hinv.preps hsub hpreps
  have hlookup : ∀ k, (adjust (adjust t.mapTxLockCandidates h (·.setConfirmedHeight 0)) hash
      (·.setConfirmedHeight 0)).lookup k =
        if k = hash then some (other.setConfirmedHeight 0)
        else if k = h then some (c.setConfirmedHeight 0)
        else t.mapTxLockCandidates.lookup k := by
    intro k
    rw [lookup_adjust, lookup_adjust, lookup_adjust, if_neg hne, hother, hc]
    rfl
  apply locksApart_of_holder
  rintro o' h' ⟨k, ce, hce, hexpired, ho'⟩ hlocked'
  simp only [hlookup] at hce ⊢
  split_ifs at hce with hk hk'
  · -- The conflicting candidate holds all of its locks.
    obtain rfl := some.inj hce
    obtain ⟨c', hc', ho'', -⟩ := hinv'.locks o hash hlocked
    obtain rfl : c' = other := some.inj (hc'.symm.trans hother)
    have hown := hall hash c' hother o ho'' hlocked o' ho'
    obtain rfl : hash = h' := some.inj (hown.symm.trans hlocked')
    exact ⟨_, if_pos rfl, hexpired⟩
  · -- Another lock on an input of the request can only be that of the same conflict.
    obtain rfl := some.inj hce
    by_cases hsameTx : h' = h
    · subst hsameTx
      exact ⟨_, by rw [if_neg (Ne.symm hne), if_pos rfl], hexpired⟩
    · have hmem := (hinv'.candidates h c hc).inputs o' ho'
      have hlocked₀ : s.mapLockedOutpoints.lookup o = some hash := hsame ▸ hlocked
      have hlocked₁ : s.mapLockedOutpoints.lookup o' = some h' := hsame ▸ hlocked'
      have hone := hconflicts c.txLockRequest hrequest o' hmem o ho
        (by simpa [lockedForOther, hlocked₁] using fun heq => hsameTx (heq.trans hhash))
        (by simpa [lockedForOther, hlocked₀] using fun heq => hne (heq.trans hhash))
      have heq : h' = hash := by simpa [hlocked₀, hlocked₁] using hone
      exact ⟨_, if_pos heq, hexpired⟩
  · -- The candidate had expired before, and so had the holder of the lock.
    obtain ⟨c₀, hc₀, hkept₀⟩ := hpreps.other hk' hce
    have hexpiring : s.Expiring env o' :=
      ⟨k, c₀, hc₀, by rw [← hkept₀.isExpired_eq, ← hheight]; exact hexpired,
        (hkept₀.1 o').mp ho'⟩
    have hlocked₀ : s.mapLockedOutpoints.lookup o' = some h' := hsame ▸ hlocked'
    obtain ⟨c₁, hc₁, hexpired₁⟩ := hapart.holder hexpiring hlocked₀
    obtain ⟨c₂, hc₂, ho₂, -⟩ := hinv.locks o' h' hlocked₀
    obtain rfl : c₂ = c₁ := some.inj (hc₂.symm.trans hc₁)
    obtain ⟨c₃, hc₃, hkept₃⟩ := hinv.preps_kept hsub hpreps hc₂ ho₂
    have hexpired₃ : c₃.isExpired env t.nCachedBlockHeight := by
      rw [hkept₃.isExpired_eq, hheight]
      exact hexpired₁
    have hzero := isExpired_setConfirmedHeight_zero (hinv'.candidates h' c₃ hc₃).height hexpired₃
    by_cases heq : h' = hash
    · subst heq
      obtain rfl : c₃ = other := some.inj (hc₃.symm.trans hother)
      exact ⟨_, if_pos rfl, hzero⟩
    · by_cases heq' : h' = h
      · subst heq'
        obtain rfl : c₃ = c := some.inj (hc₃.symm.trans hc)
        exact ⟨_, by rw [if_neg heq, if_pos rfl], hzero⟩
      · exact ⟨c₃, by rw [if_neg heq, if_neg heq', hc₃], hexpired₃⟩

theorem LockInv.finalized_separate (hsub : ∀ v, valid' v → valid v) (hinv : LockInv valid s)
    (hall : s.AllOrNone) {s₁ : CInstantSend} (hapart : LocksApart env s)
    (hconflicts : ∀ request ∈ requests, s.OneConflict request) (hpreps : Preps valid' h s s₁)
    (hc : s₁.mapTxLockCandidates.lookup h = some c) (hrequest : c.txLockRequest ∈ requests)
    (hfinal : Finalized env s₁ c t) : t.AllOrNone ∧ KeepsLocks s₁ t := by
  have hinv' := hinv.preps hsub hpreps
  have hall' := hall.preps hsub hinv hpreps
  cases hfinal with
  | same => exact ⟨hall', fun _ _ hlocked _ => hlocked⟩
  | locked hready hfree =>
    refine ⟨hall'.locked hinv' hc hready hfree, fun o k hlocked _ => ?_⟩
    rw [lookup_insertAllNew, hlocked]
    split_ifs <;> rfl
  | @dropped o hash own other hready ho hlocked hne hown hother =>
    obtain ⟨⟨o', ho'⟩, -⟩ := isAllOutPointsReady_iff.mp hready
    have hhash := (hinv'.candidates h c hc).getHash_eq ho'
    rw [hhash] at hne ⊢
    have hexpired : AllOrNone { s₁ with
        mapTxLockCandidates :=
          adjust (adjust s₁.mapTxLockCandidates h (·.setConfirmedHeight 0)) hash
            (·.setConfirmedHeight 0) } :=
      (hall'.adjusted h 0 s₁.mapTxLockVotes).adjusted hash 0 s₁.mapTxLockVotes
    exact checkAndRemove_separate hexpired (locksApart_expired hsub hinv hall' hpreps
      hapart hconflicts hc hrequest hhash ho hlocked hne hother)

theorem LockInv.next_separate (hinv : LockInv valid s)
    {a : InstantSendStep} (hsub : ∀ v, v.isValid crypto a.env → valid v) (hall : s.AllOrNone)
    (hseparate : Separate s a) : (s.next crypto a).AllOrNone ∧ KeepsLocks s (s.next crypto a) := by
  have hshape : StepShape crypto s a (s.next crypto a) := stepShape hinv.keyed
  generalize s.next crypto a = t at hshape
  cases hshape with
  | prepared houtcome =>
    obtain ⟨s₁, hpreps, rfl | ⟨c, hc, hrequest, hfinal⟩⟩ := houtcome
    · refine ⟨hall.preps hsub hinv hpreps, fun o k hlocked _ => ?_⟩
      rw [hpreps.same.1, hlocked]
    · obtain ⟨hall', hkeeps⟩ := hinv.finalized_separate hsub hall hseparate.1
        hseparate.2 hpreps hc hrequest hfinal
      refine ⟨hall', fun o k hlocked hsome => hkeeps o k ?_ hsome⟩
      rw [hpreps.same.1, hlocked]
  | tip nHeight => exact ⟨hall, fun _ _ hlocked _ => hlocked⟩
  | confirmed h nHeight votes hheight =>
    exact ⟨hall.adjusted h nHeight votes, fun _ _ hlocked _ => hlocked⟩
  | removed hcall => exact checkAndRemove_separate hall hseparate.1

theorem allOrNone_runSteps {steps : List InstantSendStep}
    (hseparate : Along (next crypto) Separate {} steps) : (runSteps crypto {} steps).AllOrNone := by
  have hkeep : ∀ s a, LockInv (fun _ => True) s ∧ s.AllOrNone → Separate s a →
      LockInv (fun _ => True) (s.next crypto a) ∧ (s.next crypto a).AllOrNone :=
    fun s a ⟨hinv, hall⟩ hsep =>
      ⟨hinv.next fun _ _ => trivial, (hinv.next_separate (fun _ _ => trivial) hall hsep).1⟩
  have hempty : AllOrNone {} := by
    intro h c hc
    simp at hc
  exact (hseparate.foldl hkeep ⟨.empty, hempty⟩).2

/-! ## Runs -/

/-- Six masternodes have a vote for the transaction on the outpoint, each of which was
valid at one of the steps. -/
def SixVoters (crypto : LockCrypto) (steps : List InstantSendStep) (lock : COutPointLock)
    (h : UInt256) (o : COutPoint) : Prop :=
  ∃ voters : Finset COutPoint, signaturesRequired ≤ voters.card ∧
    ∀ m ∈ voters, ∃ v, lock.mapMasternodeVotes.lookup m = some v ∧ v.txHash = h ∧
      v.outpoint = o ∧ v.outpointMasternode = m ∧ ∃ a ∈ steps, v.isValid crypto a.env

variable {steps : List InstantSendStep} {lock : COutPointLock}

theorem sixVoters_of_enough (hok : CandidateOk (fun v => ∃ a ∈ steps, v.isValid crypto a.env) h c)
    (henough : c.Enough)
    (hlock : c.mapOutPointLocks.lookup o = some lock) : SixVoters crypto steps lock h o := by
  refine ⟨lock.mapMasternodeVotes.keys.toFinset, ?_, ?_⟩
  · rw [toFinset_card_of_nodup lock.mapMasternodeVotes.keys_nodup, AList.keys, keys, length_map]
    exact henough o lock hlock
  · intro m hm
    obtain ⟨v, hv⟩ := (mem_keys_iff _ _).mp (mem_toFinset.mp hm)
    obtain ⟨hhash, ho, hmasternode, hvalid⟩ := hok.votes o lock hlock m v hv
    exact ⟨v, hv, hhash, ho, hmasternode, hvalid⟩

theorem LockInv.locked_votes (hinv : LockInv (fun v => ∃ a ∈ steps, v.isValid crypto a.env) s)
    (hlocked : s.locksAll h) :
    ∃ c tx, s.mapTxLockCandidates.lookup h = some c ∧ c.txLockRequest = some tx ∧
      tx.hash = h ∧ ∀ txin ∈ tx.vin, ∃ lock, c.mapOutPointLocks.lookup txin.prevout = some lock ∧
          SixVoters crypto steps lock h txin.prevout := by
  obtain ⟨c, hc, ⟨o, ho⟩, hall⟩ := locksAll_iff.mp hlocked
  have hok := hinv.candidates h c hc
  obtain ⟨tx, hrequest, hhash⟩ := hok.exists_request ho
  obtain ⟨c', hc', -, henough⟩ := hinv.locks o h (hall o ho)
  obtain rfl : c' = c := some.inj (hc'.symm.trans hc)
  refine ⟨c', tx, hc, hrequest, hhash, fun txin htxin => ?_⟩
  have hmem : txin.prevout ∈ c'.txLockRequest.prevouts := by
    rw [hrequest]
    exact mem_map_of_mem htxin
  obtain ⟨lock, hlock⟩ :=
    (mem_keys_iff _ _).mp (hok.complete (ne_nil_of_mem ho) _ hmem)
  exact ⟨lock, hlock, sixVoters_of_enough hok henough hlock⟩

theorem LockInv.eq_of_shared_input (hinv : LockInv valid s) {h' : UInt256}
    {c' : CTxLockCandidate} (hlocked : s.locksAll h) (hlocked' : s.locksAll h')
    (hc : s.mapTxLockCandidates.lookup h = some c) (hc' : s.mapTxLockCandidates.lookup h' = some c')
    (ho : o ∈ c.txLockRequest.prevouts) (ho' : o ∈ c'.txLockRequest.prevouts) : h = h' := by
  have hkey : ∀ {k : UInt256} {d : CTxLockCandidate}, s.locksAll k →
      s.mapTxLockCandidates.lookup k = some d → o ∈ d.txLockRequest.prevouts →
      s.mapLockedOutpoints.lookup o = some k := by
    intro k d hlockedK hd hod
    obtain ⟨d', hd', ⟨o₁, ho₁⟩, hall⟩ := locksAll_iff.mp hlockedK
    obtain rfl : d' = d := some.inj (hd'.symm.trans hd)
    exact hall o ((hinv.candidates k d' hd).complete (ne_nil_of_mem ho₁) o hod)
  exact some.inj ((hkey hlocked hc ho).symm.trans (hkey hlocked' hc' ho'))

theorem not_attacked_of_ready (hready : c.isAllOutPointsReady)
    (hlock : c.mapOutPointLocks.lookup o = some lock) : lock.fAttacked = false := by
  have hlockReady := (isAllOutPointsReady_iff.mp hready).2 o lock hlock
  simpa using (Bool.and_eq_true_iff.mp hlockReady).1

theorem AllOrNone.inputs (hinv : LockInv valid s) (hall : s.AllOrNone)
    (hc : s.mapTxLockCandidates.lookup h = some c) :
    (∀ o ∈ c.txLockRequest.prevouts, s.mapLockedOutpoints.lookup o = some h) ∨
      ∀ o ∈ c.txLockRequest.prevouts, s.mapLockedOutpoints.lookup o ≠ some h := by
  by_cases hany : ∃ o ∈ c.txLockRequest.prevouts, s.mapLockedOutpoints.lookup o = some h
  · obtain ⟨o, -, hlocked⟩ := hany
    obtain ⟨c', hc', ho, -⟩ := hinv.locks o h hlocked
    obtain rfl : c' = c := some.inj (hc'.symm.trans hc)
    exact .inl fun o' ho' => hall h c' hc o ho hlocked o'
      ((hinv.candidates h c' hc).complete (ne_nil_of_mem ho) o' ho')
  · push Not at hany
    exact .inr hany

/-- In every state reached, a locked transaction has six valid votes on each input, no attacked
input when it gets locked, and no input in common with another. If all calls are separate, its
inputs are locked together. -/
theorem locks_safe (crypto : LockCrypto) (steps : List InstantSendStep) :
    let s := runSteps crypto {} steps
    (∀ h, s.locksAll h → ∃ c tx, s.mapTxLockCandidates.lookup h = some c ∧
      c.txLockRequest = some tx ∧ tx.hash = h ∧ ∀ txin ∈ tx.vin, ∃ lock,
        c.mapOutPointLocks.lookup txin.prevout = some lock ∧
          SixVoters crypto steps lock h txin.prevout) ∧
    (∀ a h, s.locksAll h = false → (s.next crypto a).locksAll h →
      ∃ c, (s.next crypto a).mapTxLockCandidates.lookup h = some c ∧
        ∀ o lock, c.mapOutPointLocks.lookup o = some lock → lock.fAttacked = false) ∧
    (∀ h h' c c' o, s.locksAll h → s.locksAll h' →
      s.mapTxLockCandidates.lookup h = some c → s.mapTxLockCandidates.lookup h' = some c' →
      o ∈ c.txLockRequest.prevouts → o ∈ c'.txLockRequest.prevouts → h = h') ∧
    (Along (next crypto) Separate {} steps → (∀ h c, s.mapTxLockCandidates.lookup h = some c →
        (∀ o ∈ c.txLockRequest.prevouts, s.mapLockedOutpoints.lookup o = some h) ∨
          ∀ o ∈ c.txLockRequest.prevouts, s.mapLockedOutpoints.lookup o ≠ some h) ∧
      ∀ a, Separate s a → KeepsLocks s (s.next crypto a)) := by
  have hinv := LockInv.runSteps crypto steps
  have hweak : LockInv (fun _ => True) (runSteps crypto {} steps) :=
    ⟨fun h c hc => { hinv.candidates h c hc with
        votes := fun o lock hlock m v hv =>
          have hvote := (hinv.candidates h c hc).votes o lock hlock m v hv
          ⟨hvote.1, hvote.2.1, hvote.2.2.1, trivial⟩ },
      hinv.accepted, hinv.rejected, hinv.locks⟩
  refine ⟨fun h hlocked => hinv.locked_votes hlocked, ?_, ?_, ?_⟩
  · intro a h hbefore hafter
    obtain ⟨c, hc, hready⟩ := hweak.ready_of_next (fun _ _ => trivial) hbefore hafter
    exact ⟨c, hc, fun o lock hlock => not_attacked_of_ready hready hlock⟩
  · exact fun h h' c c' o => hinv.eq_of_shared_input
  · intro hseparate
    have hall := allOrNone_runSteps hseparate
    exact ⟨fun h c hc => hall.inputs hinv hc,
      fun a hsep => (hweak.next_separate (fun _ _ => trivial) hall hsep).2⟩

/-- A polynomial stands for the hash, and one signature for all that verify. -/
def plainLockCrypto : LockCrypto where
  hash := fun bytes => BitVec.ofNat 256
    (bytes.foldl (fun acc byte => (acc * 257 + byte.toNat) % 2 ^ 256) 0)
  verifyMessage := fun _ sig _ => sig = [1]

/-- A synced main network node that is no masternode.  The coins are the outputs of
transaction 5, and the masternodes those of transaction 9 in the order of their rank. -/
def lockingEnv : InstantSendEnv where
  net := .main
  getTime := 1530000000
  fLiteMode := false
  fEnableInstantSend := true
  fLargeWorkForkFound := false
  fLargeWorkInvalidChainFound := false
  instantSendEnabled := true
  blockFiltering := true
  maxValue := 10000
  isMasternodeListSynced := true
  chainHeight := 100
  checkFinalTx := fun _ => true
  getUTXOCoin := fun o =>
    if o.hash = 5 then some (.ofOut ⟨2 * coin, [], [], -10⟩ 10 false) else none
  getMasternodeInfo := fun o => if o.hash = 9 then some ⟨70224, [7]⟩ else none
  getMasternodeRank := fun o _ _ => some (o.n.toNat + 1)
  mapNextTx := fun _ => none
  acceptToMemoryPool := fun _ => .accepted
  includedInBlock := fun _ => false
  blockHeight := fun _ => some 100
  fMasterNode := false
  activeMasternode := ⟨⟨9, 0⟩, [7], fun _ => some [1]⟩
  readPastEnd := false

def spending (hash : UInt256) (ns : List UInt32) : CTransaction where
  nVersion := 1
  vin := ns.map fun n => ⟨⟨5, n⟩, [], 0xffffffff⟩
  vout := [⟨coin, [], [], -10⟩]
  nLockTime := 0
  hash := hash

def voteOf (m : UInt32) (hash : UInt256) (n : UInt32) : CTxLockVote :=
  ⟨hash, ⟨5, n⟩, ⟨9, m⟩, [1], -1, 0⟩

def requesting (tx : CTransaction) : InstantSendStep := ⟨lockingEnv, .txLockRequest tx⟩

def voting (ms : List UInt32) (hash : UInt256) (n : UInt32) : List InstantSendStep :=
  ms.map fun m => ⟨lockingEnv, .txLockVote 70208 (voteOf m hash n)⟩

/-- The transaction is locked when the first masternode votes for another one. -/
def attackedRun : List InstantSendStep :=
  requesting (spending 101 [0]) :: voting [0, 1, 2, 3, 4, 5] 101 0 ++
    requesting (spending 102 [0]) :: voting [0] 102 0

/-- The transaction is locked, and one that shares an input is mined and expires.  Blocks are not
filtered then, as `CheckBlock` would refuse this one. -/
def erasedRun : List InstantSendStep :=
  requesting (spending 101 [0, 1]) ::
    (voting [0, 1, 2, 3, 4, 5] 101 0 ++ voting [0, 1, 2, 3, 4, 5] 101 1 ++
      requesting (spending 102 [0]) ::
        [.syncTransaction (spending 102 [0]) (some 7), .updatedBlockTip 125, .checkAndRemove].map
          fun call => ⟨{ lockingEnv with blockFiltering := false }, call⟩)

/-- A locked transaction is marked as attacked and stays locked; a locked transaction loses
one of its locks when another candidate is removed, and keeps the other one. -/
theorem locks_attacked_and_erased : ((runSteps plainLockCrypto {} attackedRun).locksAll 101 ∧
      (((runSteps plainLockCrypto {} attackedRun).mapTxLockCandidates.lookup 101).bind
        (·.mapOutPointLocks.lookup ⟨5, 0⟩)).map (·.fAttacked) = some true) ∧
    ((runSteps plainLockCrypto {} (erasedRun.take 13)).locksAll 101 ∧
      (runSteps plainLockCrypto {} erasedRun).mapLockedOutpoints.lookup ⟨5, 0⟩ = none ∧
      (runSteps plainLockCrypto {} erasedRun).mapLockedOutpoints.lookup ⟨5, 1⟩ = some 101) := by
  decide +kernel

theorem locks_safe_one_lock : (runSteps plainLockCrypto {} (erasedRun.take 13)).locksAll 101 ∧
      ((∀ o ∈ CTxLockRequest.prevouts (some (spending 101 [0, 1])),
        (runSteps plainLockCrypto {} (erasedRun.take 13)).mapLockedOutpoints.lookup o =
          some 101) ∨
      ∀ o ∈ CTxLockRequest.prevouts (some (spending 101 [0, 1])),
        (runSteps plainLockCrypto {} (erasedRun.take 13)).mapLockedOutpoints.lookup o ≠
          some 101) := by
  have hlocked : (runSteps plainLockCrypto {} (erasedRun.take 13)).locksAll 101 := by
    decide +kernel
  have hrequest : ((runSteps plainLockCrypto {}
      (erasedRun.take 13)).mapTxLockCandidates.lookup 101).map (·.txLockRequest) =
        some (some (spending 101 [0, 1])) := by
    decide +kernel
  obtain ⟨c, hc, hc'⟩ := Option.map_eq_some_iff.mp hrequest
  have hsafe := (locks_safe plainLockCrypto (erasedRun.take 13)).2.2.2 (by decide +kernel)
  refine ⟨hlocked, ?_⟩
  rw [← hc']
  exact hsafe.1 101 c hc

end CInstantSend
end ImageCoin
