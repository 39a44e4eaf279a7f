import ImageCoin.MasternodeOwnership
import ImageCoin.StepRuns

/-!
# Bans by proof of service

The score of a masternode stays between its bounds, and a ban lasts until the chain has the
height of the ban or the collateral is gone.
-/

namespace ImageCoin

open MapEntries StepRuns CMasternodeMan CMasternode Option AList
variable {change : ScoreChange} {fForce : Bool} {mnp : CMasternodePing} {hash : UInt256}

section
variable {Addr : Type} {ledger : UInt256 → Option CTransaction}
  {known : Set (MasternodeEnv Addr)} {takes : CMasternode Addr → Prop}
  {mn mn' : CMasternode Addr} {o : COutPoint} {height : ℤ}

/-- One change of an entry by a node that knows one of `known`, where broadcasts replace what
the entries of `takes` say. -/
inductive EntryChange (ledger : UInt256 → Option CTransaction)
    (known : Set (MasternodeEnv Addr)) (takes : CMasternode Addr → Prop) :
    CMasternode Addr → CMasternode Addr → Prop
  | check (mn : CMasternode Addr) {env : MasternodeEnv Addr} (henv : env ∈ known) (size : ℕ)
      (fForce : Bool) : EntryChange ledger known takes mn (mn.check ledger env size fForce)
  | lastPing (mn : CMasternode Addr) (mnp : CMasternodePing) :
      EntryChange ledger known takes mn { mn with lastPing := mnp }
  | watchdogVote (mn : CMasternode Addr) (nTime : ℤ) :
      EntryChange ledger known takes mn { mn with nTimeLastWatchdogVote := nTime }
  | broadcast {mn : CMasternode Addr} (htakes : takes mn) (mnb : CMasternodeBroadcast Addr) :
      EntryChange ledger known takes mn (mn.takeBroadcast mnb)
  | own (mn : CMasternode Addr) :
      EntryChange ledger known takes mn { mn with nPoSeBanScore := -masternodePoseBanMaxScore }
  | score (mn : CMasternode Addr) (change : ScoreChange) :
      EntryChange ledger known takes mn (change.apply mn)

abbrev EntryChanges (ledger : UInt256 → Option CTransaction)
    (known : Set (MasternodeEnv Addr)) (takes : CMasternode Addr → Prop) :
    CMasternode Addr → CMasternode Addr → Prop :=
  Relation.ReflTransGen (EntryChange ledger known takes)

theorem EntryChanges.keep {P : CMasternode Addr → Prop}
    (hkeep : ∀ {mn mn'}, EntryChange ledger known takes mn mn' → P mn → P mn')
    (hchanges : EntryChanges ledger known takes mn mn') (hmn : P mn) : P mn' := by
  induction hchanges with
  | refl => exact hmn
  | tail _ hchange ih => exact hkeep hchange ih

def CMasternode.ScoreInRange (mn : CMasternode Addr) : Prop :=
  -masternodePoseBanMaxScore ≤ mn.nPoSeBanScore ∧ mn.nPoSeBanScore ≤ masternodePoseBanMaxScore

theorem ScoreChange.apply_eq : ∃ nScore, change.apply mn = { mn with nPoSeBanScore := nScore } ∧
    (mn.ScoreInRange → CMasternode.ScoreInRange { mn with nPoSeBanScore := nScore }) := by
  unfold CMasternode.ScoreInRange
  cases change with
  | increase =>
    rw [ScoreChange.apply, increasePoSeBanScore]
    split
    next hlow => exact ⟨_, rfl, fun hmn => by dsimp only; omega⟩
    next => exact ⟨mn.nPoSeBanScore, rfl, id⟩
  | decrease =>
    rw [ScoreChange.apply, decreasePoSeBanScore]
    split
    next hhigh => exact ⟨_, rfl, fun hmn => by dsimp only; omega⟩
    next => exact ⟨mn.nPoSeBanScore, rfl, id⟩
  | ban => exact ⟨_, rfl, fun _ => by simp [masternodePoseBanMaxScore]⟩

variable {env : MasternodeEnv Addr}

theorem outpoint_check {size : ℕ} :
    (mn.check ledger env size fForce).vin.prevout = mn.vin.prevout :=
  congrArg BroadcastContent.outpoint content_check

theorem EntryChange.outpoint (hchange : EntryChange ledger known takes mn mn')
    (hmn : mn.vin.prevout = o) : mn'.vin.prevout = o := by
  cases hchange with
  | check henv size fForce => rw [outpoint_check, hmn]
  | lastPing mnp => exact hmn
  | watchdogVote nTime => exact hmn
  | broadcast htakes mnb => exact hmn
  | own => exact hmn
  | score change =>
    obtain ⟨nScore, heq, -⟩ := change.apply_eq
    rw [heq]
    exact hmn

theorem scoreInRange_check (hmn : mn.ScoreInRange) {size : ℕ} :
    (mn.check ledger env size fForce).ScoreInRange := by
  unfold CMasternode.ScoreInRange at hmn ⊢
  unfold check
  dsimp only
  -- Only the end of a ban changes the score.
  split_ifs
  all_goals first | exact hmn | (dsimp only; omega)

theorem EntryChange.scoreInRange (hchange : EntryChange ledger known takes mn mn')
    (hmn : mn.ScoreInRange) : mn'.ScoreInRange := by
  cases hchange with
  | check henv size fForce => exact scoreInRange_check hmn
  | lastPing mnp => exact hmn
  | watchdogVote nTime => exact hmn
  | broadcast htakes mnb =>
    simp [CMasternode.ScoreInRange, takeBroadcast, masternodePoseBanMaxScore]
  | own => simp [CMasternode.ScoreInRange, masternodePoseBanMaxScore]
  | score change =>
    obtain ⟨nScore, heq, hrange⟩ := change.apply_eq
    rw [heq]
    exact hrange hmn

structure CMasternode.BannedUntil (mn : CMasternode Addr) (o : COutPoint) (height : ℤ) : Prop where
  outpoint : mn.vin.prevout = o
  state : mn.nActiveState = .poseBan
  height : mn.nPoSeBanHeight = height

/-- The height of the ban is not reached, and the collateral is not spent. -/
def BanHolds (ledger : UInt256 → Option CTransaction) (o : COutPoint) (height : ℤ)
    (env : MasternodeEnv Addr) : Prop :=
  env.chainHeight < height ∧ checkCollateral ledger env o ≠ .utxoNotFound

theorem CMasternode.BannedUntil.check
    (hban : mn.BannedUntil o height) (hholds : BanHolds ledger o height env) (size : ℕ)
    (fForce : Bool) : (mn.check ledger env size fForce).BannedUntil o height := by
  obtain ⟨rfl, hstate, rfl⟩ := hban
  unfold check
  simp only [hstate, hholds.1, hholds.2, if_false, reduceCtorEq]
  split_ifs
  · exact ⟨rfl, hstate, rfl⟩
  · exact ⟨rfl, hstate, rfl⟩
  · exact ⟨rfl, rfl, rfl⟩
  · exact ⟨rfl, rfl, rfl⟩

theorem EntryChange.bannedUntil (hholds : ∀ env ∈ known, BanHolds ledger o height env)
    (htakes : ∀ mn, takes mn → ¬mn.BannedUntil o height)
    (hchange : EntryChange ledger known takes mn mn') (hban : mn.BannedUntil o height) :
    mn'.BannedUntil o height := by
  have houtpoint := hchange.outpoint hban.outpoint
  cases hchange with
  | check henv size fForce => exact hban.check (hholds _ henv) size fForce
  | lastPing mnp => exact ⟨houtpoint, hban.state, hban.height⟩
  | watchdogVote nTime => exact ⟨houtpoint, hban.state, hban.height⟩
  | broadcast hmn mnb => exact absurd hban (htakes _ hmn)
  | own => exact ⟨houtpoint, hban.state, hban.height⟩
  | score change =>
    obtain ⟨nScore, heq, -⟩ := change.apply_eq
    rw [heq]
    exact ⟨hban.outpoint, hban.state, hban.height⟩

end

/-! ## What a step does to the entries -/

section
variable {Addr : Type} {crypto : MasternodeCrypto Addr} {ledger : UInt256 → Option CTransaction}
  {env : MasternodeEnv Addr} {known : Set (MasternodeEnv Addr)} {takes : CMasternode Addr → Prop}
  {s t : CMasternodeMan Addr} {pmn mn : CMasternode Addr} {mnb : CMasternodeBroadcast Addr}
  {o : COutPoint}

namespace CMasternodeMan

/-- Every entry is still there after its changes, and a new one is that of its outpoint and has
no score. -/
structure Evolves (ledger : UInt256 → Option CTransaction) (known : Set (MasternodeEnv Addr))
    (takes : CMasternode Addr → Prop) (s t : CMasternodeMan Addr) : Prop where
  kept : ∀ o, ∀ mn ∈ s.mapMasternodes.lookup o, ∃ mn' ∈ t.mapMasternodes.lookup o,
    EntryChanges ledger known takes mn mn'
  fresh : ∀ o, s.mapMasternodes.lookup o = none → ∀ mn ∈ t.mapMasternodes.lookup o,
    mn.vin.prevout = o ∧ mn.nPoSeBanScore = 0

theorem Evolves.of_eq (heq : t.mapMasternodes = s.mapMasternodes) :
    Evolves ledger known takes s t where
  kept o mn hmn := ⟨mn, heq ▸ hmn, .refl⟩
  fresh o hnone mn hmn := by simp [heq, hnone] at hmn

theorem Evolves.congr {t' : CMasternodeMan Addr} (h : Evolves ledger known takes s t)
    (heq : t'.mapMasternodes = t.mapMasternodes) : Evolves ledger known takes s t' where
  kept := by simpa only [heq] using h.kept
  fresh := by simpa only [heq] using h.fresh

theorem Evolves.setEntry (h : Evolves ledger known takes s t)
    (hpmn : pmn ∈ s.mapMasternodes.lookup o) (hchanges : EntryChanges ledger known takes pmn mn) :
    Evolves ledger known takes s (t.setEntry o mn) where
  kept o' mn' hmn' := by
    by_cases ho : o' = o
    · subst ho
      obtain rfl := some.inj (hpmn.symm.trans hmn')
      exact ⟨mn, lookup_insert _, hchanges⟩
    · rw [CMasternodeMan.setEntry, lookup_insert_ne ho]
      exact h.kept o' mn' hmn'
  fresh o' hnone mn' hmn' := by
    have ho : o' ≠ o := by
      rintro rfl
      simp [hnone] at hpmn
    rw [CMasternodeMan.setEntry, lookup_insert_ne ho] at hmn'
    exact h.fresh o' hnone mn' hmn'

theorem Evolves.add (h : t.mapMasternodes = s.mapMasternodes) (hscore : mn.nPoSeBanScore = 0) :
    Evolves ledger known takes s (t.add mn) := by
  unfold CMasternodeMan.add
  split_ifs with hthere
  · exact .of_eq h
  · rw [not_isSome_iff_eq_none, h] at hthere
    refine ⟨fun o' mn' hmn' => ?_, fun o' hnone mn' hmn' => ?_⟩
    · have ho : o' ≠ mn.vin.prevout := by
        rintro rfl
        simp [hthere] at hmn'
      rw [CMasternodeMan.setEntry, lookup_insert_ne ho, h]
      exact ⟨mn', hmn', .refl⟩
    · by_cases ho : o' = mn.vin.prevout
      · subst ho
        rw [CMasternodeMan.setEntry, lookup_insert, mem_some_iff] at hmn'
        exact hmn' ▸ ⟨rfl, hscore⟩
      · rw [CMasternodeMan.setEntry, lookup_insert_ne ho, h, hnone] at hmn'
        simp at hmn'

section
variable (henv : env ∈ known)
include henv

theorem takePing_changes :
    EntryChanges ledger known takes pmn (s.takePing crypto ledger env pmn mnp).1 := by
  unfold takePing
  split_ifs
  · exact .single (.lastPing pmn mnp)
  · cases hok : mnp.checkAndUpdate crypto ledger env pmn s.size true with
    | error nDos => exact .refl
    | ok accepted =>
      dsimp only
      rw [(checkAndUpdate_ok hok).2]
      exact (Relation.ReflTransGen.single (.lastPing pmn mnp)).tail (.check _ henv _ _)

variable (crypto ledger) in
theorem updateFromNewBroadcast_changes (s : CMasternodeMan Addr) (mnb : CMasternodeBroadcast Addr)
    (htakes : (mnb.sigTime ≤ pmn.sigTime && !mnb.fRecovery) = false → takes pmn) :
    EntryChanges ledger known takes pmn
      (s.updateFromNewBroadcast crypto ledger env pmn mnb).2.1 := by
  unfold updateFromNewBroadcast
  by_cases hold : (mnb.sigTime ≤ pmn.sigTime && !mnb.fRecovery)
  · rw [if_pos hold]
  · have hpinged : EntryChanges ledger known takes pmn
        (s.takePing crypto ledger env (pmn.takeBroadcast mnb) mnb.lastPing).1 :=
      .head (.broadcast (htakes (Bool.not_eq_true _ ▸ hold)) mnb) (takePing_changes henv)
    split_ifs
    · exact hpinged.tail (.own _)
    · exact hpinged

section
variable (htakes : ∀ mn : CMasternode Addr, mn.nActiveState ≠ .poseBan → takes mn)
include htakes

theorem update_evolves (heq : t.mapMasternodes = s.mapMasternodes)
    (hpmn : pmn ∈ s.mapMasternodes.lookup mnb.vin.prevout) :
    Evolves ledger known takes s (t.update crypto ledger env pmn mnb).2 := by
  unfold update
  by_cases hsame : (pmn.sigTime = mnb.sigTime && !mnb.fRecovery)
  · rw [if_pos hsame]
    exact .of_eq heq
  rw [if_neg hsame]
  by_cases holder : pmn.sigTime > mnb.sigTime
  · rw [if_pos holder]
    exact .of_eq heq
  have hchecked : EntryChanges ledger known takes pmn (pmn.check ledger env t.size false) :=
    .single (.check pmn henv _ _)
  dsimp only
  generalize pmn.check ledger env t.size false = checked at hchecked
  have hset := (Evolves.of_eq heq).setEntry hpmn hchecked
  split_ifs with hbanned
  · exact hset
  · exact hset
  · exact hset
  · generalize t.setEntry mnb.vin.prevout checked = t₁ at hset
    have hentry := updateFromNewBroadcast_changes crypto ledger henv t₁ mnb fun _ =>
      htakes checked hbanned
    have hentries := (updateFromNewBroadcast_spec crypto ledger env t₁ checked mnb).1
    generalize t₁.updateFromNewBroadcast crypto ledger env checked mnb = result at hentry hentries
    obtain ⟨ok, mn, t₂⟩ := result
    have hupdated := hset.congr hentries
    cases ok with
    | false => exact hupdated.setEntry hpmn (hchecked.trans hentry)
    | true => exact hupdated.setEntry hpmn ((hchecked.trans hentry).tail (.check _ henv _ _))
  · exact hset

theorem updateKnown_evolves [Inhabited Addr] (heq : t.mapMasternodes = s.mapMasternodes)
    (hpmn : pmn ∈ s.mapMasternodes.lookup mnb.vin.prevout) :
    Evolves ledger known takes s (t.updateKnown crypto ledger env pmn mnb hash).2.2 := by
  have hupdate : Evolves ledger known takes s
      ((t.seenBroadcast crypto env pmn).2.update crypto ledger env pmn mnb).2 :=
    update_evolves henv htakes (seenBroadcast_mapMasternodes.trans heq) hpmn
  unfold updateKnown
  dsimp only
  generalize (t.seenBroadcast crypto env pmn).2.update crypto ledger env pmn mnb = result
    at hupdate ⊢
  obtain ⟨verdict, t'⟩ := result
  cases verdict with
  | error nDos => exact hupdate
  | ok =>
    split_ifs
    · exact hupdate.congr rfl
    · exact hupdate

end

omit henv in
theorem addNew_evolves (heq : t.mapMasternodes = s.mapMasternodes) {nDos : ℕ}
    (hscore : mnb.nPoSeBanScore = 0) :
    Evolves ledger known takes s (t.addNew crypto ledger env mnb nDos hash).2.2 := by
  unfold addNew
  cases hcheck : mnb.checkOutpoint crypto ledger env nDos with
  | error refused =>
    dsimp only
    split_ifs
    · exact .of_eq heq
    · exact .of_eq heq
  | ok mnb' =>
    obtain ⟨block, rfl⟩ := checkOutpoint_eq hcheck
    exact .add heq hscore

theorem checkMnbAndUpdateMasternodeList_evolves [Inhabited Addr] [DecidableEq Addr]
    (htakes : ∀ mn : CMasternode Addr, mn.nActiveState ≠ .poseBan → takes mn)
    {pfrom : Option Addr} (hscore : mnb.nPoSeBanScore = 0) :
    Evolves ledger known takes s
      (s.checkMnbAndUpdateMasternodeList crypto ledger env pfrom mnb).2.2 := by
  unfold checkMnbAndUpdateMasternodeList
  dsimp only
  split
  next => exact .of_eq seenAgain_mapMasternodes
  next =>
    generalize hinserted : (if (s.mapSeenMasternodeBroadcast.lookup
      (mnb.getHash crypto)).isSome then s else _) = s'
    have heq : s'.mapMasternodes = s.mapMasternodes := by
      rw [← hinserted]
      split_ifs <;> rfl
    split
    next => exact .of_eq heq
    next nDos mnb' hcheck =>
      obtain ⟨state, rfl⟩ := simpleCheck_some hcheck
      cases hpmn : s'.mapMasternodes.lookup mnb.vin.prevout with
      | some pmn => exact updateKnown_evolves henv htakes heq (heq ▸ hpmn)
      | none => exact addNew_evolves heq hscore

end

theorem updateWatchdogVoteTime_evolves (heq : t.mapMasternodes = s.mapMasternodes) {nVoteTime : ℤ} :
    Evolves ledger known takes s (t.updateWatchdogVoteTime env o nVoteTime) := by
  unfold updateWatchdogVoteTime
  cases hpmn : t.mapMasternodes.lookup o with
  | none => exact .of_eq heq
  | some pmn =>
    exact ((Evolves.of_eq heq).setEntry (heq ▸ hpmn) (.single (.watchdogVote pmn _))).congr rfl

theorem updatePing_evolves (henv : t.watchdogEnv env ∈ known) (h : Evolves ledger known takes s t)
    (hpmn : pmn ∈ s.mapMasternodes.lookup mnp.vin.prevout)
    (hchanges : EntryChanges ledger known takes pmn mn) :
    Evolves ledger known takes s (t.updatePing crypto ledger env mn mnp) := by
  unfold updatePing
  split_ifs
  · exact h
  · cases hok : mnp.checkAndUpdate crypto ledger (t.watchdogEnv env) mn t.size false with
    | error nDos => exact h
    | ok accepted =>
      refine (h.congr setSeenPing_mapMasternodes).setEntry hpmn ?_
      rw [(checkAndUpdate_ok hok).2]
      exact (hchanges.tail (.lastPing mn mnp)).tail (.check _ henv _ _)

section
variable (henv : ∀ t : CMasternodeMan Addr, t.watchdogEnv env ∈ known)
include henv

theorem processPing_evolves :
    Evolves ledger known takes s (s.processPing crypto ledger env mnp) := by
  have hinsert : (s.insertSeenPing crypto mnp).mapMasternodes = s.mapMasternodes :=
    insertSeenPing_mapMasternodes
  unfold processPing
  split_ifs with hsynced hseen hsentinel
  · exact .of_eq rfl
  · exact .of_eq rfl
  · have hvoted : Evolves ledger known takes s
        ((s.insertSeenPing crypto mnp).updateWatchdogVoteTime env mnp.vin.prevout mnp.sigTime) :=
      updateWatchdogVoteTime_evolves hinsert
    dsimp only
    cases hpmn : s.mapMasternodes.lookup mnp.vin.prevout with
    | none =>
      rw [← hinsert] at hpmn
      simp only [updateWatchdogVoteTime, hpmn]
      exact .of_eq hinsert
    | some pmn =>
      obtain ⟨mn, hmn, hchanges⟩ := hvoted.kept _ pmn hpmn
      rw [mem_def.mp hmn]
      exact updatePing_evolves (henv _) hvoted hpmn hchanges
  · dsimp only
    rw [hinsert]
    cases hpmn : s.mapMasternodes.lookup mnp.vin.prevout with
    | none => exact .of_eq hinsert
    | some pmn => exact updatePing_evolves (henv _) (.of_eq hinsert) hpmn .refl

theorem updateMasternodeList_evolves [Inhabited Addr] (hscore : mnb.nPoSeBanScore = 0)
    (htakes : ∀ pmn ∈ s.mapMasternodes.lookup mnb.vin.prevout,
      (mnb.sigTime ≤ pmn.sigTime && !mnb.fRecovery) = false → takes pmn) :
    Evolves ledger known takes s (s.updateMasternodeList crypto ledger env mnb) := by
  unfold updateMasternodeList
  dsimp only
  have heq : ((s.insertSeenPing crypto mnb.lastPing).insertSeenBroadcast crypto env
      mnb).mapMasternodes = s.mapMasternodes := insertSeenPing_mapMasternodes
  generalize (s.insertSeenPing crypto mnb.lastPing).insertSeenBroadcast crypto env mnb = s₁ at heq
  cases hpmn : s₁.mapMasternodes.lookup mnb.vin.prevout with
  | none => exact .add heq hscore
  | some pmn =>
    rw [heq] at hpmn
    have hentry := updateFromNewBroadcast_changes crypto ledger (henv s₁)
      (s₁.seenBroadcast crypto env pmn).2 mnb (htakes pmn hpmn)
    have hentries := (updateFromNewBroadcast_spec crypto ledger (s₁.watchdogEnv env)
      (s₁.seenBroadcast crypto env pmn).2 pmn mnb).1
    rw [seenBroadcast_mapMasternodes, heq] at hentries
    dsimp only
    generalize (s₁.seenBroadcast crypto env pmn).2.updateFromNewBroadcast crypto ledger
      (s₁.watchdogEnv env) pmn mnb = result at hentry hentries ⊢
    obtain ⟨ok, mn, t⟩ := result
    have hset : Evolves ledger known takes s (t.setEntry mnb.vin.prevout mn) :=
      (Evolves.of_eq hentries).setEntry hpmn hentry
    cases ok with
    | false => exact hset
    | true => exact hset.congr rfl

end

theorem sendEntries_mapMasternodes {outpoints : List COutPoint} :
    (s.sendEntries crypto env outpoints).mapMasternodes = s.mapMasternodes := by
  refine List.foldlRecOn (motive := fun t : CMasternodeMan Addr =>
    t.mapMasternodes = s.mapMasternodes) _ _ rfl fun t ht o _ => ?_
  split
  next => exact ht
  next => exact insertSeenPing_mapMasternodes.trans ht

theorem checkAll_evolves (henv : s.watchdogEnv env ∈ known) :
    Evolves ledger known takes s (s.checkAll ledger env) where
  kept o mn hmn :=
    ⟨_, by simp [checkAll, lookup_mapValues, mem_def.mp hmn],
      .single (.check mn henv s.size false)⟩
  fresh o hnone mn hmn := by simp [checkAll, lookup_mapValues, hnone] at hmn

theorem changeScore_evolves : Evolves ledger known takes s (s.changeScore change o) where
  kept o' mn hmn := by
    rw [changeScore, lookup_adjust]
    split_ifs with ho
    · subst ho
      rw [mem_def.mp hmn]
      exact ⟨_, rfl, .single (.score mn change)⟩
    · exact ⟨mn, hmn, .refl⟩
  fresh o' hnone mn hmn := by
    rw [changeScore, lookup_adjust] at hmn
    split_ifs at hmn with ho
    · subst ho
      simp [hnone] at hmn
    · simp [hnone] at hmn

end CMasternodeMan

def MasternodeStep.env? : MasternodeStep Addr → Option (MasternodeEnv Addr)
  | .announce env _ _ => env
  | .ping env _ => env
  | .dseg env _ => env
  | .start env _ => env
  | .check env => env
  | .watchdogVote env _ => env
  | .score _ _ => none

def MasternodeStep.knows (op : MasternodeStep Addr) : Set (MasternodeEnv Addr) :=
  { env' | ∃ env ∈ op.env?, ∃ fActive, env' = { env with isWatchdogActive := fActive } }

namespace CMasternodeMan

/-- The broadcasts that the node itself makes replace only the entries of `takes`. -/
def StartTakes (takes : CMasternode Addr → Prop) (s : CMasternodeMan Addr) :
    MasternodeStep Addr → Prop
  | .start _ mnb => ∀ pmn ∈ s.mapMasternodes.lookup mnb.vin.prevout,
      (mnb.sigTime ≤ pmn.sigTime && !mnb.fRecovery) = false → takes pmn
  | _ => True

/-- Entries are those of their outpoints, and their scores are between the bounds. -/
def ScoresInRange (s : CMasternodeMan Addr) : Prop :=
  ∀ o, ∀ mn ∈ s.mapMasternodes.lookup o, mn.vin.prevout = o ∧ mn.ScoreInRange

theorem Evolves.scoresInRange (h : Evolves ledger known takes s t) (hs : s.ScoresInRange) :
    t.ScoresInRange := by
  intro o mn hmn
  cases hold : s.mapMasternodes.lookup o with
  | none =>
    obtain ⟨houtpoint, hscore⟩ := h.fresh o hold mn hmn
    refine ⟨houtpoint, ?_⟩
    simp [CMasternode.ScoreInRange, hscore, masternodePoseBanMaxScore]
  | some pmn =>
    obtain ⟨mn', hmn', hchanges⟩ := h.kept o pmn hold
    obtain rfl := some.inj (hmn'.symm.trans hmn)
    exact ⟨hchanges.keep EntryChange.outpoint (hs o pmn hold).1,
      hchanges.keep EntryChange.scoreInRange (hs o pmn hold).2⟩

/-- The node itself makes no newer broadcast for the outpoint while it is banned. -/
def NotRestarted (o : COutPoint) (s : CMasternodeMan Addr) : MasternodeStep Addr → Prop
  | .start _ mnb => mnb.vin.prevout = o → ∀ pmn ∈ s.mapMasternodes.lookup o,
      pmn.isPoSeBanned → mnb.sigTime ≤ pmn.sigTime ∧ mnb.fRecovery = false
  | _ => True

def Banned (o : COutPoint) (height : ℤ) (s : CMasternodeMan Addr) : Prop :=
  ∃ mn ∈ s.mapMasternodes.lookup o, mn.BannedUntil o height

variable {op : MasternodeStep Addr}

theorem NotRestarted.startTakes (hnot : NotRestarted o s op) (hs : s.ScoresInRange) :
    s.StartTakes (fun mn => mn.nActiveState = .poseBan → mn.vin.prevout ≠ o) op := by
  cases op with
  | start env mnb =>
    rintro pmn hpmn hnewer hbanned rfl
    have houtpoint := (hs _ pmn hpmn).1
    have hold := hnot houtpoint.symm pmn (houtpoint ▸ hpmn) (by simp [isPoSeBanned, hbanned])
    simp [hold] at hnewer
  | _ => trivial

/-! ## Runs -/

variable [Inhabited Addr] [DecidableEq Addr]

theorem step_evolves (htakes : ∀ mn : CMasternode Addr, mn.nActiveState ≠ .poseBan → takes mn)
    (hstart : s.StartTakes takes op) :
    Evolves ledger op.knows takes s (s.step crypto ledger op) := by
  have henv : ∀ env ∈ op.env?, ∀ t : CMasternodeMan Addr, t.watchdogEnv env ∈ op.knows :=
    fun env hmem t => ⟨env, hmem, _, rfl⟩
  cases op with
  | announce env pfrom mnb =>
    simp only [step, processAnnounce]
    split_ifs
    · exact .of_eq rfl
    · exact checkMnbAndUpdateMasternodeList_evolves (henv env rfl s) htakes rfl
  | ping env mnp => exact processPing_evolves (henv env rfl)
  | dseg env outpoints => exact .of_eq sendEntries_mapMasternodes
  | start env mnb => exact updateMasternodeList_evolves (henv env rfl) rfl hstart
  | check env => exact checkAll_evolves (henv env rfl s)
  | watchdogVote env o => exact updateWatchdogVoteTime_evolves rfl
  | score change o => exact changeScore_evolves

theorem step_scoresInRange (hs : s.ScoresInRange) : (s.step crypto ledger op).ScoresInRange := by
  have hstart : s.StartTakes (fun _ => True) op := by
    cases op with
    | start env mnb => exact fun _ _ _ => trivial
    | _ => trivial
  exact (step_evolves (fun _ _ => trivial) hstart).scoresInRange hs

theorem run_scoresInRange (crypto : MasternodeCrypto Addr) (ledger : UInt256 → Option CTransaction)
    (ops : List (MasternodeStep Addr)) : (ops.foldl (step crypto ledger) {}).ScoresInRange :=
  List.foldlRecOn (motive := CMasternodeMan.ScoresInRange) ops _
    (fun _ _ hmn => nomatch hmn) fun _ hs _ _ => step_scoresInRange hs

theorem step_banned {height : ℤ} (hholds : ∀ env ∈ op.env?, BanHolds ledger o height env)
    (hnot : NotRestarted o s op) (hs : s.ScoresInRange) (hban : s.Banned o height) :
    (s.step crypto ledger op).Banned o height := by
  obtain ⟨mn, hmn, hbanned⟩ := hban
  have hevolves : Evolves ledger op.knows _ s (s.step crypto ledger op) :=
    step_evolves (fun mn hstate hbanned => absurd hbanned hstate) (hnot.startTakes hs)
  obtain ⟨mn', hmn', hchanges⟩ := hevolves.kept o mn hmn
  refine ⟨mn', hmn', hchanges.keep (EntryChange.bannedUntil ?_ ?_) hbanned⟩
  · rintro _ ⟨env, hmem, fActive, rfl⟩
    exact hholds env hmem
  · intro mn htakes hbanned
    exact htakes hbanned.state hbanned.outpoint

end CMasternodeMan
end

namespace CMasternodeMan

/-- Scores stay within the bounds, and a ban lasts while the chain is below its height, unless
the collateral goes or the node starts the masternode anew. -/
theorem poseBan_lasts {Addr : Type} [Inhabited Addr] [DecidableEq Addr]
    (crypto : MasternodeCrypto Addr) (ledger : UInt256 → Option CTransaction)
    (before : List (MasternodeStep Addr)) (o : COutPoint) (mn : CMasternode Addr)
    (hmn : mn ∈ (before.foldl (step crypto ledger) {}).mapMasternodes.lookup o) :
    (-5 ≤ mn.nPoSeBanScore ∧ mn.nPoSeBanScore ≤ 5) ∧
      ∀ after : List (MasternodeStep Addr), mn.isPoSeBanned →
        (∀ op ∈ after, ∀ env ∈ op.env?, env.chainHeight < mn.nPoSeBanHeight ∧
          checkCollateral ledger env o ≠ .utxoNotFound) →
        Along (step crypto ledger) (NotRestarted o) (before.foldl (step crypto ledger) {}) after →
        ∃ mn' ∈ ((before ++ after).foldl (step crypto ledger) {}).mapMasternodes.lookup o,
          mn'.isPoSeBanned ∧ mn'.nPoSeBanHeight = mn.nPoSeBanHeight := by
  have hrange := run_scoresInRange crypto ledger before
  refine ⟨(hrange o mn hmn).2, fun after hbanned hholds hnot => ?_⟩
  have hban : Banned o mn.nPoSeBanHeight (before.foldl (step crypto ledger) {}) :=
    ⟨mn, hmn, (hrange o mn hmn).1, of_decide_eq_true hbanned, rfl⟩
  have hall := (along_of_forall fun op hop _ => hholds op hop).and hnot
  rw [List.foldl_append]
  obtain ⟨-, mn', hmn', hbanned'⟩ := hall.foldl
    (fun s op (hs : s.ScoresInRange ∧ s.Banned o mn.nPoSeBanHeight) hop =>
      ⟨step_scoresInRange hs.1, step_banned hop.1 hop.2 hs.1 hs.2⟩) ⟨hrange, hban⟩
  exact ⟨mn', hmn', decide_eq_true hbanned'.state, hbanned'.height⟩

end CMasternodeMan

def banningRun : List (MasternodeStep ℕ) :=
  [.announce listingEnv (some 9) (announcement [1]).mnb, .score .ban ⟨5, 0⟩, .check listingEnv]

/-- Then the node itself starts it, with a broadcast signed some time after the announcement,
and checks it a minute later. -/
def startingRun (seconds : ℤ) : List (MasternodeStep ℕ) :=
  [.start listingEnv { (announcement [1]).mnb with sigTime := 1525000000 + seconds },
    .check { listingEnv with getTime := 1530000060 }]

namespace CMasternodeMan

theorem poseBan_lasts_banningRun :
    ∃ mn ∈ (banningRun.foldl (step (announcing (announcedContent [1])) (fundedBy [[1]]))
        {}).mapMasternodes.lookup ⟨5, 0⟩,
      mn.nPoSeBanHeight = 101 ∧
      ∃ mn' ∈ ((banningRun ++ startingRun 0).foldl (step (announcing (announcedContent [1]))
          (fundedBy [[1]])) {}).mapMasternodes.lookup ⟨5, 0⟩,
        mn'.isPoSeBanned ∧ mn'.nPoSeBanHeight = mn.nPoSeBanHeight := by
  cases hmn : (banningRun.foldl (step (announcing (announcedContent [1])) (fundedBy [[1]]))
      {}).mapMasternodes.lookup ⟨5, 0⟩ with
  | none => exact absurd hmn (by decide +kernel)
  | some mn =>
    have hfields : ((banningRun.foldl (step (announcing (announcedContent [1]))
        (fundedBy [[1]])) {}).mapMasternodes.lookup ⟨5, 0⟩).map (fun mn =>
          (mn.isPoSeBanned, mn.nPoSeBanHeight, mn.sigTime)) = some (true, 101, 1525000000) := by
      decide +kernel
    rw [hmn] at hfields
    simp only [map_some, some.injEq, Prod.mk.injEq] at hfields
    obtain ⟨hbanned, hheight, htime⟩ := hfields
    refine ⟨mn, rfl, hheight,
      (poseBan_lasts _ (fundedBy [[1]]) banningRun ⟨5, 0⟩ mn hmn).2 _ hbanned ?_ ?_⟩
    · rw [hheight]
      decide +kernel
    · refine ⟨fun _ pmn hpmn _ => ⟨?_, rfl⟩, trivial, trivial⟩
      obtain rfl := some.inj (hmn.symm.trans hpmn)
      exact htime.ge

/-- When the node itself starts a banned masternode anew, the ban ends at a height below that
of the ban. -/
theorem restart_ends_poseBan :
    ((banningRun.foldl (step (announcing (announcedContent [1])) (fundedBy [[1]]))
        {}).mapMasternodes.lookup ⟨5, 0⟩).map (fun mn => (mn.isPoSeBanned, mn.nPoSeBanHeight)) =
      some (true, 101) ∧
    (∀ op ∈ startingRun 1, ∀ env ∈ op.env?, env.chainHeight < 101 ∧
      checkCollateral (fundedBy [[1]]) env ⟨5, 0⟩ ≠ .utxoNotFound) ∧
    (((banningRun ++ startingRun 1).foldl (step (announcing (announcedContent [1]))
        (fundedBy [[1]])) {}).mapMasternodes.lookup ⟨5, 0⟩).map CMasternode.isPoSeBanned =
      some false := by
  decide +kernel

end CMasternodeMan
end ImageCoin
