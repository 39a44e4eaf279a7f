import ImageCoin.MasternodeOwnership
import ImageCoin.StepRuns

/-!
# Pings that are not signed

The handler of `MNPING` remembers a ping by its hash, which the signature is not part of, and
sets the watchdog time of the masternode before it looks at the signature.
-/

namespace ImageCoin

open MapEntries CMasternodeMan InsertedSteps
variable {Addr : Type}

namespace CMasternodeMan

def withPings (s : CMasternodeMan Addr) (m : Map UInt256 CMasternodePing) : CMasternodeMan Addr :=
  { s with mapSeenMasternodePing := m }

/-- Lists that are the same up to which pings were seen, and agree on pings with these hashes. -/
def Alike (hashes : Set UInt256) (s s' : CMasternodeMan Addr) : Prop :=
  ∃ m, s' = s.withPings m ∧
    ∀ h ∈ hashes, (m.lookup h).isSome = (s.mapSeenMasternodePing.lookup h).isSome

namespace Alike

variable {hashes : Set UInt256} {s s' : CMasternodeMan Addr}

theorem refl (hashes : Set UInt256) (s : CMasternodeMan Addr) : Alike hashes s s :=
  ⟨s.mapSeenMasternodePing, rfl, fun _ _ => rfl⟩

section
variable (h : Alike hashes s s')
include h

theorem masternodes : s'.mapMasternodes = s.mapMasternodes := by
  obtain ⟨m, rfl, -⟩ := h
  rfl

theorem broadcasts : s'.mapSeenMasternodeBroadcast = s.mapSeenMasternodeBroadcast := by
  obtain ⟨m, rfl, -⟩ := h
  rfl

theorem watchdogEnv {env : MasternodeEnv Addr} : s'.watchdogEnv env = s.watchdogEnv env := by
  obtain ⟨m, rfl, -⟩ := h
  rfl

theorem size : s'.size = s.size := by
  rw [CMasternodeMan.size, h.masternodes, ← CMasternodeMan.size]

theorem lookup (o : COutPoint) : s'.mapMasternodes.lookup o = s.mapMasternodes.lookup o := by
  rw [h.masternodes]

theorem pings {hash : UInt256} (hmem : hash ∈ hashes) :
    (s'.mapSeenMasternodePing.lookup hash).isSome =
      (s.mapSeenMasternodePing.lookup hash).isSome := by
  obtain ⟨m, rfl, hm⟩ := h
  exact hm hash hmem

theorem mono {hashes' : Set UInt256} (hsub : hashes' ⊆ hashes) : Alike hashes' s s' := by
  obtain ⟨m, rfl, hm⟩ := h
  exact ⟨m, rfl, fun hash hmem => hm hash (hsub hmem)⟩

/-- What neither reads nor writes the pings keeps lists alike. -/
theorem map (f : CMasternodeMan Addr → CMasternodeMan Addr)
    (hf : ∀ s m, f (s.withPings m) = (f s).withPings m) : Alike hashes (f s) (f s') := by
  obtain ⟨m, rfl, hm⟩ := h
  have hself : f s = (f s).withPings s.mapSeenMasternodePing := hf s s.mapSeenMasternodePing
  have hsame : (f s).mapSeenMasternodePing = s.mapSeenMasternodePing :=
    (congrArg mapSeenMasternodePing hself :)
  exact ⟨m, hf s m, fun hash hmem => by rw [hsame, hm hash hmem]⟩

theorem setEntry (o : COutPoint) (mn : CMasternode Addr) :
    Alike hashes (s.setEntry o mn) (s'.setEntry o mn) := h.map (·.setEntry o mn) fun _ _ => rfl

theorem eraseSeen (hash : UInt256) : Alike hashes (s.eraseSeen hash) (s'.eraseSeen hash) :=
  h.map (·.eraseSeen hash) fun _ _ => rfl

theorem setSeenPing (hash : UInt256) (mnp : CMasternodePing) :
    Alike hashes (s.setSeenPing hash mnp) (s'.setSeenPing hash mnp) := by
  refine h.map (·.setSeenPing hash mnp) fun s m => ?_
  cases hlook : s.mapSeenMasternodeBroadcast.lookup hash <;>
    simp [CMasternodeMan.setSeenPing, withPings, hlook]

theorem add (mn : CMasternode Addr) : Alike hashes (s.add mn) (s'.add mn) := by
  refine h.map (·.add mn) fun s m => ?_
  unfold CMasternodeMan.add withPings
  split_ifs <;> rfl

theorem updateWatchdogVoteTime (env : MasternodeEnv Addr) (o : COutPoint) (nVoteTime : ℤ) :
    Alike hashes (s.updateWatchdogVoteTime env o nVoteTime)
      (s'.updateWatchdogVoteTime env o nVoteTime) := by
  refine h.map (·.updateWatchdogVoteTime env o nVoteTime) fun s m => ?_
  cases hlook : s.mapMasternodes.lookup o <;>
    simp [CMasternodeMan.updateWatchdogVoteTime, withPings, CMasternodeMan.setEntry, hlook]

end

variable {crypto : MasternodeCrypto Addr}

theorem insertSeenPing_eq (s : CMasternodeMan Addr) (mnp : CMasternodePing) :
    s.insertSeenPing crypto mnp =
      s.withPings (insertNew s.mapSeenMasternodePing (mnp.getHash crypto) mnp) := by
  unfold CMasternodeMan.insertSeenPing insertNew
  cases s.mapSeenMasternodePing.lookup (mnp.getHash crypto) <;> rfl

theorem isSome_insertNew {m : Map UInt256 CMasternodePing} {k hash : UInt256}
    {mnp : CMasternodePing} : ((insertNew m k mnp).lookup hash).isSome =
      (decide (hash = k) || (m.lookup hash).isSome) := by
  rw [lookup_insertNew]
  split_ifs with heq <;> simp [heq]

variable (h : Alike hashes s s')
include h

theorem insertSeenPing (mnp : CMasternodePing) :
    Alike hashes (s.insertSeenPing crypto mnp) (s'.insertSeenPing crypto mnp) := by
  obtain ⟨m, rfl, hm⟩ := h
  rw [insertSeenPing_eq, insertSeenPing_eq]
  refine ⟨_, rfl, fun hash hmem => ?_⟩
  have hagree : ((s.withPings m).mapSeenMasternodePing.lookup hash).isSome = _ := hm hash hmem
  rw [isSome_insertNew, hagree]
  exact isSome_insertNew.symm

theorem insertSeenPing_right {mnp : CMasternodePing} (hnot : mnp.getHash crypto ∉ hashes) :
    Alike hashes s (s'.insertSeenPing crypto mnp) := by
  obtain ⟨m, rfl, hm⟩ := h
  rw [insertSeenPing_eq]
  refine ⟨_, rfl, fun hash hmem => ?_⟩
  have hne : hash ≠ mnp.getHash crypto := fun heq => hnot (heq ▸ hmem)
  rw [isSome_insertNew, decide_eq_false hne, Bool.false_or]
  exact hm hash hmem

theorem insertSeenBroadcast {env : MasternodeEnv Addr} {mnb : CMasternodeBroadcast Addr} :
    Alike hashes (s.insertSeenBroadcast crypto env mnb) (s'.insertSeenBroadcast crypto env mnb) :=
  h.map (·.insertSeenBroadcast crypto env mnb) fun _ _ => rfl

/-! ## Handlers -/

variable (crypto) (ledger : UInt256 → Option CTransaction) (env : MasternodeEnv Addr)
  (pmn : CMasternode Addr)

theorem takePing (mnp : CMasternodePing) :
    ∃ mn t t', s.takePing crypto ledger env pmn mnp = (mn, t) ∧
      s'.takePing crypto ledger env pmn mnp = (mn, t') ∧ Alike hashes t t' := by
  unfold CMasternodeMan.takePing
  rw [h.size]
  split
  · exact ⟨_, _, _, rfl, rfl, h.insertSeenPing mnp⟩
  · split
    · exact ⟨_, _, _, rfl, rfl, h⟩
    · refine ⟨_, _, _, rfl, rfl, ?_⟩
      split
      · exact (h.setSeenPing _ _).insertSeenPing mnp
      · exact h.setSeenPing _ _

variable (mnb : CMasternodeBroadcast Addr)

theorem updateFromNewBroadcast :
    ∃ result mn t t', s.updateFromNewBroadcast crypto ledger env pmn mnb = (result, mn, t) ∧
      s'.updateFromNewBroadcast crypto ledger env pmn mnb = (result, mn, t') ∧
        Alike hashes t t' := by
  obtain ⟨mn, t, t', htake, htake', hlist⟩ :=
    h.takePing crypto ledger env (pmn.takeBroadcast mnb) mnb.lastPing
  unfold CMasternodeMan.updateFromNewBroadcast
  rw [htake, htake']
  split
  · exact ⟨_, _, s, s', rfl, rfl, h⟩
  · split
    · exact ⟨_, _, _, _, rfl, rfl, hlist⟩
    · exact ⟨_, _, _, _, rfl, rfl, hlist⟩

theorem update : ∃ result t t', s.update crypto ledger env pmn mnb = (result, t) ∧
    s'.update crypto ledger env pmn mnb = (result, t') ∧ Alike hashes t t' := by
  have hentry := h.setEntry mnb.vin.prevout (pmn.check ledger env s.size false)
  obtain ⟨result, mn, t, t', hupdate, hupdate', hlist⟩ := hentry.updateFromNewBroadcast crypto
    ledger env (pmn.check ledger env s.size false) mnb
  unfold CMasternodeMan.update
  rw [h.size]
  dsimp only
  rw [hupdate, hupdate']
  split_ifs
  · exact ⟨_, _, _, rfl, rfl, h⟩
  · exact ⟨_, _, _, rfl, rfl, h⟩
  · exact ⟨_, _, _, rfl, rfl, hentry⟩
  · exact ⟨_, _, _, rfl, rfl, hentry⟩
  · exact ⟨_, _, _, rfl, rfl, hentry⟩
  · cases result with
    | true =>
      refine ⟨_, _, _, rfl, rfl, ?_⟩
      rw [hlist.size]
      exact hlist.setEntry _ _
    | false => exact ⟨_, _, _, rfl, rfl, hlist.setEntry _ _⟩
  · exact ⟨_, _, _, rfl, rfl, hentry⟩

theorem addNew (nDos : ℕ) (hash : UInt256) :
    Alike hashes (s.addNew crypto ledger env mnb nDos hash).2.2
      (s'.addNew crypto ledger env mnb nDos hash).2.2 := by
  unfold CMasternodeMan.addNew
  split
  · split
    · exact h.eraseSeen _
    · exact h
  · exact h.add _

theorem withBroadcasts {known : Bool} {m : Map UInt256 (ℤ × CMasternodeBroadcast Addr)} :
    Alike hashes (if known then s else { s with mapSeenMasternodeBroadcast := m })
      (if known then s' else { s' with mapSeenMasternodeBroadcast := m }) :=
  h.map (fun s => if known then s else { s with mapSeenMasternodeBroadcast := m })
    fun _ _ => by cases known <;> rfl

theorem updatePing {mnp : CMasternodePing} : Alike hashes (s.updatePing crypto ledger env pmn mnp)
    (s'.updatePing crypto ledger env pmn mnp) := by
  unfold CMasternodeMan.updatePing
  rw [h.watchdogEnv, h.size]
  split
  · exact h
  · split
    · exact h
    · exact (h.setSeenPing _ _).setEntry _ _

theorem processPing {mnp : CMasternodePing} (hmem : mnp.getHash crypto ∈ hashes) :
    Alike hashes (s.processPing crypto ledger env mnp)
      (s'.processPing crypto ledger env mnp) := by
  unfold CMasternodeMan.processPing
  rw [h.pings hmem]
  have hseen : Alike hashes (s.insertSeenPing crypto mnp) (s'.insertSeenPing crypto mnp) :=
    h.insertSeenPing mnp
  split_ifs
  · exact h
  · exact h
  · dsimp only
    have hvoted := hseen.updateWatchdogVoteTime env mnp.vin.prevout mnp.sigTime
    rw [hvoted.lookup]
    split
    · exact hvoted
    · exact hvoted.updatePing crypto ledger env _
  · dsimp only
    rw [hseen.lookup]
    split
    · exact hseen
    · exact hseen.updatePing crypto ledger env _

theorem sendEntries {outpoints : List COutPoint} :
    Alike hashes (s.sendEntries crypto env outpoints) (s'.sendEntries crypto env outpoints) := by
  unfold CMasternodeMan.sendEntries
  induction outpoints generalizing s s' with
  | nil => exact h
  | cons outpoint outpoints ih =>
    rw [List.foldl_cons, List.foldl_cons]
    refine ih ?_
    rw [h.lookup]
    split
    · exact h
    · exact h.insertSeenBroadcast.insertSeenPing _

theorem seenAgain [DecidableEq Addr] (pfrom : Option Addr) (hash : UInt256) (nTime : ℤ)
    (seen : CMasternodeBroadcast Addr) :
    Alike hashes (s.seenAgain ledger env pfrom mnb hash nTime seen)
      (s'.seenAgain ledger env pfrom mnb hash nTime seen) := by
  refine h.map (·.seenAgain ledger env pfrom mnb hash nTime seen) fun s m => ?_
  unfold CMasternodeMan.seenAgain withPings CMasternodeMan.size
  split_ifs
  · dsimp only
    split
    · split_ifs <;> rfl
    · rfl
  · dsimp only
    split
    · split_ifs <;> rfl
    · rfl

variable [Inhabited Addr]

theorem seenBroadcast : ∃ mnb t t', s.seenBroadcast crypto env pmn = (mnb, t) ∧
    s'.seenBroadcast crypto env pmn = (mnb, t') ∧ Alike hashes t t' := by
  unfold CMasternodeMan.seenBroadcast
  rw [h.broadcasts]
  split
  · exact ⟨_, _, _, rfl, rfl, h⟩
  · refine ⟨_, _, _, rfl, rfl, h.map (fun s => { s with mapSeenMasternodeBroadcast := _ }) ?_⟩
    exact fun _ _ => rfl

theorem updateKnown (hash : UInt256) :
    Alike hashes (s.updateKnown crypto ledger env pmn mnb hash).2.2
      (s'.updateKnown crypto ledger env pmn mnb hash).2.2 := by
  obtain ⟨old, t, t', hold, hold', hlist⟩ := h.seenBroadcast crypto env pmn
  obtain ⟨result, u, u', hupdate, hupdate', hlist⟩ := hlist.update crypto ledger env pmn mnb
  unfold CMasternodeMan.updateKnown
  rw [hold, hold']
  dsimp only
  rw [hupdate, hupdate']
  cases result with
  | error nDos => exact hlist
  | ok u =>
    dsimp only
    split
    · exact hlist.eraseSeen _
    · exact hlist

theorem updateMasternodeList : Alike hashes (s.updateMasternodeList crypto ledger env mnb)
    (s'.updateMasternodeList crypto ledger env mnb) := by
  have hseen : Alike hashes
      ((s.insertSeenPing crypto mnb.lastPing).insertSeenBroadcast crypto env mnb)
      ((s'.insertSeenPing crypto mnb.lastPing).insertSeenBroadcast crypto env mnb) :=
    (h.insertSeenPing mnb.lastPing).insertSeenBroadcast
  unfold CMasternodeMan.updateMasternodeList
  dsimp only
  rw [hseen.lookup]
  split
  · exact hseen.add _
  next pmn _ =>
    obtain ⟨old, t, t', hold, hold', hlist⟩ := hseen.seenBroadcast crypto env pmn
    rw [hold, hold', hseen.watchdogEnv]
    obtain ⟨result, mn, u, u', hupdate, hupdate', hlist⟩ :=
      hlist.updateFromNewBroadcast crypto ledger _ pmn mnb
    rw [hupdate, hupdate']
    cases result with
    | true => exact (hlist.setEntry _ _).eraseSeen _
    | false => exact hlist.setEntry _ _

theorem checkMnb [DecidableEq Addr] (pfrom : Option Addr) {mnb : CMasternodeBroadcast Addr} :
    Alike hashes (s.checkMnbAndUpdateMasternodeList crypto ledger env pfrom mnb).2.2
      (s'.checkMnbAndUpdateMasternodeList crypto ledger env pfrom mnb).2.2 := by
  unfold checkMnbAndUpdateMasternodeList
  rw [h.broadcasts]
  dsimp only
  split
  · exact h.seenAgain ledger env _ _ _ _ _
  · split
    · exact h.withBroadcasts
    · rw [h.withBroadcasts.lookup]
      split
      · exact h.withBroadcasts.updateKnown crypto ledger env _ _ _
      · exact h.withBroadcasts.addNew crypto ledger env _ _ _

end Alike
end CMasternodeMan

/-! ## Runs -/

variable [DecidableEq Addr] {crypto : MasternodeCrypto Addr}
  {ledger : UInt256 → Option CTransaction}

def MasternodeStep.pingHash (crypto : MasternodeCrypto Addr) : MasternodeStep Addr → Option UInt256
  | .ping _ mnp => some (mnp.getHash crypto)
  | _ => none

namespace CMasternodeMan

variable [Inhabited Addr] {hashes : Set UInt256} {s s' : CMasternodeMan Addr}
  {op : MasternodeStep Addr} {env : MasternodeEnv Addr}

theorem Alike.step (h : Alike hashes s s') (hmem : ∀ hash ∈ op.pingHash crypto, hash ∈ hashes) :
    Alike hashes (s.step crypto ledger op) (s'.step crypto ledger op) := by
  cases op with
  | announce env pfrom mnb =>
    unfold step processAnnounce
    dsimp only
    rw [h.watchdogEnv]
    split
    · exact h
    · exact h.checkMnb crypto ledger _ _
  | ping env mnp => exact h.processPing crypto ledger env (hmem _ rfl)
  | dseg env outpoints => exact h.sendEntries crypto env
  | start env mnb => exact h.updateMasternodeList crypto ledger env _
  | check env => exact h.map (·.checkAll ledger env) fun _ _ => rfl
  | watchdogVote env outpoint => exact h.updateWatchdogVoteTime env outpoint 0
  | score change outpoint => exact h.map (·.changeScore change outpoint) fun _ _ => rfl

variable (crypto) in
def Unsigned (s : CMasternodeMan Addr) : MasternodeStep Addr → Prop
  | .ping _ mnp => ∀ pmn ∈ s.mapMasternodes.lookup mnp.vin.prevout,
      crypto.verifyMessage pmn.pubKeyMasternode mnp.vchSig (mnp.strMessage crypto) = false
  | _ => False

variable (crypto) in
/-- A ping that is not looked at: the blockchain is not synced, or a ping with its hash was
seen. -/
def Unread (s : CMasternodeMan Addr) : MasternodeStep Addr → Prop
  | .ping env mnp => env.isBlockchainSynced = false ∨
      (s.mapSeenMasternodePing.lookup (mnp.getHash crypto)).isSome
  | _ => False

def Quiet (s : CMasternodeMan Addr) : MasternodeStep Addr → Prop
  | .ping _ mnp => s.mapMasternodes.lookup mnp.vin.prevout = none ∨
      mnp.fSentinelIsCurrent = false
  | _ => False

theorem step_of_unread (hunread : s.Unread crypto op) : s.step crypto ledger op = s := by
  cases op with
  | ping env mnp =>
    unfold step processPing
    rcases hunread with hsync | hseen
    · simp [hsync]
    · simp [hseen]
  | announce | dseg | start | check | watchdogVote | score => exact hunread.elim

omit [DecidableEq Addr] [Inhabited Addr] in
theorem updatePing_of_unsigned {pmn : CMasternode Addr} {mnp : CMasternodePing} (hunsigned :
      crypto.verifyMessage pmn.pubKeyMasternode mnp.vchSig (mnp.strMessage crypto) = false) :
    s.updatePing crypto ledger env pmn mnp = s := by
  unfold updatePing
  split
  · rfl
  · split
    · rfl
    next hok =>
      rw [(checkAndUpdate_ok hok).1] at hunsigned
      exact nomatch hunsigned

variable (ledger) in
theorem step_of_quiet (hunsigned : s.Unsigned crypto op) (hquiet : s.Quiet op) :
    s.step crypto ledger op = s ∨
      ∃ env mnp, op = .ping env mnp ∧ s.step crypto ledger op = s.insertSeenPing crypto mnp := by
  cases op with
  | ping env mnp =>
    have hentries : (s.insertSeenPing crypto mnp).mapMasternodes = s.mapMasternodes :=
      insertSeenPing_mapMasternodes
    unfold step processPing
    dsimp only
    split_ifs with hsync hseen hsentinel
    · exact .inl rfl
    · exact .inl rfl
    · have hnone := hquiet.resolve_right (by simp [hsentinel])
      unfold updateWatchdogVoteTime
      rw [hentries, hnone]
      refine .inr ⟨env, mnp, rfl, ?_⟩
      rw [hentries, hnone]
    · refine .inr ⟨env, mnp, rfl, ?_⟩
      rw [hentries]
      cases hlookup : s.mapMasternodes.lookup mnp.vin.prevout with
      | none => rfl
      | some pmn => exact updatePing_of_unsigned (hunsigned pmn hlookup)
  | announce | dseg | start | check | watchdogVote | score => exact hunsigned.elim

variable (crypto) in
/-- A ping that is inserted is not looked at, or is quiet and has a hash that no ping after it
has. -/
def Harmless (later : List (MasternodeStep Addr)) (s : CMasternodeMan Addr)
    (op : MasternodeStep Addr) : Prop :=
  s.Unread crypto op ∨ s.Quiet op ∧ ∀ op' ∈ later, op'.pingHash crypto ≠ op.pingHash crypto

/-- Pings that nobody signed leave every masternode as it is where they are harmless. -/
theorem unsigned_pings_without_effect (crypto : MasternodeCrypto Addr)
    (ledger : UInt256 → Option CTransaction) (s : CMasternodeMan Addr)
    (messages : List (Bool × MasternodeStep Addr))
    (hforged : Insertable (step crypto ledger) (fun _ s op => s.Unsigned crypto op) s messages)
    (hharmless : Insertable (step crypto ledger) (Harmless crypto) s messages) :
    (runAll (step crypto ledger) s messages).mapMasternodes =
      ((originals messages).foldl (step crypto ledger) s).mapMasternodes := by
  -- The lists agree on the pings that are still to come.
  let R : List (MasternodeStep Addr) → CMasternodeMan Addr → CMasternodeMan Addr → Prop :=
    fun later s t => Alike { hash | ∃ op ∈ later, op.pingHash crypto = some hash } t s
  have hinserted : ∀ later s t op, R later s t →
      s.Unsigned crypto op ∧ Harmless crypto later s op → R later (s.step crypto ledger op) t := by
    rintro later s t op halike ⟨hunsigned, hunread | ⟨hquiet, hlater⟩⟩
    · rwa [step_of_unread hunread]
    · rcases step_of_quiet ledger hunsigned hquiet with hsame | ⟨env, mnp, rfl, hstep⟩
      · rwa [hsame]
      · rw [hstep]
        refine halike.insertSeenPing_right ?_
        rintro ⟨op', hop', hhash⟩
        exact hlater op' hop' hhash
  have horiginal : ∀ later s t op, R (op :: later) s t →
      R later (s.step crypto ledger op) (t.step crypto ledger op) := by
    intro later s t op halike
    refine (Alike.step halike fun hash hhash => ⟨op, List.mem_cons_self, hhash⟩).mono ?_
    rintro hash ⟨op', hop', hhash⟩
    exact ⟨op', List.mem_cons_of_mem _ hop', hhash⟩
  exact (Insertable.related (R := R) hinserted horiginal (Alike.refl _ s)
    (hforged.and hharmless)).masternodes

end CMasternodeMan

def oneByteCrypto : MasternodeCrypto ℕ where
  hash bytes := BitVec.ofNat 256 (bytes.foldl (fun n byte => n * 257 + byte.toNat) 0)
  getID := fun key => BitVec.ofNat 160 (ByteStream.leNat key)
  verifyMessage := fun _ sig _ => sig = [1]
  addrToString := fun _ => []
  txInToString := fun _ => []

def pingEnv : MasternodeEnv ℕ := { listingEnv with blockHeight := fun _ => some 90 }

def listedMasternode : CMasternode ℕ :=
  { (announcement [1]).mnb.toCMasternode with nTimeLastWatchdogVote := 1525000000 }

def listOfOne : CMasternodeMan ℕ where
  mapMasternodes := (∅ : Map COutPoint (CMasternode ℕ)).insert ⟨5, 0⟩ listedMasternode

def pingAt (sigTime : ℤ) (vchSig : Bytes) (fSentinelIsCurrent : Bool) : CMasternodePing where
  vin := ⟨⟨5, 0⟩, [], 0xffffffff⟩
  blockHash := 1
  sigTime := sigTime
  vchSig := vchSig
  fSentinelIsCurrent := fSentinelIsCurrent

/-- A ping that nobody signed with another time than the signed one, and one with the same
time after it. -/
def harmlessPings : List (Bool × MasternodeStep ℕ) :=
  [(true, .ping pingEnv (pingAt 1529990000 [] false)),
    (false, .ping pingEnv (pingAt 1529990001 [1] false)),
    (true, .ping pingEnv (pingAt 1529990001 [] true))]

namespace CMasternodeMan

theorem harmlessPings_without_effect :
    ((runAll (step oneByteCrypto (fundedBy [[1]])) listOfOne harmlessPings).mapMasternodes.lookup ⟨5, 0⟩).map (·.lastPing) =
          some (pingAt 1529990001 [1] false) ∧
      (runAll (step oneByteCrypto (fundedBy [[1]])) listOfOne harmlessPings).mapMasternodes =
          ((originals harmlessPings).foldl (step oneByteCrypto (fundedBy [[1]]))
            listOfOne).mapMasternodes := by
  refine ⟨by decide +kernel, unsigned_pings_without_effect oneByteCrypto (fundedBy [[1]]) listOfOne
    harmlessPings ?_ ?_⟩
  · exact ⟨fun pmn _ => rfl, fun pmn _ => rfl, trivial⟩
  · refine ⟨.inr ⟨.inr rfl, ?_⟩, .inl (.inr ?_), trivial⟩
    · decide +kernel
    · decide +kernel

/-- A ping that nobody signed sets the watchdog time of the masternode, and keeps the signed
ping of the same time from being stored. -/
theorem unsigned_ping_effects :
    (Unsigned oneByteCrypto listOfOne (.ping pingEnv (pingAt 1529990000 [] true)) ∧
      (listOfOne.mapMasternodes.lookup ⟨5, 0⟩).map (·.nTimeLastWatchdogVote) = some 1525000000 ∧
      ((listOfOne.step oneByteCrypto (fundedBy [[1]])
        (.ping pingEnv (pingAt 1529990000 [] true))).mapMasternodes.lookup ⟨5, 0⟩).map
          (·.nTimeLastWatchdogVote) = some 1529990000) ∧
    (Unsigned oneByteCrypto listOfOne (.ping pingEnv (pingAt 1529990000 [] false)) ∧
      (([MasternodeStep.ping pingEnv (pingAt 1529990000 [1] false)].foldl
        (step oneByteCrypto (fundedBy [[1]])) listOfOne).mapMasternodes.lookup ⟨5, 0⟩).map
          (·.lastPing) = some (pingAt 1529990000 [1] false) ∧
      (([MasternodeStep.ping pingEnv (pingAt 1529990000 [] false),
        MasternodeStep.ping pingEnv (pingAt 1529990000 [1] false)].foldl
          (step oneByteCrypto (fundedBy [[1]])) listOfOne).mapMasternodes.lookup ⟨5, 0⟩).map
            (·.lastPing) = some .empty) := by
  refine ⟨⟨fun pmn _ => rfl, by decide +kernel, by decide +kernel⟩,
    fun pmn _ => rfl, by decide +kernel, by decide +kernel⟩

end CMasternodeMan
end ImageCoin
