import ImageCoin.MasternodeMan

/-!
# Who owns a masternode entry

The entry of a collateral output should say what the holder of its key signed for it.
-/

namespace ImageCoin

open CMasternodeMan CMasternode CMasternodeBroadcast List Option
variable {hash : UInt256}

section
variable {Addr : Type} {crypto : MasternodeCrypto Addr}
  {ledger : UInt256 → Option CTransaction} {env : MasternodeEnv Addr}
  {signed : Set (BroadcastContent Addr)} {mn pmn : CMasternode Addr}
  {mnb : CMasternodeBroadcast Addr} {s : CMasternodeMan Addr}

@[simp] theorem hexText_length {width n : ℕ} : (hexText width n).length = width := by
  induction width generalizing n with
  | zero => rfl
  | succ width ih => simp [hexText, ih]

theorem digitChar_injOn : ∀ a < 16, ∀ b < 16, Nat.digitChar a = Nat.digitChar b → a = b := by
  decide

theorem hexText_injOn {width a b : ℕ} (ha : a < 16 ^ width) (hb : b < 16 ^ width)
    (heq : hexText width a = hexText width b) : a = b := by
  induction width generalizing a b with
  | zero => omega
  | succ width ih =>
    obtain ⟨hrest, hlast⟩ := append_inj' heq rfl
    have hhigh := ih (by omega) (by omega) hrest
    have hlow : a % 16 = b % 16 :=
      digitChar_injOn _ (Nat.mod_lt _ (by decide)) _ (Nat.mod_lt _ (by decide)) (cons.inj hlast).1
    omega

theorem keyIDText_injective {a b : BitVec 160}
    (heq : hexText 40 a.toNat = hexText 40 b.toNat) : a = b := by
  refine BitVec.eq_of_toNat_eq (hexText_injOn ?_ ?_ heq)
  · exact a.isLt
  · exact b.isLt

/-- The numbers in the signed text have equally many digits, so their boundaries are the same. -/
def BroadcastContent.SameShape (a b : BroadcastContent Addr) : Prop :=
  (lexicalCast a.sigTime).length = (lexicalCast b.sigTime).length ∧
    (lexicalCast a.nProtocolVersion).length = (lexicalCast b.nProtocolVersion).length

theorem eq_of_broadcast_strMessage_eq {a b : BroadcastContent Addr}
    (haddr : Function.Injective crypto.addrToString) (hshape : a.SameShape b)
    (heq : a.strMessage crypto = b.strMessage crypto) :
    a.addr = b.addr ∧ a.sigTime = b.sigTime ∧
      crypto.getID a.pubKeyCollateralAddress = crypto.getID b.pubKeyCollateralAddress ∧
      crypto.getID a.pubKeyMasternode = crypto.getID b.pubKeyMasternode ∧
      a.nProtocolVersion = b.nProtocolVersion := by
  obtain ⟨htime, hversion⟩ := hshape
  obtain ⟨hfirst, heq⟩ := append_inj' heq (by simp [htime, hversion])
  obtain ⟨hsigned, heq⟩ := append_inj heq htime
  obtain ⟨hcollateral, heq⟩ := append_inj heq (by simp)
  obtain ⟨hmasternode, hlast⟩ := append_inj heq (by simp)
  exact ⟨haddr hfirst, lexicalCast_injective hsigned, keyIDText_injective hcollateral,
    keyIDText_injective hmasternode, lexicalCast_injective hlast⟩

section
variable (crypto)

/-- A broadcast whose signature verifies has the text of a content that the holder of
its collateral key signed. -/
def UnforgeableBroadcasts (signed : Set (BroadcastContent Addr)) : Prop :=
  ∀ mn : CMasternode Addr, mn.checkSignature crypto →
    ∃ c ∈ signed, c.pubKeyCollateralAddress = mn.pubKeyCollateralAddress ∧
      c.strMessage crypto = mn.content.strMessage crypto

def PaysKey (ledger : UInt256 → Option CTransaction) (o : COutPoint) (key : CPubKey) : Prop :=
  ∃ tx ∈ ledger o.hash, ∃ out ∈ tx.vout[o.n.toNat]?,
    out.scriptPubKey = getScriptForDestination (crypto.getID key)

/-- The holder of the key that the output pays to signed the entry for the output. -/
def OwnedEntry (ledger : UInt256 → Option CTransaction)
    (signed : Set (BroadcastContent Addr)) (o : COutPoint) (mn : CMasternode Addr) : Prop :=
  mn.vin.prevout = o ∧ mn.content ∈ signed ∧ PaysKey crypto ledger o mn.pubKeyCollateralAddress

def AllOwned (ledger : UInt256 → Option CTransaction)
    (signed : Set (BroadcastContent Addr)) (s : CMasternodeMan Addr) : Prop :=
  ∀ o, ∀ mn ∈ s.mapMasternodes.lookup o, OwnedEntry crypto ledger signed o mn

/-- All outputs of the funding transaction that are worth the price have the script of
the output that is named; the key signed only broadcasts for that output; and their
texts have the shape of this one. -/
structure Attributable (ledger : UInt256 → Option CTransaction)
    (signed : Set (BroadcastContent Addr)) (mnb : CMasternodeBroadcast Addr) : Prop where
  oneKey : ∀ tx ∈ ledger mnb.vin.prevout.hash, ∀ out ∈ tx.vout,
    out.nValue = masternodePrice → ∀ named ∈ tx.vout[mnb.vin.prevout.n.toNat]?,
      out.scriptPubKey = named.scriptPubKey
  oneOutpoint : ∀ c ∈ signed, c.pubKeyCollateralAddress = mnb.pubKeyCollateralAddress →
    c.outpoint = mnb.vin.prevout
  shape : ∀ c ∈ signed, c.pubKeyCollateralAddress = mnb.pubKeyCollateralAddress →
    c.SameShape mnb.content

/-- No other masternode key that was signed has the identifier of this one. -/
def DistinctKeyIDs (signed : Set (BroadcastContent Addr))
    (mnb : CMasternodeBroadcast Addr) : Prop :=
  ∀ c ∈ signed, crypto.getID c.pubKeyMasternode = crypto.getID mnb.pubKeyMasternode →
    c.pubKeyMasternode = mnb.pubKeyMasternode

end
theorem content_mem_signed (hunforgeable : UnforgeableBroadcasts crypto signed)
    (haddr : Function.Injective crypto.addrToString)
    (hkeys : DistinctKeyIDs crypto signed mnb) (hattr : Attributable ledger signed mnb)
    (hcheck : mnb.checkSignature crypto) : mnb.content ∈ signed := by
  obtain ⟨c, hc, hkey, htext⟩ := hunforgeable mnb.toCMasternode hcheck
  obtain ⟨hfirst, htime, -, hmasternode, hversion⟩ :=
    eq_of_broadcast_strMessage_eq haddr (hattr.shape c hc hkey) htext
  have houtpoint := hattr.oneOutpoint c hc hkey
  have hsame : c = mnb.content := by
    cases c
    simp only [content, BroadcastContent.mk.injEq] at *
    exact ⟨houtpoint, hfirst, hkey, hkeys _ hc hmasternode, htime, hversion⟩
  exact hsame ▸ hc

theorem content_check {size : ℕ} {fForce : Bool} :
    (mn.check ledger env size fForce).content = mn.content := by
  unfold check
  dsimp only
  split_ifs <;> rfl

variable {mnp : CMasternodePing}

theorem content_checkAndUpdate {size : ℕ} {fFromNewBroadcast : Bool} {accepted : AcceptedPing Addr}
    (hok : mnp.checkAndUpdate crypto ledger env pmn size fFromNewBroadcast = .ok accepted) :
    accepted.mn.content = pmn.content := by
  rw [(checkAndUpdate_ok hok).2]
  exact content_check

theorem insertSeenPing_mapMasternodes :
    (s.insertSeenPing crypto mnp).mapMasternodes = s.mapMasternodes := by
  unfold insertSeenPing
  split <;> rfl

theorem setSeenPing_mapMasternodes :
    (s.setSeenPing hash mnp).mapMasternodes = s.mapMasternodes := by
  unfold setSeenPing
  split <;> rfl

variable (crypto ledger env) in
theorem takePing_spec (s : CMasternodeMan Addr) (pmn : CMasternode Addr) (mnp : CMasternodePing) :
    (s.takePing crypto ledger env pmn mnp).2.mapMasternodes = s.mapMasternodes ∧
      (s.takePing crypto ledger env pmn mnp).1.content = pmn.content := by
  unfold takePing
  split_ifs with hempty
  · exact ⟨insertSeenPing_mapMasternodes, rfl⟩
  · cases hok : mnp.checkAndUpdate crypto ledger env pmn s.size true with
    | error nDos => exact ⟨rfl, rfl⟩
    | ok accepted =>
      refine ⟨?_, content_checkAndUpdate hok⟩
      dsimp only
      split_ifs
      · rw [insertSeenPing_mapMasternodes, setSeenPing_mapMasternodes]
      · exact setSeenPing_mapMasternodes

variable (crypto ledger env) in
theorem updateFromNewBroadcast_spec (s : CMasternodeMan Addr) (pmn : CMasternode Addr)
    (mnb : CMasternodeBroadcast Addr) :
    (s.updateFromNewBroadcast crypto ledger env pmn mnb).2.2.mapMasternodes = s.mapMasternodes ∧
      ((s.updateFromNewBroadcast crypto ledger env pmn mnb).2.1.content = pmn.content ∨
        (s.updateFromNewBroadcast crypto ledger env pmn mnb).2.1.content =
          (pmn.takeBroadcast mnb).content) := by
  have hping := takePing_spec crypto ledger env s (pmn.takeBroadcast mnb) mnb.lastPing
  unfold updateFromNewBroadcast
  by_cases hold : (mnb.sigTime ≤ pmn.sigTime && !mnb.fRecovery)
  · rw [if_pos hold]
    exact ⟨rfl, .inl rfl⟩
  · split_ifs
    · exact ⟨hping.1, .inr hping.2⟩
    · exact ⟨hping.1, .inr hping.2⟩

/-- A step that touches at most the entry at `o`. -/
def OnlyEntry (s s' : CMasternodeMan Addr) (o : COutPoint) (P : CMasternode Addr → Prop) : Prop :=
  ∀ o', ∀ mn ∈ s'.mapMasternodes.lookup o', mn ∈ s.mapMasternodes.lookup o' ∨ o' = o ∧ P mn

variable {o : COutPoint} {P : CMasternode Addr → Prop} {s' : CMasternodeMan Addr}

theorem OnlyEntry.of_eq (heq : s'.mapMasternodes = s.mapMasternodes) : OnlyEntry s s' o P := by
  intro o' mn hmem
  rw [heq] at hmem
  exact .inl hmem

theorem OnlyEntry.setEntry (h : OnlyEntry s s' o P) (hmn : P mn) :
    OnlyEntry s (s'.setEntry o mn) o P := by
  intro o' mn' hmem
  by_cases heq : o' = o
  · subst heq
    rw [CMasternodeMan.setEntry, AList.lookup_insert, mem_some_iff] at hmem
    exact .inr ⟨rfl, hmem ▸ hmn⟩
  · rw [CMasternodeMan.setEntry, AList.lookup_insert_ne heq] at hmem
    exact h o' mn' hmem

/-- What an entry can become by the broadcast: it says the same, or it has what the
signed broadcast says, for the key it had. -/
def Renewed (crypto : MasternodeCrypto Addr) (pmn : CMasternode Addr)
    (mnb : CMasternodeBroadcast Addr) (mn : CMasternode Addr) : Prop :=
  mn.content = pmn.content ∨ pmn.pubKeyCollateralAddress = mnb.pubKeyCollateralAddress ∧
      mnb.checkSignature crypto ∧ mn.content = (pmn.takeBroadcast mnb).content

theorem takeBroadcast_content (heq : mn.content = pmn.content) :
    (mn.takeBroadcast mnb).content = (pmn.takeBroadcast mnb).content := by
  simp only [content, BroadcastContent.mk.injEq] at heq
  simp [content, takeBroadcast, heq.1, heq.2.2.1]

theorem Renewed.of_update {checked : CMasternode Addr} (hchecked : checked.content = pmn.content)
    (hkey : checked.pubKeyCollateralAddress = mnb.pubKeyCollateralAddress)
    (hsignature : mnb.checkSignature crypto) (hcases : mn.content = checked.content ∨
    mn.content = (checked.takeBroadcast mnb).content) : Renewed crypto pmn mnb mn := by
  rcases hcases with hsame | hnew
  · exact .inl (hsame.trans hchecked)
  · refine .inr ⟨?_, hsignature, hnew.trans (takeBroadcast_content hchecked)⟩
    rw [← hkey]
    exact (congrArg BroadcastContent.pubKeyCollateralAddress hchecked).symm

variable (crypto ledger env) in
theorem update_spec (s : CMasternodeMan Addr) (pmn : CMasternode Addr)
    (mnb : CMasternodeBroadcast Addr) :
    OnlyEntry s (s.update crypto ledger env pmn mnb).2 mnb.vin.prevout
      (Renewed crypto pmn mnb) := by
  unfold update
  by_cases hsame : (pmn.sigTime = mnb.sigTime && !mnb.fRecovery)
  · rw [if_pos hsame]
    exact .of_eq rfl
  rw [if_neg hsame]
  by_cases holder : pmn.sigTime > mnb.sigTime
  · rw [if_pos holder]
    exact .of_eq rfl
  have hchecked : (pmn.check ledger env s.size false).content = pmn.content :=
    content_check
  dsimp only
  generalize pmn.check ledger env s.size false = checked at hchecked
  have hset : OnlyEntry s (s.setEntry mnb.vin.prevout checked) mnb.vin.prevout
      (Renewed crypto pmn mnb) := (OnlyEntry.of_eq rfl).setEntry (.inl hchecked)
  generalize s.setEntry mnb.vin.prevout checked = s₁ at hset
  split_ifs with hbanned hkey hsignature hrecent
  · exact hset
  · exact hset
  · exact hset
  · rw [not_not] at hkey
    rw [Bool.not_eq_true', Bool.not_eq_false] at hsignature
    have hspec := updateFromNewBroadcast_spec crypto ledger env s₁ checked mnb
    generalize s₁.updateFromNewBroadcast crypto ledger env checked mnb = result at hspec
    obtain ⟨ok, mn, s₂⟩ := result
    obtain ⟨hentries, hcases⟩ := hspec
    have hupdated : OnlyEntry s s₂ mnb.vin.prevout (Renewed crypto pmn mnb) := by
      intro o mn hmem
      rw [hentries] at hmem
      exact hset o mn hmem
    cases ok with
    | false => exact hupdated.setEntry (.of_update hchecked hkey hsignature hcases)
    | true =>
      refine hupdated.setEntry (.of_update hchecked hkey hsignature ?_)
      rw [content_check]
      exact hcases
  · exact hset

variable {mnb' : CMasternodeBroadcast Addr} {nDos : ℕ}

theorem simpleCheck_some (hcheck : mnb.simpleCheck crypto env = (nDos, some mnb')) :
    ∃ state, mnb' = { mnb with nActiveState := state } := by
  have hmarked : ∃ state, (mnb.checkPing env).2 = { mnb with nActiveState := state } := by
    unfold checkPing
    split_ifs
    · exact ⟨_, rfl⟩
    · split
      next => exact ⟨_, rfl⟩
      next => exact ⟨mnb.nActiveState, rfl⟩
  unfold simpleCheck at hcheck
  dsimp only at hcheck
  -- Only the last branch returns the broadcast.
  split_ifs at hcheck <;>
    simp only [Prod.mk.injEq, reduceCtorEq, and_false, some_inj] at hcheck
  exact hcheck.2 ▸ hmarked

theorem isInputAssociatedWithPubkey_iff : mn.isInputAssociatedWithPubkey crypto ledger env ↔
    (env.blockOfTransaction mn.vin.prevout.hash).isSome ∧
      ∃ tx ∈ ledger mn.vin.prevout.hash, ∃ out ∈ tx.vout, out.nValue = masternodePrice ∧
        out.scriptPubKey =
          getScriptForDestination (crypto.getID mn.pubKeyCollateralAddress) := by
  unfold isInputAssociatedWithPubkey
  cases env.blockOfTransaction mn.vin.prevout.hash with
  | none => simp
  | some block =>
    cases ledger mn.vin.prevout.hash with
    | none => simp
    | some tx => simp

theorem checkCollateral_ok {nHeight : ℤ} (hok : checkCollateral ledger env o = .ok nHeight) :
    ∃ tx ∈ ledger o.hash, ∃ out ∈ tx.vout[o.n.toNat]?, out.nValue = masternodePrice := by
  unfold checkCollateral at hok
  cases hcoin : getUTXOCoin ledger env o with
  | none => simp [hcoin] at hok
  | some coin =>
    obtain ⟨out, height⟩ := coin
    simp only [hcoin] at hok
    split_ifs at hok with hvalue
    simp only [getUTXOCoin, bind_eq_bind, bind_eq_some_iff] at hcoin
    obtain ⟨_, -, tx, htx, named, hnamed, hpair⟩ := hcoin
    cases hpair
    exact ⟨tx, htx, out, hnamed, not_not.mp hvalue⟩

section
variable (hcheck : mnb.checkOutpoint crypto ledger env nDos = .ok mnb')
include hcheck

theorem checkOutpoint_eq : ∃ block, mnb' = { mnb with nCollateralMinConfBlockHash := block } := by
  unfold checkOutpoint at hcheck
  split_ifs at hcheck
  cases hcollateral : checkCollateral ledger env mnb.vin.prevout with
  | utxoNotFound => simp [hcollateral] at hcheck
  | invalidAmount => simp [hcollateral] at hcheck
  | ok nHeight =>
    simp only [hcollateral] at hcheck
    split_ifs at hcheck
    split at hcheck
    next =>
      cases hcheck
      exact ⟨_, rfl⟩
    next =>
      split at hcheck
      next => cases hcheck
      next =>
        split_ifs at hcheck
        cases hcheck
        exact ⟨_, rfl⟩

theorem checkOutpoint_ok : mnb'.content = mnb.content ∧ mnb.checkSignature crypto ∧
    (∃ tx ∈ ledger mnb.vin.prevout.hash, ∃ out ∈ tx.vout[mnb.vin.prevout.n.toNat]?,
      out.nValue = masternodePrice) ∧
    ∃ tx ∈ ledger mnb.vin.prevout.hash, ∃ out ∈ tx.vout, out.nValue = masternodePrice ∧
      out.scriptPubKey =
        getScriptForDestination (crypto.getID mnb.pubKeyCollateralAddress) := by
  have hcontent : mnb'.content = mnb.content := by
    obtain ⟨block, rfl⟩ := checkOutpoint_eq hcheck
    rfl
  unfold checkOutpoint at hcheck
  split_ifs at hcheck with hown hsignature hlock
  rw [Bool.not_eq_true', Bool.not_eq_false] at hsignature
  cases hcollateral : checkCollateral ledger env mnb.vin.prevout with
  | utxoNotFound => simp [hcollateral] at hcheck
  | invalidAmount => simp [hcollateral] at hcheck
  | ok nHeight =>
    simp only [hcollateral] at hcheck
    split_ifs at hcheck with hconfirmations hassociated
    rw [Bool.not_eq_true', Bool.not_eq_false] at hassociated
    have hpaid := (isInputAssociatedWithPubkey_iff.mp hassociated).2
    exact ⟨hcontent, hsignature, checkCollateral_ok hcollateral, hpaid⟩

end

theorem paysKey_of_checkOutpoint (hattr : Attributable ledger signed mnb)
    (hcheck : mnb.checkOutpoint crypto ledger env nDos = .ok mnb') :
    PaysKey crypto ledger mnb.vin.prevout mnb.pubKeyCollateralAddress := by
  obtain ⟨-, -, ⟨tx, htx, named, hnamed, -⟩, tx', htx', out, hout, hvalue, hscript⟩ :=
    checkOutpoint_ok hcheck
  obtain rfl : tx = tx' := some.inj (htx.symm.trans htx')
  refine ⟨tx, htx, named, hnamed, ?_⟩
  rw [← hattr.oneKey tx htx out hout hvalue named hnamed, hscript]

/-! ## Runs of broadcasts -/

theorem OwnedEntry.renewed (hunforgeable : UnforgeableBroadcasts crypto signed)
    (haddr : Function.Injective crypto.addrToString)
    (hkeys : DistinctKeyIDs crypto signed mnb) (hattr : Attributable ledger signed mnb)
    (ho : o = mnb.vin.prevout) (howned : OwnedEntry crypto ledger signed o pmn)
    (hrenewed : Renewed crypto pmn mnb mn) : OwnedEntry crypto ledger signed o mn := by
  obtain ⟨houtpoint, hsigned, hpays⟩ := howned
  rcases hrenewed with hsame | ⟨hkey, hsignature, hnew⟩
  · have hparts := hsame
    simp only [content, BroadcastContent.mk.injEq] at hparts
    exact ⟨hparts.1.trans houtpoint, hsame ▸ hsigned, hparts.2.2.1 ▸ hpays⟩
  · have hcontent : (pmn.takeBroadcast mnb).content = mnb.content := by
      simp only [content, takeBroadcast, BroadcastContent.mk.injEq, and_true]
      exact ⟨houtpoint.trans ho, trivial, hkey⟩
    rw [hcontent] at hnew
    have hparts := hnew
    simp only [content, BroadcastContent.mk.injEq] at hparts
    refine ⟨hparts.1.trans ho.symm, hnew ▸ ?_, ?_⟩
    · exact content_mem_signed hunforgeable haddr hkeys hattr hsignature
    · rw [hparts.2.2.1, ← hkey]
      exact hpays

section
variable [Inhabited Addr] [DecidableEq Addr]
  {s : CMasternodeMan Addr} {pfrom : Option Addr} {pmn : CMasternode Addr}
  {mnb : CMasternodeBroadcast Addr}

omit [Inhabited Addr] in
theorem seenAgain_mapMasternodes {nTime : ℤ} {seen : CMasternodeBroadcast Addr} :
    (s.seenAgain ledger env pfrom mnb hash nTime seen).mapMasternodes = s.mapMasternodes := by
  unfold seenAgain
  dsimp only
  split
  next =>
    split_ifs <;> rfl
  next =>
    split_ifs <;> rfl

omit [DecidableEq Addr] in
theorem seenBroadcast_mapMasternodes :
    (s.seenBroadcast crypto env pmn).2.mapMasternodes = s.mapMasternodes := by
  unfold seenBroadcast
  split <;> rfl

omit [DecidableEq Addr] in
theorem updateKnown_spec :
    OnlyEntry s (s.updateKnown crypto ledger env pmn mnb hash).2.2 mnb.vin.prevout
      (Renewed crypto pmn mnb) := by
  have hspec := update_spec crypto ledger env (s.seenBroadcast crypto env pmn).2 pmn mnb
  unfold updateKnown
  intro o mn hmem
  rw [← seenBroadcast_mapMasternodes]
  refine hspec o mn ?_
  dsimp only at hmem
  generalize (s.seenBroadcast crypto env pmn).2.update crypto ledger env pmn mnb = result at hmem ⊢
  obtain ⟨verdict, s'⟩ := result
  cases verdict with
  | error nDos => exact hmem
  | ok =>
    split_ifs at hmem
    · exact hmem
    · exact hmem

omit [DecidableEq Addr] [Inhabited Addr] in
theorem addNew_spec {nDos : ℕ} :
    OnlyEntry s (s.addNew crypto ledger env mnb nDos hash).2.2 mnb.vin.prevout fun mn =>
      ∃ mnb', mnb.checkOutpoint crypto ledger env nDos = .ok mnb' ∧ mn = mnb'.toCMasternode := by
  unfold addNew
  cases hcheck : mnb.checkOutpoint crypto ledger env nDos with
  | error refused =>
    dsimp only
    split_ifs
    · exact .of_eq rfl
    · exact .of_eq rfl
  | ok mnb' =>
    have houtpoint : mnb'.vin.prevout = mnb.vin.prevout :=
      congrArg BroadcastContent.outpoint (checkOutpoint_ok hcheck).1
    dsimp only [add]
    rw [houtpoint]
    split_ifs
    · exact .of_eq rfl
    · exact (OnlyEntry.of_eq rfl).setEntry ⟨mnb', rfl, rfl⟩

theorem AllOwned.checkMnb (hs : AllOwned crypto ledger signed s)
    (hunforgeable : UnforgeableBroadcasts crypto signed)
    (haddr : Function.Injective crypto.addrToString) (hkeys : DistinctKeyIDs crypto signed mnb)
    (hattr : Attributable ledger signed mnb) :
    AllOwned crypto ledger signed
      (s.checkMnbAndUpdateMasternodeList crypto ledger env pfrom mnb).2.2 := by
  unfold checkMnbAndUpdateMasternodeList
  dsimp only
  split
  next nTime seen hseen hrecovery =>
    intro o mn hmem
    rw [seenAgain_mapMasternodes] at hmem
    exact hs o mn hmem
  next =>
    generalize hinserted : (if (s.mapSeenMasternodeBroadcast.lookup
      (mnb.getHash crypto)).isSome then s else _) = s₁
    have hsame : s₁.mapMasternodes = s.mapMasternodes := by
      rw [← hinserted]
      split_ifs <;> rfl
    have hs₁ : AllOwned crypto ledger signed s₁ := by
      intro o mn hmem
      rw [hsame] at hmem
      exact hs o mn hmem
    split
    next => exact hs₁
    next nDos mnb' hsimple =>
      obtain ⟨state, rfl⟩ := simpleCheck_some hsimple
      have hattr' : Attributable ledger signed { mnb with nActiveState := state } :=
        ⟨hattr.oneKey, hattr.oneOutpoint, hattr.shape⟩
      have hkeys' : DistinctKeyIDs crypto signed { mnb with nActiveState := state } := hkeys
      split
      next pmn hpmn =>
        intro o mn hmem
        rcases updateKnown_spec o mn hmem with hold | ⟨rfl, hrenewed⟩
        · exact hs₁ o mn hold
        · exact (hs₁ _ pmn hpmn).renewed hunforgeable haddr hkeys' hattr' rfl hrenewed
      next hnone =>
        intro o mn hmem
        rcases addNew_spec o mn hmem with hold | ⟨rfl, mnb', hcheck, rfl⟩
        · exact hs₁ o mn hold
        · obtain ⟨hcontent, hsignature, -⟩ := checkOutpoint_ok hcheck
          have hparts := hcontent
          simp only [content, BroadcastContent.mk.injEq] at hparts
          refine ⟨hparts.1, hcontent ▸ ?_, ?_⟩
          · exact content_mem_signed hunforgeable haddr hkeys' hattr' hsignature
          · rw [hparts.2.2.1]
            exact paysKey_of_checkOutpoint hattr' hcheck

theorem AllOwned.processBroadcasts {messages : List (MnbMessage Addr)}
    (hs : AllOwned crypto ledger signed s) (hunforgeable : UnforgeableBroadcasts crypto signed)
    (haddr : Function.Injective crypto.addrToString)
    (hkeys : ∀ message ∈ messages, DistinctKeyIDs crypto signed message.mnb)
    (hattr : ∀ message ∈ messages, Attributable ledger signed message.mnb) :
    AllOwned crypto ledger signed (s.processBroadcasts crypto ledger messages) := by
  induction messages generalizing s with
  | nil => exact hs
  | cons message messages ih =>
    obtain ⟨hkey, hkeys⟩ := forall_mem_cons.mp hkeys
    obtain ⟨hfirst, hattr⟩ := forall_mem_cons.mp hattr
    exact ih (hs.checkMnb hunforgeable haddr hkey hfirst) hkeys hattr

end
end

/-- In every state of a run whose broadcasts can be attributed, the entry of an output
says what the holder of the key that the output pays to signed for that output. -/
theorem processBroadcasts_owned {Addr : Type} [Inhabited Addr] [DecidableEq Addr]
    (crypto : MasternodeCrypto Addr) (ledger : UInt256 → Option CTransaction)
    (signed : Set (BroadcastContent Addr)) (messages : List (MnbMessage Addr))
    (hunforgeable : UnforgeableBroadcasts crypto signed)
    (haddr : Function.Injective crypto.addrToString)
    (hkeys : ∀ message ∈ messages, DistinctKeyIDs crypto signed message.mnb)
    (hattr : ∀ message ∈ messages, Attributable ledger signed message.mnb) (count : ℕ)
    (o : COutPoint) :
    ∀ mn ∈ (CMasternodeMan.processBroadcasts crypto ledger {}
        (messages.take count)).mapMasternodes.lookup o,
      ∃ c ∈ signed, c = mn.content ∧ c.outpoint = o ∧
        PaysKey crypto ledger o c.pubKeyCollateralAddress := by
  intro mn hmem
  have hempty : AllOwned crypto ledger signed {} := fun o mn hmem => nomatch hmem
  have howned : AllOwned crypto ledger signed
      (.processBroadcasts crypto ledger {} (messages.take count)) :=
    hempty.processBroadcasts hunforgeable haddr
      (fun message hmessage => hkeys message (mem_of_mem_take hmessage))
      (fun message hmessage => hattr message (mem_of_mem_take hmessage))
  obtain ⟨houtpoint, hsigned, hpays⟩ := howned o mn hmem
  exact ⟨mn.content, hsigned, rfl, houtpoint, hpays⟩

def signingOnly (key : CPubKey) (text : List Char) : MasternodeCrypto ℕ where
  hash := fun bytes => BitVec.ofNat 256 (ByteStream.leNat bytes)
  getID := fun key => BitVec.ofNat 160 (ByteStream.leNat key)
  verifyMessage := fun key' _ text' => key' = key && text' = text
  addrToString := fun addr => lexicalCast addr
  txInToString := fun _ => []

variable (c : BroadcastContent ℕ)

def announcing : MasternodeCrypto ℕ :=
  signingOnly c.pubKeyCollateralAddress (c.strMessage (signingOnly [] []))

theorem unforgeable_announcing : UnforgeableBroadcasts (announcing c) {c} := by
  intro mn hcheck
  have hparts := Bool.and_eq_true_iff.mp hcheck
  rw [decide_eq_true_eq, decide_eq_true_eq] at hparts
  exact ⟨c, rfl, hparts.1.symm, hparts.2.symm⟩

theorem addrToString_announcing : Function.Injective (announcing c).addrToString := by
  intro a b heq
  exact Int.ofNat_inj.mp (lexicalCast_injective heq)

def listingEnv : MasternodeEnv ℕ where
  net := .main
  getTime := 1530000000
  getAdjustedTime := 1530000000
  shutdownRequested := false
  lockMain := true
  chainHeight := 100
  blockAt := fun _ => some (1, 1520000000)
  blockHeight := fun _ => some 50
  blockOfTransaction := fun _ => some 1
  coinHeight := fun _ => some 50
  fMasterNode := false
  activeOutpoint := ⟨0, 0xffffffff⟩
  activePubKeyMasternode := []
  isMasternodeListSynced := true
  isSynced := true
  isWatchdogActive := false
  getMinMasternodePaymentsProto := 70221
  isRoutableIPv4 := fun _ => true
  getPort := fun _ => 6998

variable (keys : List CPubKey)

def fundingTx : CTransaction where
  nVersion := 1
  vin := []
  vout := keys.map fun key =>
    ⟨masternodePrice, getScriptForDestination (BitVec.ofNat 160 (ByteStream.leNat key)), [], -10⟩
  nLockTime := 0
  hash := 5

def fundedBy (hash : UInt256) : Option CTransaction :=
  if hash = 5 then some (fundingTx keys) else none

variable (key : CPubKey)

def announcedContent : BroadcastContent ℕ :=
  ⟨⟨5, 0⟩, 7, key, [3], 1525000000, 70224⟩

def announcement : MnbMessage ℕ where
  env := listingEnv
  pfrom := some 9
  mnb :=
    { vin := ⟨⟨5, 0⟩, [], 0xffffffff⟩
      addr := 7
      pubKeyCollateralAddress := key
      pubKeyMasternode := [3]
      sigTime := 1525000000
      nProtocolVersion := 70224
      vchSig := []
      nActiveState := .enabled
      lastPing := .empty
      nTimeLastWatchdogVote := 0
      nTimeLastChecked := 0
      nCollateralMinConfBlockHash := 0
      nPoSeBanScore := 0
      nPoSeBanHeight := 0
      fRecovery := false }

theorem processBroadcasts_owned_one_key :
    ((CMasternodeMan.processBroadcasts (announcing (announcedContent [1])) (fundedBy [[1]]) {}
        [announcement [1]]).mapMasternodes.lookup ⟨5, 0⟩).map CMasternode.content =
          some (announcedContent [1]) ∧
      ∀ mn ∈ (CMasternodeMan.processBroadcasts (announcing (announcedContent [1]))
          (fundedBy [[1]]) {} [announcement [1]]).mapMasternodes.lookup ⟨5, 0⟩,
        ∃ c ∈ ({announcedContent [1]} : Set (BroadcastContent ℕ)), c = mn.content ∧
          c.outpoint = ⟨5, 0⟩ ∧ PaysKey (announcing (announcedContent [1])) (fundedBy [[1]])
            ⟨5, 0⟩ c.pubKeyCollateralAddress := by
  refine ⟨by decide +kernel, ?_⟩
  refine processBroadcasts_owned (announcing (announcedContent [1])) (fundedBy [[1]])
    {announcedContent [1]} [announcement [1]] (unforgeable_announcing _)
    (addrToString_announcing _) ?_ ?_ 1 ⟨5, 0⟩
  · intro message hmem
    obtain rfl := mem_singleton.mp hmem
    rintro c rfl -
    rfl
  · intro message hmem
    obtain rfl := mem_singleton.mp hmem
    constructor
    · intro tx htx out hout hvalue named hnamed
      obtain rfl : fundingTx [[1]] = tx := some.inj htx
      obtain rfl := mem_singleton.mp hout
      obtain rfl := some.inj hnamed
      rfl
    · rintro c rfl -
      rfl
    · rintro c rfl -
      exact ⟨rfl, rfl⟩

/-- A transaction pays the price to two keys.  The holder of the second one announces
the first output and gets its entry. -/
theorem processBroadcasts_other_key :
    UnforgeableBroadcasts (announcing (announcedContent [2])) {announcedContent [2]} ∧
      ((CMasternodeMan.processBroadcasts (announcing (announcedContent [2]))
        (fundedBy [[1], [2]]) {} [announcement [2]]).mapMasternodes.lookup ⟨5, 0⟩).map
          CMasternode.content = some (announcedContent [2]) ∧
      PaysKey (announcing (announcedContent [2])) (fundedBy [[1], [2]]) ⟨5, 0⟩ [1] ∧
      ¬PaysKey (announcing (announcedContent [2])) (fundedBy [[1], [2]]) ⟨5, 0⟩ [2] := by
  refine ⟨unforgeable_announcing _, by decide +kernel, ⟨_, rfl, _, rfl, rfl⟩, ?_⟩
  rintro ⟨tx, htx, out, hout, hscript⟩
  obtain rfl : fundingTx [[1], [2]] = tx := some.inj htx
  obtain rfl := some.inj hout
  revert hscript
  decide +kernel

end ImageCoin
