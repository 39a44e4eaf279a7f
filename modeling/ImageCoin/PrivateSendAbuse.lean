import ImageCoin.PrivateSendSigning

/-!
# Participants who spoil a session

An entry that `AddEntry` refuses ends the session of everybody.
-/

namespace ImageCoin.PrivateSend

open List CPrivateSendServer

def Session.dsVinAnswer (node : Node) (x : Session) (entry : CDarkSendEntry) :
    Except PoolMessage Unit := do
  x.server.checkEntry node entry
  discard (x.server.addEntry node entry)

/-- What the participants share. -/
structure SameSession (s s' : CPrivateSendServer) : Prop where
  entries : s'.vecEntries = s.vecEntries
  id : s'.nSessionID = s.nSessionID
  state : s'.nState = s.nState
  denom : s'.nSessionDenom = s.nSessionDenom

/-- `AddEntry` has nothing against the entry. -/
structure Addable (node : Node) (s : CPrivateSendServer) (entry : CDarkSendEntry) : Prop where
  inputs : ∀ txin ∈ entry.vecTxDSIn, txin.prevout.isNull = false
  collateral : node.isCollateralValid entry.txCollateral
  room : s.vecEntries.length < maxPoolTransactions
  fresh : ∀ txin ∈ entry.vecTxDSIn, ∀ txdsin ∈ PrivateSend.inputs s.vecEntries,
    txdsin.prevout ≠ txin.prevout

def NoSession (s : CPrivateSendServer) : Prop := SameSession s {}

section
variable {node : Node} {x : Session} {s : CPrivateSendServer} {entry : CDarkSendEntry}

theorem addEntry_cases (node : Node) (s : CPrivateSendServer) (entry : CDarkSendEntry) :
    (Addable node s entry ∧
      s.addEntry node entry = .ok { s with vecEntries := s.vecEntries ++ [entry] }) ∨
    (¬Addable node s entry ∧ ∃ message, s.addEntry node entry = .error message) := by
  unfold addEntry
  split
  next hnull =>
    obtain ⟨txin, hmem, hnull⟩ := any_eq_true.mp hnull
    exact .inr ⟨fun h => by simp [h.inputs txin hmem] at hnull, _, rfl⟩
  next hnull =>
    split
    next hcollateral => exact .inr ⟨fun h => by simp [h.collateral] at hcollateral, _, rfl⟩
    next hcollateral =>
      split
      next hfull => exact .inr ⟨fun h => absurd h.room (Nat.not_lt.mpr hfull), _, rfl⟩
      next hroom =>
        split
        next hhave =>
          obtain ⟨txin, hmem, hhave⟩ := any_eq_true.mp hhave
          obtain ⟨txdsin, hmem', heq⟩ := any_eq_true.mp hhave
          exact .inr ⟨fun h => h.fresh txin hmem txdsin hmem' (by simpa using heq), _, rfl⟩
        next hnew =>
          refine .inl ⟨⟨?_, by simpa using hcollateral, Nat.not_le.mp hroom, ?_⟩, rfl⟩
          · simpa using hnull
          · simpa using hnew

theorem sameSession_setNull_iff : SameSession s s.setNull ↔ NoSession s :=
  ⟨fun h => ⟨h.entries, h.id, h.state, h.denom⟩, fun h => ⟨h.entries, h.id, h.state, h.denom⟩⟩

/-- A refused entry leaves the session alone, except if it is `AddEntry` that refuses it. -/
theorem dsVin_isolated_iff (node : Node) (x : Session) (entry : CDarkSendEntry) :
    (∀ message, x.dsVinAnswer node entry = .error message →
      SameSession x.server (x.processDsVin node entry).server) ↔
      (x.server.checkEntry node entry = .ok () →
        Addable node x.server entry ∨ NoSession x.server) := by
  rw [Session.processDsVin]
  cases hcheck : x.server.checkEntry node entry with
  | error message =>
    exact iff_of_true (fun _ _ => ⟨rfl, rfl, rfl, rfl⟩) (fun h => nomatch h)
  | ok _ =>
    rcases addEntry_cases node x.server entry with ⟨haddable, hadd⟩ | ⟨hnot, message, hadd⟩
    · refine iff_of_true (fun message hanswer => ?_) fun _ => .inl haddable
      rw [Session.dsVinAnswer, hcheck, hadd] at hanswer
      exact nomatch hanswer
    · have hanswer : x.dsVinAnswer node entry = .error message := by
        rw [Session.dsVinAnswer, hcheck, hadd]
        rfl
      simp only [hadd, hnot, false_or, forall_const]
      rw [← sameSession_setNull_iff]
      exact ⟨fun h => h message hanswer, fun h _ _ => h⟩

end

def twoEntries : Session :=
  (replicate 3 (Message.dsAccept 1 userCollateral 0) ++ [Message.checkForCompleteQueue] ++
    [0, 1].map (Message.dsVin ∘ readEntry)).foldl (Session.step (mixingNode fun _ => true)) {}

/-- An entry that is handed in again ends the session. -/
theorem dsVin_ends_session : twoEntries.server.vecEntries = [readEntry 0, readEntry 1] ∧
      twoEntries.dsVinAnswer (mixingNode fun _ => true) (readEntry 0) = .error .errAlreadyHave ∧
      (twoEntries.processDsVin (mixingNode fun _ => true) (readEntry 0)).server = {} ∧
      ¬SameSession twoEntries.server
        (twoEntries.processDsVin (mixingNode fun _ => true) (readEntry 0)).server := by
  have hentries : twoEntries.server.vecEntries = [readEntry 0, readEntry 1] := by decide +kernel
  have hafter : (twoEntries.processDsVin (mixingNode fun _ => true) (readEntry 0)).server = {} := by
    decide +kernel
  refine ⟨hentries, by decide +kernel, hafter, fun h => ?_⟩
  have := h.entries
  exact nomatch this

/-- The random draws of `ChargeFees`. -/
structure Draws where
  nRandInt : Fin 100
  /-- drawn only if most participants are offenders -/
  nRandInt' : Fin 100
  shuffle : List CTransaction → List CTransaction
  perm : ∀ l, (shuffle l).Perm l

/-- How `ChargeFees` ends. -/
inductive Charge where
  /-- "we don't need to charge collateral for every offence." -/
  | notThisTime
  | noOffences
  /-- "mostly offending? Charge sometimes" -/
  | mostlyOffending
  /-- "everyone is an offender? That's not right" -/
  | everyoneOffends
  /-- handed to the memory pool -/
  | charged (txCollateral : CTransaction)
  deriving DecidableEq

namespace CPrivateSendServer

variable (s : CPrivateSendServer)

def vecOffendersCollaterals : List CTransaction :=
  match s.nState with
  | .acceptingEntries =>
    s.vecSessionCollaterals.filter fun txCollateral =>
      !s.vecEntries.any fun entry => entry.txCollateral.hash = txCollateral.hash
  -- "who didn't sign?"
  | .signing =>
    s.vecEntries.flatMap fun entry =>
      (entry.vecTxDSIn.filter (!·.fHasSig)).map fun _ => entry.txCollateral
  | _ => []

def chargeFees (draws : Draws) : Charge :=
  let offenders := s.vecOffendersCollaterals
  if draws.nRandInt > 33 then .notThisTime
  else if offenders.isEmpty then .noOffences
  else if offenders.length ≥ maxPoolTransactions - 1 ∧ draws.nRandInt' > 33 then .mostlyOffending
  else if offenders.length ≥ maxPoolTransactions then .everyoneOffends
  else ((draws.shuffle offenders).head?).elim .noOffences .charged

/-- The participant did not complete the step: no entry came with this collateral, or an
input of its entry has no signature. -/
def Failed (txCollateral : CTransaction) : Prop :=
  match s.nState with
  | .acceptingEntries => txCollateral ∈ s.vecSessionCollaterals ∧
      ∀ entry ∈ s.vecEntries, entry.txCollateral.hash ≠ txCollateral.hash
  | .signing => ∃ entry ∈ s.vecEntries, entry.txCollateral = txCollateral ∧
      ∃ txdsin ∈ entry.vecTxDSIn, txdsin.fHasSig = false
  | _ => False

/-- No participant did what the state of the session asks for. -/
def AllFailed : Prop :=
  match s.nState with
  | .acceptingEntries => ∀ txCollateral ∈ s.vecSessionCollaterals,
      ∀ entry ∈ s.vecEntries, entry.txCollateral.hash ≠ txCollateral.hash
  | .signing => ∀ entry ∈ s.vecEntries, ∃ txdsin ∈ entry.vecTxDSIn, txdsin.fHasSig = false
  | _ => False

/-- Only those are charged who failed, whatever the random draws are. -/
structure ChargesFairly (draws : Draws) : Prop where
  everyone : s.chargeFees draws = .everyoneOffends → s.AllFailed
  offender : ∀ txCollateral, s.chargeFees draws = .charged txCollateral → s.Failed txCollateral

/-- The inputs without a signature are fewer than the participants of a session, unless each
entry has one. -/
def FewUnsigned : Prop :=
  (inputs s.vecEntries).countP (!·.fHasSig) < maxPoolTransactions ∨
    ∀ entry ∈ s.vecEntries, ∃ txdsin ∈ entry.vecTxDSIn, txdsin.fHasSig = false

end CPrivateSendServer

section
variable {s : CPrivateSendServer} {draws : Draws} {txCollateral : CTransaction}

theorem failed_of_mem_offenders (h : txCollateral ∈ s.vecOffendersCollaterals) :
    s.Failed txCollateral := by
  unfold vecOffendersCollaterals at h
  unfold CPrivateSendServer.Failed
  split at h
  next hstate =>
    obtain ⟨hmem, hnone⟩ := mem_filter.mp h
    exact ⟨hmem, by simpa using hnone⟩
  next hstate =>
    obtain ⟨entry, hentry, h⟩ := mem_flatMap.mp h
    obtain ⟨txdsin, htxdsin, rfl⟩ := mem_map.mp h
    obtain ⟨hmem, hsig⟩ := mem_filter.mp htxdsin
    exact ⟨entry, hentry, rfl, txdsin, hmem, by simpa using hsig⟩
  · exact nomatch h

theorem length_offenders_signing (hstate : s.nState = .signing) :
    s.vecOffendersCollaterals.length = (inputs s.vecEntries).countP (!·.fHasSig) := by
  rw [vecOffendersCollaterals, hstate, inputs, countP_flatMap]
  simp [countP_eq_length_filter, Function.comp_def]

theorem chargeFees_cases (s : CPrivateSendServer) (draws : Draws) :
    (s.chargeFees draws = .everyoneOffends →
      maxPoolTransactions ≤ s.vecOffendersCollaterals.length) ∧
    ∀ txCollateral, s.chargeFees draws = .charged txCollateral →
      txCollateral ∈ s.vecOffendersCollaterals := by
  unfold chargeFees
  dsimp only
  split_ifs with htime hnone hmostly hevery
  · simp
  · simp
  · simp
  · exact ⟨fun _ => hevery, fun _ h => nomatch h⟩
  · cases hhead : (draws.shuffle s.vecOffendersCollaterals).head? with
    | none => simp
    | some first =>
      refine ⟨(fun h => nomatch h), fun txCollateral h => ?_⟩
      obtain rfl := Charge.charged.inj h
      exact (draws.perm _).mem_iff.mp (mem_of_head? hhead)

def strictDraws : Draws := ⟨0, 0, id, fun l => .refl l⟩

theorem chargeFees_strictDraws (h : maxPoolTransactions ≤ s.vecOffendersCollaterals.length) :
    s.chargeFees strictDraws = .everyoneOffends := by
  have hne : s.vecOffendersCollaterals.isEmpty = false := by
    rw [isEmpty_eq_false_iff_exists_mem]
    exact exists_mem_of_length_pos (lt_of_lt_of_le (by decide) h)
  simp [chargeFees, strictDraws, hne, h]

theorem allFailed_of_accepting (hparticipants : s.vecSessionCollaterals.length =
    maxPoolTransactions) (hstate : s.nState = .acceptingEntries)
    (h : maxPoolTransactions ≤ s.vecOffendersCollaterals.length) : s.AllFailed := by
  rw [vecOffendersCollaterals, hstate] at h
  have hall := length_filter_eq_length_iff.mp
    (le_antisymm (length_filter_le _ _) (hparticipants.le.trans h))
  rw [CPrivateSendServer.AllFailed, hstate]
  intro txCollateral hmem
  simpa using hall txCollateral hmem

/-- For all draws: nobody is let go as one of all unless all failed, and only those who failed
are charged. -/
theorem chargesFairly_iff (hparticipants : s.vecSessionCollaterals.length = maxPoolTransactions) :
    (∀ draws, s.ChargesFairly draws) ↔ (s.nState = .signing → s.FewUnsigned) := by
  constructor
  · intro hfair hstate
    by_contra hmany
    rw [CPrivateSendServer.FewUnsigned, not_or, Nat.not_lt, ← length_offenders_signing hstate]
      at hmany
    have hall := (hfair strictDraws).everyone (chargeFees_strictDraws hmany.1)
    rw [CPrivateSendServer.AllFailed, hstate] at hall
    exact hmany.2 hall
  · intro hfew draws
    obtain ⟨hevery, hcharged⟩ := chargeFees_cases s draws
    refine ⟨fun h => ?_, fun txCollateral h => failed_of_mem_offenders (hcharged txCollateral h)⟩
    have hlength := hevery h
    cases hstate : s.nState with
    | acceptingEntries => exact allFailed_of_accepting hparticipants hstate hlength
    | signing =>
      rw [length_offenders_signing hstate] at hlength
      rw [CPrivateSendServer.AllFailed, hstate]
      exact (hfew hstate).resolve_left (Nat.not_lt.mpr hlength)
    | _ => simp [vecOffendersCollaterals, hstate, maxPoolTransactions] at hlength

end

def collateralOf (n : UInt32) : CTransaction := ⟨⟨1, [], [], 0⟩, n.toNat⟩

variable (ns : List UInt32)

/-- Three users with collaterals of their own; the first one has the inputs `ns` and does not
sign. -/
def oneSilentUser : List Message :=
  [0, 1, 2].map (fun n => .dsAccept 1 (collateralOf n) 0) ++ [.checkForCompleteQueue] ++
    [.dsVin (.read (ns.map (userInput · [])) (collateralOf 0) (ns.map fun _ => userOutput 1000010)),
      .dsVin (.read [userInput 1 []] (collateralOf 1) [userOutput 1000010]),
      .dsVin (.read [userInput 2 []] (collateralOf 2) [userOutput 1000010])] ++
    [1, 2].map fun n => .dsSignFinalTx [userInput n [OP_1 + n.toUInt8]]

def silentServer : CPrivateSendServer :=
  ((oneSilentUser ns).foldl (Session.step (mixingNode fun _ => true)) {}).server

theorem silent_user_charged :
    (silentServer [0, 3]).chargeFees strictDraws = .charged (collateralOf 0) ∧
      ∀ draws, (silentServer [0, 3]).ChargesFairly draws :=
  ⟨by decide +kernel, (chargesFairly_iff (by decide +kernel)).mpr fun _ => .inl (by decide +kernel)⟩

/-- With three inputs the silent user counts for everybody. -/
theorem silent_user_let_go :
    (silentServer [0, 3, 4]).vecSessionCollaterals = [0, 1, 2].map collateralOf ∧
      (silentServer [0, 3, 4]).chargeFees strictDraws = .everyoneOffends ∧
      ¬(silentServer [0, 3, 4]).AllFailed := by
  have hstate : (silentServer [0, 3, 4]).nState = .signing := by decide +kernel
  refine ⟨by decide +kernel, by decide +kernel, fun hall => ?_⟩
  rw [CPrivateSendServer.AllFailed, hstate] at hall
  revert hall
  decide +kernel

end ImageCoin.PrivateSend
