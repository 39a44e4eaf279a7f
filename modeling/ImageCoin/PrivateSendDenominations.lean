import ImageCoin.PrivateSendRounds
import ImageCoin.PrivateSendSigning

/-!
# The denominations of a mixing session

`GetDenominations` gives the outputs of an entry a bit for each denomination among them.  An
entry is compared with the entries before it, and the first one with nothing.
-/

namespace ImageCoin.PrivateSend

open StepRuns CPrivateSendServer List
variable {vecTxOut : List CTxOut} {s : CPrivateSendServer} {entry : CDarkSendEntry}
  (vecDenomUsed : List (CAmount × Int32))

/-- "look for denominations and update uses to 1" -/
def useDenom (txout : CTxOut) : Option (List (CAmount × Int32)) :=
  if vecDenomUsed.any (txout.nValue = ·.1) then
    some (vecDenomUsed.map fun s => if txout.nValue = s.1 then (s.1, 1) else s)
  else none

/-- "if the denomination is used, shift the bit on" -/
def shiftBits : Int32 :=
  vecDenomUsed.zipIdx.foldl (fun nDenom s => nDenom ||| (s.1.2 <<< Int32.ofNat s.2)) 0

def getDenominations (vecTxOut : List CTxOut) : Int32 :=
  ((vecTxOut.foldlM useDenom (vecStandardDenominations.map (·, 0))).map shiftBits).getD 0

def getDenominationsBits (nDenom : Int32) : Option (List ℕ) :=
  let nMaxDenoms := vecStandardDenominations.length
  if nDenom ≥ 1 <<< Int32.ofNat nMaxDenoms then none
  else
    let vecBits := (range nMaxDenoms).filter fun i => nDenom &&& (1 <<< Int32.ofNat i) ≠ 0
    if vecBits.isEmpty then none else some vecBits

/-- A node whose denominations are those of `CPrivateSend`. -/
structure Node.Standard (node : Node) : Prop where
  denominations : node.getDenominations = PrivateSend.getDenominations
  acceptable : ∀ nDenom txCollateral, node.isAcceptableDenomAndCollateral nDenom txCollateral =
    ((getDenominationsBits nDenom).isSome && node.isCollateralValid txCollateral)

def HasDenom (nDenom : Int32) (nValue : CAmount) : Prop :=
  ∃ i, vecStandardDenominations[i]? = some nValue ∧ nDenom &&& (1 <<< Int32.ofNat i) ≠ 0

theorem foldlM_useDenom {used : List (CAmount × Int32)} {l : List CAmount} (before : CAmount → Bool)
    (h : vecTxOut.foldlM useDenom (l.map fun d => (d, if before d then 1 else 0)) = some used) :
    (∀ out ∈ vecTxOut, out.nValue ∈ l) ∧
      used = l.map fun d => (d, if before d || vecTxOut.any (·.nValue = d) then 1 else 0) := by
  induction vecTxOut generalizing before with
  | nil =>
    obtain rfl := Option.some.inj h
    simp
  | cons out vecTxOut ih =>
    obtain ⟨next, hnext, h⟩ := Option.bind_eq_some_iff.mp h
    obtain ⟨hfound, hnext⟩ := Option.ite_none_right_eq_some.mp hnext
    have hmem : out.nValue ∈ l := by simpa using hfound
    have hthis : next = l.map fun d =>
        (d, if before d || decide (out.nValue = d) then 1 else 0) := by
      rw [← Option.some.inj hnext, map_map]
      refine map_congr_left fun d _ => ?_
      by_cases heq : out.nValue = d <;> simp [heq]
    rw [hthis] at h
    obtain ⟨hall, rfl⟩ := ih _ h
    refine ⟨forall_mem_cons.mpr ⟨hmem, hall⟩, map_congr_left fun d _ => ?_⟩
    simp [Bool.or_assoc]

theorem shiftBits_bit (uses : CAmount → Bool) {i : ℕ} {d : CAmount}
    (hd : vecStandardDenominations[i]? = some d) (huses : uses d) :
    shiftBits (vecStandardDenominations.map fun d => (d, if uses d then 1 else 0)) &&&
      (1 <<< Int32.ofNat i) ≠ 0 := by
  -- four uses, of which the one at `i` is on
  have hbits : ∀ (b0 b1 b2 b3 : Bool) (i : Fin 4), [b0, b1, b2, b3][i] →
      shiftBits [(1000010000, if b0 then 1 else 0), (100001000, if b1 then 1 else 0),
        (10000100, if b2 then 1 else 0), (1000010, if b3 then 1 else 0)] &&&
          (1 <<< Int32.ofNat i) ≠ 0 := by
    decide +kernel
  obtain ⟨hi, hget⟩ := List.getElem?_eq_some_iff.mp hd
  refine hbits (uses 1000010000) (uses 100001000) (uses 10000100) (uses 1000010) ⟨i, hi⟩ ?_
  rw [← huses, ← hget]
  exact List.getElem_map uses (h := by simpa using hi)

theorem hasDenom_getDenominations (hne : getDenominations vecTxOut ≠ 0)
    {out : CTxOut} (hout : out ∈ vecTxOut) : HasDenom (getDenominations vecTxOut) out.nValue := by
  cases hfold : vecTxOut.foldlM useDenom (vecStandardDenominations.map (·, 0)) with
  | none => simp [getDenominations, hfold] at hne
  | some used =>
    obtain ⟨hall, rfl⟩ := foldlM_useDenom (fun _ => false) (by simpa using hfold)
    have hany : vecTxOut.any (·.nValue = out.nValue) :=
      any_eq_true.mpr ⟨out, hout, by simp⟩
    obtain ⟨i, hi⟩ := mem_iff_getElem?.mp (hall out hout)
    refine ⟨i, hi, ?_⟩
    rw [getDenominations, hfold]
    exact shiftBits_bit (fun d => vecTxOut.any (·.nValue = d)) hi hany

section
variable (node : Node)

theorem addScriptSigToEntries_vecTxOut {txin : CTxIn} {vecEntries vecEntries' : List CDarkSendEntry}
    (h : addScriptSigToEntries txin vecEntries = some vecEntries') :
    vecEntries'.map CDarkSendEntry.vecTxOut = vecEntries.map CDarkSendEntry.vecTxOut := by
  induction vecEntries generalizing vecEntries' with
  | nil => exact nomatch h
  | cons entry rest ih =>
    rw [addScriptSigToEntries] at h
    split at h
    next entry' hentry =>
      obtain rfl := Option.some.inj h
      obtain ⟨vecTxDSIn, _, rfl⟩ := Option.map_eq_some_iff.mp hentry
      rfl
    next =>
      obtain ⟨rest', hrest, rfl⟩ := Option.map_eq_some_iff.mp h
      rw [map_cons, map_cons, ih hrest]

/-- What `AddScriptSig` does not touch. -/
structure SameOutputs (s s' : CPrivateSendServer) : Prop where
  state : s'.nState = s.nState
  denom : s'.nSessionDenom = s.nSessionDenom
  collaterals : s'.vecSessionCollaterals = s.vecSessionCollaterals
  entries : s'.vecEntries.map CDarkSendEntry.vecTxOut = s.vecEntries.map CDarkSendEntry.vecTxOut
  final : s'.finalMutableTransaction.vout = s.finalMutableTransaction.vout

theorem SameOutputs.refl (s : CPrivateSendServer) : SameOutputs s s := ⟨rfl, rfl, rfl, rfl, rfl⟩

theorem SameOutputs.trans {s' s'' : CPrivateSendServer} (h : SameOutputs s s')
    (h' : SameOutputs s' s'') : SameOutputs s s'' :=
  ⟨h'.state.trans h.state, h'.denom.trans h.denom, h'.collaterals.trans h.collaterals,
    h'.entries.trans h.entries, h'.final.trans h.final⟩

theorem addScriptSig_sameOutputs (s : CPrivateSendServer) (txin : CTxIn) :
    SameOutputs s (s.addScriptSig node txin).2 := by
  rw [addScriptSig]
  split
  · exact .refl s
  split
  · exact .refl s
  dsimp only
  split
  next vecEntries hadd => exact ⟨rfl, rfl, rfl, addScriptSigToEntries_vecTxOut hadd, rfl⟩
  · exact ⟨rfl, rfl, rfl, rfl, rfl⟩

theorem addScriptSigs_sameOutputs (vecTxIn : List CTxIn) (s : CPrivateSendServer) :
    SameOutputs s (addScriptSigs node vecTxIn s).2 := by
  induction vecTxIn generalizing s with
  | nil => exact .refl s
  | cons txin rest ih =>
    have hone := addScriptSig_sameOutputs node s txin
    rw [addScriptSigs]
    split
    · exact hone.trans (ih _)
    · exact hone

end

/-- The outputs of the entries, and of the transaction that is made of them. -/
structure Session.Agreed (node : Node) (x : Session) : Prop where
  entries : ∀ vecTxOut ∈ x.server.vecEntries.map CDarkSendEntry.vecTxOut,
    node.getDenominations vecTxOut = x.server.nSessionDenom ∧ node.getDenominations vecTxOut ≠ 0
  ready : x.server.vecEntries ≠ [] → x.server.isSessionReady
  full : x.server.nState = .signing → maxPoolTransactions ≤ x.server.vecEntries.length
  final : x.server.nState = .signing → ∀ out ∈ x.server.finalMutableTransaction.vout,
    ∃ vecTxOut ∈ x.server.vecEntries.map CDarkSendEntry.vecTxOut, out ∈ vecTxOut

open Session

def Session.FirstAgrees (node : Node) (x : Session) : Message → Prop
  | .dsVin entry =>
    x.server.vecEntries = [] → node.getDenominations entry.vecTxOut = x.server.nSessionDenom
  | _ => True

section
variable {node : Node} {x : Session}

theorem Session.Agreed.of_empty (hentries : x.server.vecEntries = [])
    (hstate : x.server.nState ≠ .signing) : x.Agreed node :=
  ⟨by simp [hentries], fun h => absurd hentries h, fun h => absurd h hstate,
    fun h => absurd h hstate⟩

theorem Session.Agreed.checkPool (h : x.Agreed node) : (x.checkPool node).Agreed node := by
  unfold Session.checkPool
  split
  next hfull =>
    refine ⟨h.entries, h.ready, fun _ => hfull.2, fun _ out hout => ?_⟩
    have hmem : out ∈ outputs x.server.vecEntries :=
      (node.sortOutputs.perm _).mem_iff.mp hout
    obtain ⟨entry, hentry, hout⟩ := mem_flatMap.mp hmem
    exact ⟨entry.vecTxOut, mem_map_of_mem hentry, hout⟩
  split
  · exact .of_empty rfl (fun hs => nomatch hs)
  · exact h

theorem checkEntry_eq_ok (h : s.checkEntry node entry = .ok ()) :
    s.isSessionReady ∧ s.isOutputsCompatibleWithSessionDenom node entry.vecTxOut := by
  unfold checkEntry at h
  grind

theorem Session.Agreed.processDsVin (h : x.Agreed node)
    (hfirst : x.FirstAgrees node (.dsVin entry)) : (x.processDsVin node entry).Agreed node := by
  unfold Session.processDsVin
  split
  · exact h
  next hcheck =>
    obtain ⟨hready, hcompatible⟩ := checkEntry_eq_ok hcheck
    rw [isOutputsCompatibleWithSessionDenom, Bool.and_eq_true, all_eq_true] at hcompatible
    split
    next server hadd =>
      obtain ⟨hroom, rfl⟩ := addEntry_eq_ok hadd
      have hstate : x.server.nState ≠ .signing := fun hs =>
        absurd (h.full hs) (Nat.not_le.mpr hroom)
      refine Session.Agreed.checkPool
        ⟨?_, fun _ => hready, fun hs => absurd hs hstate, fun hs => absurd hs hstate⟩
      intro vecTxOut hmem
      rw [map_append, mem_append, map_singleton, mem_singleton] at hmem
      rcases hmem with hold | rfl
      · exact h.entries vecTxOut hold
      · refine ⟨?_, by simpa using hcompatible.1⟩
        cases hentries : x.server.vecEntries with
        | nil => exact hfirst hentries
        | cons entry' rest =>
          have hmem : entry' ∈ x.server.vecEntries := by simp [hentries]
          have heq := hcompatible.2 entry' hmem
          rw [decide_eq_true_eq] at heq
          rw [heq]
          exact (h.entries _ (mem_map_of_mem hmem)).1
    · exact .of_empty rfl (fun hs => nomatch hs)

theorem Session.Agreed.sameOutputs {server : CPrivateSendServer} (h : x.Agreed node)
    (hsame : SameOutputs x.server server) : { x with server }.Agreed node := by
  have hlength : server.vecEntries.length = x.server.vecEntries.length := by
    simpa using congrArg length hsame.entries
  refine ⟨?_, fun hne => ?_, fun hs => ?_, fun hs => ?_⟩
  · rw [hsame.entries, hsame.denom]
    exact h.entries
  · rw [isSessionReady, hsame.collaterals]
    exact h.ready fun hnil => hne (eq_nil_of_length_eq_zero (by rw [hlength, hnil]; rfl))
  · rw [hlength]
    exact h.full (hsame.state ▸ hs)
  · rw [hsame.final, hsame.entries]
    exact h.final (hsame.state ▸ hs)

theorem Session.Agreed.step (m : Message) (h : x.Agreed node) (hfirst : x.FirstAgrees node m) :
    (x.step node m).Agreed node := by
  cases m with
  | dsAccept nDenom txCollateral nRand =>
    rcases processDsAccept_cases x.server nDenom txCollateral nRand with
      heq | ⟨hready, -, hstate, hentries⟩
    · rw [Session.step, heq]
      exact h
    · have hempty : x.server.vecEntries = [] := by
        by_contra hne
        rw [h.ready hne] at hready
        exact nomatch hready
      exact .of_empty (hentries.trans hempty) (by simp [Session.step, hstate])
  | checkForCompleteQueue =>
    change ({ x with server := x.server.checkForCompleteQueue } : Session).Agreed node
    unfold checkForCompleteQueue
    split
    · exact ⟨h.entries, h.ready, (fun hs => nomatch hs), (fun hs => nomatch hs)⟩
    · exact h
  | dsVin entry => exact h.processDsVin hfirst
  | dsSignFinalTx vecTxIn =>
    have hafter := h.sameOutputs (addScriptSigs_sameOutputs node vecTxIn x.server)
    change (x.processDsSignFinalTx node vecTxIn).Agreed node
    unfold processDsSignFinalTx
    dsimp only
    split
    · exact hafter.checkPool
    · exact hafter
  | checkTimeout fTimeout =>
    change (x.checkTimeout fTimeout).Agreed node
    unfold checkTimeout
    split
    · exact .of_empty rfl (fun hs => nomatch hs)
    · exact h

end

/-- If the first entry of each session has its denominations, all entries do, and so does the
final transaction. -/
theorem session_denominations (node : Node) (hnode : node.Standard) (messages : List Message)
    (hall : Along (step node) (Session.FirstAgrees node) {} messages)
    (s : CPrivateSendServer) (hs : s = (messages.foldl (step node) {}).server) :
    (∀ entry ∈ s.vecEntries, getDenominations entry.vecTxOut = s.nSessionDenom) ∧
      (s.nState = .signing → ∀ out ∈ s.finalMutableTransaction.vout,
        HasDenom s.nSessionDenom out.nValue) := by
  have hagreed : (messages.foldl (step node) {}).Agreed node :=
    hall.foldl (fun x m h hok => Session.Agreed.step m h hok) (.of_empty rfl (by decide))
  subst hs
  rw [← hnode.denominations]
  refine ⟨fun entry hentry => (hagreed.entries _ (List.mem_map_of_mem hentry)).1,
    fun hsigning out hout => ?_⟩
  obtain ⟨vecTxOut, hmem, hout⟩ := hagreed.final hsigning out hout
  obtain ⟨hdenom, hne⟩ := hagreed.entries vecTxOut hmem
  rw [hnode.denominations] at hdenom hne
  rw [← hdenom]
  exact hasDenom_getDenominations hne hout

def denomNode : Node :=
  { mixingNode fun _ => true with
    getDenominations := getDenominations
    isAcceptableDenomAndCollateral := fun nDenom _ => (getDenominationsBits nDenom).isSome }

theorem denomNode_standard : denomNode.Standard := ⟨rfl, fun _ _ => (Bool.and_true _).symm⟩

/-- Three users join for `nDenom` and hand in entries with one output of `1000010`. -/
def denomUsers (nDenom : Int32) : List Message :=
  replicate 3 (.dsAccept nDenom userCollateral 0) ++ [.checkForCompleteQueue] ++
    [0, 1, 2].map (.dsVin ∘ preparedEntry 1000010)

instance (node : Node) (x : Session) : ∀ m, Decidable (x.FirstAgrees node m)
  | .dsVin _ => inferInstanceAs (Decidable (_ → _))
  | .dsAccept .. => .isTrue trivial
  | .checkForCompleteQueue => .isTrue trivial
  | .dsSignFinalTx _ => .isTrue trivial
  | .checkTimeout _ => .isTrue trivial

theorem session_denominations_three :
    ∃ s : CPrivateSendServer, s.nState = .signing ∧ s.vecEntries.length = 3 ∧
      ∀ entry ∈ s.vecEntries, getDenominations entry.vecTxOut = s.nSessionDenom :=
  ⟨((denomUsers 8).foldl (step denomNode) {}).server, by decide +kernel, by decide +kernel,
    (session_denominations denomNode denomNode_standard (denomUsers 8) (by decide +kernel) _ rfl).1⟩

/-- A session for the largest denomination mixes the smallest one. -/
theorem session_other_denomination :
    ∃ s : CPrivateSendServer, s = ((denomUsers 1).foldl (step denomNode) {}).server ∧
      denomNode.Standard ∧ s.nState = .signing ∧ s.nSessionDenom = 1 ∧
      (∃ entry ∈ s.vecEntries, getDenominations entry.vecTxOut = 8) ∧
      ∃ out ∈ s.finalMutableTransaction.vout, ¬HasDenom s.nSessionDenom out.nValue := by
  refine ⟨_, rfl, denomNode_standard, by decide +kernel, by decide +kernel, by decide +kernel,
    userOutput 1000010, by decide +kernel, ?_⟩
  rintro ⟨i, hi, hbit⟩
  obtain ⟨hlt, hget⟩ := List.getElem?_eq_some_iff.mp hi
  have hall : ∀ i : Fin 4, vecStandardDenominations[i] = (userOutput 1000010).nValue →
      ((denomUsers 1).foldl (step denomNode) {}).server.nSessionDenom &&&
        (1 <<< Int32.ofNat i) = 0 := by
    decide +kernel
  exact hbit (hall ⟨i, hlt⟩ hget)

end ImageCoin.PrivateSend
