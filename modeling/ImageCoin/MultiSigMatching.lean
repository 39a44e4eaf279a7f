import ImageCoin.Interpreter

/-!
# The greedy scan of `OP_CHECKMULTISIG`

Signatures match keys in order if they match a sublist of the keys.  Taking the first key that
verifies loses no matching, and neither does giving up when more signatures than keys are
left.
-/

namespace ImageCoin

open List

section
variable {α β : Type} {verifies : α → β → Prop} {sig : α} {sigs : List α} {key : β} {keys : List β}

/-- The signatures verify, one by one, with some of the keys in the same order. -/
def SigsMatch (verifies : α → β → Prop) (sigs : List α) (keys : List β) : Prop :=
  ∃ used : List β, used.Sublist keys ∧ List.Forall₂ verifies sigs used

theorem SigsMatch.nil : SigsMatch verifies [] keys := ⟨[], nil_sublist _, .nil⟩

theorem SigsMatch.length_le (h : SigsMatch verifies sigs keys) : sigs.length ≤ keys.length := by
  obtain ⟨used, hsub, hall⟩ := h
  exact hall.length_eq.trans_le hsub.length_le

theorem matches_cons_of_verifies (hfirst : verifies sig key) :
    SigsMatch verifies (sig :: sigs) (key :: keys) ↔ SigsMatch verifies sigs keys := by
  constructor
  · rintro ⟨used, hsub, hall⟩
    cases hall with
    | cons _ hrest => exact ⟨_, hsub.tail, hrest⟩
  · rintro ⟨used, hsub, hall⟩
    exact ⟨key :: used, hsub.cons_cons key, .cons hfirst hall⟩

theorem matches_cons_of_not (hfirst : ¬verifies sig key) :
    SigsMatch verifies (sig :: sigs) (key :: keys) ↔ SigsMatch verifies (sig :: sigs) keys := by
  constructor
  · rintro ⟨used, hsub, hall⟩
    cases hsub with
    | cons _ hsub => exact ⟨used, hsub, hall⟩
    | cons_cons _ hsub =>
      cases hall with
      | cons hkey _ => exact absurd hkey hfirst
  · rintro ⟨used, hsub, hall⟩
    exact ⟨used, hsub.cons key, hall⟩

/-- A matching is an order-preserving injective map from the signatures to the keys. -/
theorem sigsMatch_iff_orderEmbedding : SigsMatch verifies sigs keys ↔
    ∃ f : Fin sigs.length ↪o Fin keys.length, ∀ i, verifies (sigs.get i) (keys.get (f i)) := by
  constructor
  · rintro ⟨used, hsub, hall⟩
    obtain ⟨f, hf⟩ := sublist_iff_exists_fin_orderEmbedding_get_eq.mp hsub
    refine ⟨(Fin.castOrderIso hall.length_eq).toOrderEmbedding.trans f, fun i => ?_⟩
    have hget := (forall₂_iff_get.mp hall).2 i i.2 (hall.length_eq ▸ i.2)
    rw [hf] at hget
    exact hget
  · rintro ⟨f, hf⟩
    refine ⟨ofFn fun i => keys.get (f i), ?_, ?_⟩
    · refine sublist_iff_exists_fin_orderEmbedding_get_eq.mpr
        ⟨(Fin.castOrderIso length_ofFn).toOrderEmbedding.trans f, fun i => ?_⟩
      simp
      rfl
    · refine forall₂_iff_get.mpr ⟨by simp, fun i hi hi' => ?_⟩
      simpa using hf ⟨i, hi⟩

end

section
variable {env : ScriptEnv} {scriptCode : CScript} {keys sigs : List Bytes} {s : EvalState}

/-- The encoding checks pass for the signature and leave the state alone. -/
def SigOk (env : ScriptEnv) (vchSig : Bytes) : Prop := checkSignatureEncoding env vchSig = pure ()

def KeyOk (env : ScriptEnv) (vchPubKey : Bytes) : Prop :=
  checkPubKeyEncoding env vchPubKey = pure ()

def Verifies (env : ScriptEnv) (scriptCode : CScript) (vchSig vchPubKey : Bytes) : Prop :=
  env.checker.checkSig vchSig vchPubKey scriptCode

/-- The state after some calls of `CheckSig`. -/
def EvalState.checked (s : EvalState) (calls : ℕ) : EvalState :=
  { s with nCheckSig := s.nCheckSig + calls }

theorem multiSigLoop_cons {vchSig vchPubKey : Bytes} (hsig : SigOk env vchSig)
    (hkey : KeyOk env vchPubKey) :
    multiSigLoop env scriptCode (vchPubKey :: keys) (vchSig :: sigs) s =
      (if (if env.checker.checkSig vchSig vchPubKey scriptCode then sigs
          else vchSig :: sigs).length > keys.length then pure false
        else multiSigLoop env scriptCode keys
          (if env.checker.checkSig vchSig vchPubKey scriptCode then sigs else vchSig :: sigs))
        (s.checked 1) := by
  rw [multiSigLoop, hsig, hkey]
  rfl

/-- The scan answers whether there is a matching, and only counts its calls. -/
theorem multiSigLoop_spec (hsigs : ∀ vchSig ∈ sigs, SigOk env vchSig)
    (hkeys : ∀ vchPubKey ∈ keys, KeyOk env vchPubKey) : ∃ fSuccess calls,
    multiSigLoop env scriptCode keys sigs s = .ok fSuccess (s.checked calls) ∧
      (fSuccess ↔ SigsMatch (Verifies env scriptCode) sigs keys) := by
  induction keys generalizing sigs s with
  | nil =>
    cases sigs with
    | nil => exact ⟨true, 0, rfl, by simp [SigsMatch.nil]⟩
    | cons vchSig sigs =>
      refine ⟨false, 0, rfl, ?_⟩
      simpa using fun h : SigsMatch _ _ _ => absurd h.length_le (by simp)
  | cons vchPubKey keys ih =>
    cases sigs with
    | nil => exact ⟨true, 0, by simp [multiSigLoop]; rfl, by simp [SigsMatch.nil]⟩
    | cons vchSig sigs =>
      obtain ⟨hsig, hrest⟩ := forall_mem_cons.mp hsigs
      obtain ⟨hkey, hkeys⟩ := forall_mem_cons.mp hkeys
      rw [multiSigLoop_cons hsig hkey]
      -- what is left after this key has a matching with the other keys iff there is one now
      have hleft : ∀ left, (∀ v ∈ left, SigOk env v) →
          (SigsMatch (Verifies env scriptCode) (vchSig :: sigs) (vchPubKey :: keys) ↔
            SigsMatch (Verifies env scriptCode) left keys) → ∃ fSuccess calls,
          (if left.length > keys.length then pure false
            else multiSigLoop env scriptCode keys left) (s.checked 1) =
              .ok fSuccess (s.checked calls) ∧
            (fSuccess ↔
              SigsMatch (Verifies env scriptCode) (vchSig :: sigs) (vchPubKey :: keys)) := by
        intro left hok hiff
        rw [hiff]
        split_ifs with hmore
        · refine ⟨false, 1, rfl, ?_⟩
          simpa using fun h : SigsMatch _ _ _ => absurd h.length_le (by omega)
        · obtain ⟨fSuccess, calls, hrun, hmatches⟩ := ih hok hkeys
          refine ⟨fSuccess, 1 + calls, ?_, hmatches⟩
          rw [hrun]
          simp [EvalState.checked, Nat.add_assoc]
      cases hverifies : env.checker.checkSig vchSig vchPubKey scriptCode with
      | true => exact hleft sigs hrest (matches_cons_of_verifies hverifies)
      | false =>
        exact hleft (vchSig :: sigs) hsigs (matches_cons_of_not (by simp [Verifies, hverifies]))

/-- The stack that `OP_CHECKMULTISIG` finds: the number of keys on top, the keys, the number
of signatures, the signatures, and an item that is consumed as well. -/
structure MultiSigArgs where
  vchKeysCount : Bytes
  keys : List Bytes
  vchSigsCount : Bytes
  sigs : List Bytes
  dummy : Bytes
  rest : List Bytes

def MultiSigArgs.stack (args : MultiSigArgs) : List Bytes :=
  args.vchKeysCount :: (args.keys ++ args.vchSigsCount :: (args.sigs ++ args.dummy :: args.rest))

/-- The numbers say how many keys and signatures there are, and the limits, the encodings and
the extra item are acceptable. -/
structure MultiSigArgs.Acceptable (args : MultiSigArgs) (env : ScriptEnv) (nOpCount : ℕ) :
    Prop where
  keysCount : scriptNum args.vchKeysCount env.fRequireMinimal nDefaultMaxNumSize =
    some (args.keys.length : ℤ)
  sigsCount : scriptNum args.vchSigsCount env.fRequireMinimal nDefaultMaxNumSize =
    some (args.sigs.length : ℤ)
  few : args.keys.length ≤ maxPubkeysPerMultisig
  fewer : args.sigs.length ≤ args.keys.length
  opCount : nOpCount + args.keys.length ≤ maxOpsPerScript
  sigOk : ∀ vchSig ∈ args.sigs, SigOk env vchSig
  keyOk : ∀ vchPubKey ∈ args.keys, KeyOk env vchPubKey
  dummy : hasFlag env.flags SCRIPT_VERIFY_NULLDUMMY → args.dummy = []

theorem readCount_eq {vch : Bytes} {limit n : ℕ} {e : ScriptError}
    (hnum : scriptNum vch env.fRequireMinimal nDefaultMaxNumSize = some (n : ℤ))
    (hle : n ≤ limit) : readCount env vch limit e s = .ok n s := by
  have hbad : (decide ((n : ℤ) < 0) || decide ((n : ℤ) > limit)) = false := by
    simpa using hle
  simp only [readCount, readNum, hnum]
  change (failIf _ e >>= fun _ => pure _) s = _
  rw [failIf, hbad]
  rfl

theorem evalMultiSigKeys_spec {args : MultiSigArgs} {nOpCount : ℕ}
    (hargs : args.Acceptable env nOpCount) : ∃ fSuccess calls,
    evalMultiSigKeys env OP_CHECKMULTISIG args.keys.length (args.keys ++
        args.vchSigsCount :: (args.sigs ++ args.dummy :: args.rest)) s =
      .ok () { s.checked calls with stack := boolBytes fSuccess :: args.rest } ∧
    (fSuccess ↔ SigsMatch (Verifies env (args.sigs.foldl dropSignature s.pbegincodehash))
      args.sigs args.keys) := by
  obtain ⟨fSuccess, calls, hrun, hmatches⟩ := multiSigLoop_spec (s := s) hargs.sigOk hargs.keyOk
  refine ⟨fSuccess, calls, ?_, hmatches⟩
  have hdummy : (hasFlag env.flags SCRIPT_VERIFY_NULLDUMMY && decide (args.dummy ≠ [])) =
      false := by
    cases hflag : hasFlag env.flags SCRIPT_VERIFY_NULLDUMMY with
    | false => rfl
    | true => simp [hargs.dummy hflag]
  have hlong : (decide ((args.sigs ++ args.dummy :: args.rest).length < args.sigs.length + 1)) =
      false := by
    simp
  have hverify : decide (OP_CHECKMULTISIG = OP_CHECKMULTISIGVERIFY) = false := by decide
  simp only [evalMultiSigKeys, drop_left]
  change EStateM.bind (readCount _ _ _ _) _ s = _
  simp only [EStateM.bind, readCount_eq hargs.sigsCount hargs.fewer, take_left, drop_left, hlong,
    hdummy]
  change EStateM.bind (multiSigLoop _ _ _ _) _ s = _
  simp only [EStateM.bind, hrun]
  rfl

/-- With acceptable encodings `OP_CHECKMULTISIG` replaces its arguments by true iff the
signatures verify with keys under an order-preserving injective map. -/
theorem evalCheckMultiSig_iff_matching (env : ScriptEnv) (s : EvalState) (args : MultiSigArgs)
    (hstack : s.stack = args.stack) (hargs : args.Acceptable env s.nOpCount) :
    ∃ fSuccess s', evalCheckMultiSig env OP_CHECKMULTISIG s = .ok () s' ∧
      s'.stack = boolBytes fSuccess :: args.rest ∧
      (fSuccess ↔ ∃ f : Fin args.sigs.length ↪o Fin args.keys.length,
        ∀ i, env.checker.checkSig (args.sigs.get i) (args.keys.get (f i))
          (args.sigs.foldl dropSignature s.pbegincodehash)) := by
  obtain ⟨fSuccess, calls, hrun, hmatches⟩ := evalMultiSigKeys_spec
    (s := { s with nOpCount := s.nOpCount + args.keys.length }) hargs
  refine ⟨fSuccess, { s.checked calls with
    nOpCount := s.nOpCount + args.keys.length, stack := boolBytes fSuccess :: args.rest }, ?_, rfl,
    hmatches.trans sigsMatch_iff_orderEmbedding⟩
  · have hops : decide (s.nOpCount + args.keys.length > maxOpsPerScript) = false := by
      simpa using hargs.opCount
    simp only [evalCheckMultiSig]
    change EStateM.bind get _ s = _
    have hget : ∀ k : EvalState → EvalM Unit, EStateM.bind get k s = k s s := fun _ => rfl
    simp only [hget, hstack]
    change EStateM.bind (readCount _ _ _ _) _ s = _
    simp only [EStateM.bind, readCount_eq hargs.keysCount hargs.few]
    change EStateM.bind (failIf (decide (s.nOpCount + args.keys.length > maxOpsPerScript)) _) _
      { s with nOpCount := s.nOpCount + args.keys.length } = _
    rw [failIf, hops]
    exact hrun

def equalChecker : BaseSignatureChecker where
  checkSig vchSig vchPubKey _ := vchSig = vchPubKey
  checkLockTime _ := true
  checkSequence _ := true

def plainEnv : ScriptEnv := ⟨0, equalChecker, ⟨id, id, id, fun _ => true⟩⟩

def twoOfThree : MultiSigArgs where
  vchKeysCount := [3]
  keys := [[7], [8], [9]]
  vchSigsCount := [2]
  sigs := [[7], [9]]
  dummy := []
  rest := []

theorem evalCheckMultiSig_twoOfThree : ∃ fSuccess s', evalCheckMultiSig plainEnv OP_CHECKMULTISIG
        (EvalState.start twoOfThree.stack []) = .ok () s' ∧
      s'.stack = boolBytes fSuccess :: twoOfThree.rest ∧
      (fSuccess ↔ ∃ f : Fin twoOfThree.sigs.length ↪o Fin twoOfThree.keys.length,
        ∀ i, plainEnv.checker.checkSig (twoOfThree.sigs.get i) (twoOfThree.keys.get (f i))
          (twoOfThree.sigs.foldl dropSignature [])) := by
  refine evalCheckMultiSig_iff_matching plainEnv (EvalState.start twoOfThree.stack []) twoOfThree
    rfl ⟨by decide +kernel, by decide +kernel, by decide, by decide, by decide, ?_, ?_, by decide⟩
  · intro vchSig _
    unfold SigOk checkSignatureEncoding
    split
    · rfl
    · rfl
  · intro vchPubKey _
    rfl

end
end ImageCoin
