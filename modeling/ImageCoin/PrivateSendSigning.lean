import ImageCoin.PrivateSendServer
import ImageCoin.StepRuns

/-!
# Signing the final transaction

A signature is checked against a transaction that is put together anew from the entries, and
stored in the final transaction, whose inputs and outputs are sorted.
-/

namespace ImageCoin.PrivateSend

open StepRuns CPrivateSendServer List CTxIn
open Option hiding map_map

def Node.coinScript (node : Node) (prevout : COutPoint) : Option CScript :=
  (node.getUTXOCoin prevout).map CTxOut.scriptPubKey

def Verified (node : Node) (tx : CMutableTransaction) (nIn : ℕ) (prevout : COutPoint)
    (scriptSig : CScript) : Prop :=
  ∃ scriptPubKey ∈ node.coinScript prevout,
    verifyInput node.ops node.crypto verifyFlags tx nIn scriptSig scriptPubKey

def Accepts (node : Node) (tx : CMutableTransaction) (txin : CTxIn) : Prop :=
  ∃ nIn : ℕ, (tx.vin[nIn]?).map unsigned = some txin.unsigned ∧
    Verified node tx nIn txin.prevout txin.scriptSig

/-- The network accepts every input of the transaction. -/
def FullyValid (node : Node) (tx : CMutableTransaction) : Prop :=
  ∀ (nIn : ℕ) txin, tx.vin[nIn]? = some txin → Verified node tx nIn txin.prevout txin.scriptSig

/-- The inputs carry the scripts of their coins, and all is in order. -/
structure Prepared (node : Node) (vecEntries : List CDarkSendEntry) : Prop where
  prevPubKey : ∀ txdsin ∈ inputs vecEntries,
    node.coinScript txdsin.prevout = some txdsin.prevPubKey
  inputsInOrder : ((inputs vecEntries).map CTxDSIn.toCTxIn).Pairwise fun a b =>
    compareInputBIP69 a b
  outputsInOrder : (outputs vecEntries).Pairwise fun a b => compareOutputBIP69 a b ∨ a = b

instance (node : Node) (vecEntries : List CDarkSendEntry) : Decidable (Prepared node vecEntries) :=
  decidable_of_iff (_ ∧ _ ∧ _) ⟨fun ⟨h, h', h''⟩ => ⟨h, h', h''⟩, fun ⟨h, h', h''⟩ => ⟨h, h', h''⟩⟩

/-- No input has this signature, and those with this `prevout` have none yet. -/
structure Fresh (s : CPrivateSendServer) (txin : CTxIn) : Prop where
  scriptSig : ∀ txdsin ∈ inputs s.vecEntries, txdsin.scriptSig ≠ txin.scriptSig
  fHasSig : ∀ txdsin ∈ inputs s.vecEntries, txdsin.prevout = txin.prevout → txdsin.fHasSig = false

/-- The session while signatures come in. -/
structure Signing (node : Node) (s : CPrivateSendServer) : Prop where
  prepared : Prepared node s.vecEntries
  same : SameButScriptSigs s.finalMutableTransaction (poolTransaction s.vecEntries)
  signed : ∀ (nIn : ℕ) txdsin txin, (inputs s.vecEntries)[nIn]? = some txdsin →
    txdsin.fHasSig → s.finalMutableTransaction.vin[nIn]? = some txin →
    Verified node s.finalMutableTransaction nIn txin.prevout txin.scriptSig

theorem SameButScriptSigs.verified {node : Node} {a b : CMutableTransaction} {nIn : ℕ}
    {prevout : COutPoint} {scriptSig : CScript} (h : SameButScriptSigs a b) :
    Verified node a nIn prevout scriptSig ↔ Verified node b nIn prevout scriptSig := by
  simp [Verified, h.verifyInput]

section
variable {node : Node} {vecEntries : List CDarkSendEntry} {s : CPrivateSendServer}
  {txdsin txdsin' : CTxDSIn} {i j : ℕ}

theorem Prepared.index_unique (h : Prepared node vecEntries)
    (hi : (inputs vecEntries)[i]? = some txdsin) (hj : (inputs vecEntries)[j]? = some txdsin')
    (hprevout : txdsin.prevout = txdsin'.prevout) : i = j := by
  have hkey : inputKey txdsin.toCTxIn = inputKey txdsin'.toCTxIn := by simp [inputKey, hprevout]
  have hlt : ∀ {i j : ℕ} {a b : CTxDSIn}, (inputs vecEntries)[i]? = some a →
      (inputs vecEntries)[j]? = some b → i < j →
      inputKey a.toCTxIn < inputKey b.toCTxIn := by
    intro i j a b ha hb hij
    obtain ⟨hi, rfl⟩ := List.getElem?_eq_some_iff.mp ha
    obtain ⟨hj, rfl⟩ := List.getElem?_eq_some_iff.mp hb
    have := List.pairwise_iff_getElem.mp h.inputsInOrder i j (by simpa using hi) (by simpa using
      hj) hij
    simpa [compareInputBIP69_iff] using this
  rcases lt_trichotomy i j with hij | hij | hij
  · exact absurd hkey (hlt hi hj hij).ne
  · exact hij
  · exact absurd hkey (hlt hj hi hij).ne'

theorem Prepared.createFinalTransaction (h : Prepared node s.vecEntries)
    (hunsigned : ∀ txdsin ∈ inputs s.vecEntries, txdsin.fHasSig = false) :
    Signing node (s.createFinalTransaction node) := by
  have hvin := node.sortInputs.sort_eq_self compareInputBIP69_iff (h.inputsInOrder.imp .inl)
  have hvout := node.sortOutputs.sort_eq_self compareOutputBIP69_iff h.outputsInOrder
  have hfinal : s.createFinalTransaction node =
      { s with finalMutableTransaction := poolTransaction s.vecEntries, nState := .signing } := by
    simp [CPrivateSendServer.createFinalTransaction, CPrivateSendServer.setState,
      poolTransaction, hvin, hvout]
  rw [hfinal]
  refine ⟨h, ⟨rfl, rfl, rfl, rfl⟩, fun nIn txdsin txin htxdsin hsig _ => ?_⟩
  rw [hunsigned txdsin (mem_of_getElem? htxdsin)] at hsig
  exact nomatch hsig

theorem Signing.unsigned (h : Signing node s) (i : ℕ) :
    (s.finalMutableTransaction.vin[i]?).map unsigned =
      ((inputs s.vecEntries)[i]?).map fun txdsin => txdsin.toCTxIn.unsigned := by
  rw [h.same.getElem? i, poolTransaction, getElem?_map, Option.map_map]
  rfl

end

section
variable {node : Node} {s : CPrivateSendServer} {txin : CTxIn} {prevout : COutPoint}
  {txdsin : CTxDSIn} {l : List CTxDSIn} {i k : ℕ} {found : Option (ℕ × CScript)}

theorem findInput_none (hnone : ∀ txdsin ∈ l, txdsin.prevout ≠ prevout) :
    findInput prevout k l found = found := by
  induction l generalizing k with
  | nil => rfl
  | cons txdsin l ih =>
    rw [findInput, if_neg (hnone txdsin mem_cons_self)]
    exact ih fun txdsin' hmem => hnone txdsin' (mem_cons_of_mem _ hmem)

theorem findInput_eq (hunique : ∀ (j : ℕ) txdsin, l[j]? = some txdsin →
      txdsin.prevout = prevout → j = i)
    (hi : l[i]? = some txdsin) (hprevout : txdsin.prevout = prevout) :
    findInput prevout k l found = some (k + i, txdsin.prevPubKey) := by
  induction l generalizing i k found with
  | nil => simp at hi
  | cons head l ih =>
    rw [findInput]
    cases i with
    | zero =>
      obtain rfl : head = txdsin := by simpa using hi
      rw [if_pos hprevout]
      refine findInput_none fun txdsin' hmem heq => ?_
      obtain ⟨j, hj⟩ := mem_iff_getElem?.mp hmem
      exact nomatch hunique (j + 1) txdsin' (by simpa using hj) heq
    | succ i =>
      rw [ih (fun j d hj hd => by simpa using hunique (j + 1) d (by simpa using hj) hd)
        (by simpa using hi), Nat.add_assoc, Nat.add_comm 1]

theorem Signing.isInputScriptSigValid (h : Signing node s)
    (hi : (inputs s.vecEntries)[i]? = some txdsin) (hprevout : txdsin.prevout = txin.prevout) :
    s.isInputScriptSigValid node txin ↔
      Verified node s.finalMutableTransaction i txin.prevout txin.scriptSig := by
  have hfind : findInput txin.prevout 0 (inputs s.vecEntries) none =
      some (0 + i, txdsin.prevPubKey) :=
    findInput_eq (fun j d hj hd => h.prepared.index_unique hj hi (hd.trans hprevout.symm))
      hi hprevout
  have hscript := h.prepared.prevPubKey txdsin (mem_of_getElem? hi)
  have hsame : SameButScriptSigs
      { poolTransaction s.vecEntries with
        vin := (poolTransaction s.vecEntries).vin.modify i fun txin' =>
          { txin' with scriptSig := txin.scriptSig } }
      s.finalMutableTransaction := by
    refine ⟨h.same.nVersion.symm, ?_, h.same.vout.symm, h.same.nLockTime.symm⟩
    rw [h.same.vin]
    refine ext_getElem? fun n => ?_
    rw [getElem?_map, getElem?_map, getElem?_modify]
    split <;> cases (poolTransaction s.vecEntries).vin[n]? <;> rfl
  rw [CPrivateSendServer.isInputScriptSigValid, hfind]
  simp [hsame.verifyInput, Verified, ← hprevout, hscript]

end

/-- What becomes of an input when a signature is added somewhere. -/
structure Marked (txin : CTxIn) (before after : CTxDSIn) : Prop where
  unsigned : after.toCTxIn.unsigned = before.toCTxIn.unsigned
  prevPubKey : after.prevPubKey = before.prevPubKey
  fHasSig : after.fHasSig → before.fHasSig ∨ before.toCTxIn.unsigned = txin.unsigned

section
variable {node : Node} {s : CPrivateSendServer} {txin : CTxIn} {l l' : List CTxDSIn}
  {vecEntries vecEntries' : List CDarkSendEntry}

instance : Std.Refl (Marked txin) := ⟨fun _ => ⟨rfl, rfl, .inl⟩⟩

theorem unsigned_eq_iff {a b : CTxIn} :
    a.unsigned = b.unsigned ↔ a.prevout = b.prevout ∧ a.nSequence = b.nSequence :=
  Prod.mk.injEq .. ▸ Iff.rfl

theorem addScriptSigTo_marked (h : addScriptSigTo txin l = some l') :
    List.Forall₂ (Marked txin) l l' ∧ ∃ txdsin ∈ l, txdsin.toCTxIn.unsigned = txin.unsigned := by
  induction l generalizing l' with
  | nil => exact nomatch h
  | cons txdsin l ih =>
    rw [addScriptSigTo] at h
    split at h
    next hmatch =>
      have hunsigned := unsigned_eq_iff.mpr hmatch
      split at h
      · exact nomatch h
      · obtain rfl := some.inj h
        exact ⟨.cons ⟨rfl, rfl, fun _ => .inr hunsigned⟩ (forall₂_refl l),
          txdsin, mem_cons_self, hunsigned⟩
    next =>
      obtain ⟨rest, hrest, rfl⟩ := map_eq_some_iff.mp h
      obtain ⟨hmarked, txdsin', hmem, hunsigned⟩ := ih hrest
      exact ⟨.cons (Std.Refl.refl _) hmarked, txdsin', mem_cons_of_mem _ hmem, hunsigned⟩

theorem addScriptSigTo_isSome (hmatch : ∃ txdsin ∈ l, txdsin.toCTxIn.unsigned = txin.unsigned)
    (hnone : ∀ txdsin ∈ l, txdsin.prevout = txin.prevout → txdsin.fHasSig = false) :
    (addScriptSigTo txin l).isSome := by
  induction l with
  | nil => simp at hmatch
  | cons txdsin l ih =>
    rw [addScriptSigTo]
    split
    next hthis => simp [hnone txdsin mem_cons_self hthis.1]
    next hthis =>
      rw [isSome_map]
      refine ih ?_ fun txdsin' hmem => hnone txdsin' (mem_cons_of_mem _ hmem)
      obtain ⟨txdsin', hmem, hunsigned⟩ := hmatch
      rcases mem_cons.mp hmem with rfl | hmem
      · exact absurd (unsigned_eq_iff.mp hunsigned) hthis
      · exact ⟨txdsin', hmem, hunsigned⟩

theorem addScriptSigToEntries_marked
    (h : addScriptSigToEntries txin vecEntries = some vecEntries') :
    List.Forall₂ (Marked txin) (inputs vecEntries) (inputs vecEntries') ∧
      outputs vecEntries' = outputs vecEntries ∧ vecEntries'.length = vecEntries.length ∧
      ∃ txdsin ∈ inputs vecEntries, txdsin.toCTxIn.unsigned = txin.unsigned := by
  induction vecEntries generalizing vecEntries' with
  | nil => exact nomatch h
  | cons entry rest ih =>
    simp only [outputs, flatMap_cons] at ih ⊢
    rw [addScriptSigToEntries] at h
    split at h
    next entry' hentry =>
      obtain rfl := some.inj h
      obtain ⟨vecTxDSIn, hadd, rfl⟩ := map_eq_some_iff.mp hentry
      obtain ⟨hmarked, txdsin, hmem, hunsigned⟩ := addScriptSigTo_marked hadd
      exact ⟨rel_append hmarked (forall₂_refl _), rfl, rfl,
        txdsin, mem_append_left _ hmem, hunsigned⟩
    next =>
      obtain ⟨rest', hrest, rfl⟩ := map_eq_some_iff.mp h
      obtain ⟨hmarked, houtputs, hlength, txdsin, hmem, hunsigned⟩ := ih hrest
      refine ⟨rel_append (forall₂_refl _) hmarked, ?_, ?_, txdsin,
        mem_append_right _ hmem, hunsigned⟩
      · rw [flatMap_cons, houtputs]
      · rw [length_cons, length_cons, hlength]

theorem addScriptSigToEntries_isSome
    (hmatch : ∃ txdsin ∈ inputs vecEntries, txdsin.toCTxIn.unsigned = txin.unsigned)
    (hnone : ∀ txdsin ∈ inputs vecEntries, txdsin.prevout = txin.prevout → txdsin.fHasSig = false) :
    (addScriptSigToEntries txin vecEntries).isSome := by
  induction vecEntries with
  | nil => simp [inputs] at hmatch
  | cons entry rest ih =>
    simp only [inputs, flatMap_cons, mem_append] at ih hmatch hnone
    rw [addScriptSigToEntries]
    split
    · rfl
    next hentry =>
      rw [isSome_map]
      refine ih ?_ fun txdsin hmem => hnone txdsin (.inr hmem)
      obtain ⟨txdsin, hmem | hmem, hunsigned⟩ := hmatch
      · have := addScriptSigTo_isSome ⟨txdsin, hmem, hunsigned⟩ fun txdsin hmem =>
          hnone txdsin (.inl hmem)
        rw [CDarkSendEntry.addScriptSig, map_eq_none_iff] at hentry
        simp [hentry] at this
      · exact ⟨txdsin, hmem, hunsigned⟩

theorem setScriptSig_unsigned (vin : List CTxIn) :
    (setScriptSig txin vin).map unsigned = vin.map unsigned := by
  rw [setScriptSig, map_map]
  refine map_congr_left fun txin' _ => ?_
  simp only [Function.comp_apply]
  split <;> rfl

variable {vin : List CTxIn}

theorem setScriptSig_getElem? {i : ℕ} {txin' : CTxIn}
    (h : (setScriptSig txin vin)[i]? = some txin') :
    (txin' = txin ∧ (vin[i]?).map unsigned = some txin.unsigned) ∨
      (vin[i]? = some txin' ∧ txin'.unsigned ≠ txin.unsigned) := by
  rw [setScriptSig, getElem?_map] at h
  obtain ⟨old, hold, rfl⟩ := map_eq_some_iff.mp h
  split
  next hmatch =>
    have hunsigned : old.unsigned = txin.unsigned :=
      unsigned_eq_iff.mpr ⟨hmatch.1.symm, hmatch.2⟩
    refine .inl ⟨?_, by rw [hold, map_some, hunsigned]⟩
    rw [hmatch.2, ← hmatch.1]
  next hmatch =>
    exact .inr ⟨hold, fun heq => hmatch ⟨(unsigned_eq_iff.mp heq).1.symm,
      (unsigned_eq_iff.mp heq).2⟩⟩

theorem mem_setScriptSig {i : ℕ}
    (h : (vin[i]?).map unsigned = some txin.unsigned) : txin ∈ setScriptSig txin vin := by
  obtain ⟨txin', htxin', hunsigned⟩ := map_eq_some_iff.mp h
  obtain ⟨hprevout, hsequence⟩ := unsigned_eq_iff.mp hunsigned
  refine mem_map.mpr ⟨txin', mem_of_getElem? htxin', ?_⟩
  rw [if_pos ⟨hprevout.symm, hsequence⟩, hprevout, hsequence]

theorem setScriptSig_of_none (h : ∀ txin' ∈ vin, txin'.unsigned ≠ txin.unsigned) :
    setScriptSig txin vin = vin := by
  refine (map_congr_left fun txin' hmem => ?_).trans (map_id vin)
  exact if_neg fun hmatch => h txin' hmem (unsigned_eq_iff.mpr ⟨hmatch.1.symm, hmatch.2⟩)

end

/-! ## One signature -/

section
variable {node : Node} {s : CPrivateSendServer} {txin : CTxIn} {l l' : List CTxDSIn}
  {vecEntries vecEntries' : List CDarkSendEntry}

theorem marked_unsigned (h : List.Forall₂ (Marked txin) l l') :
    (l'.map CTxDSIn.toCTxIn).map unsigned = (l.map CTxDSIn.toCTxIn).map unsigned := by
  induction h with
  | nil => rfl
  | cons hmarked _ ih => simpa [hmarked.unsigned] using ih

theorem marked_getElem? (h : List.Forall₂ (Marked txin) l l') {i : ℕ} {txdsin' : CTxDSIn}
    (hi : l'[i]? = some txdsin') : ∃ txdsin, l[i]? = some txdsin ∧ Marked txin txdsin txdsin' := by
  induction h generalizing i with
  | nil => simp at hi
  | cons hmarked _ ih =>
    cases i with
    | zero => exact ⟨_, rfl, by simpa using (by simpa using hi : _ = txdsin') ▸ hmarked⟩
    | succ i => simpa using ih (by simpa using hi)

theorem pairwise_compareInput_iff (vin : List CTxIn) :
    (vin.Pairwise fun a b => compareInputBIP69 a b) ↔ (vin.map unsigned).Pairwise fun a b =>
        compareInputBIP69 ⟨a.1, [], a.2⟩ ⟨b.1, [], b.2⟩ := by
  rw [pairwise_map]
  rfl

theorem Prepared.marked (h : Prepared node vecEntries)
    (hmarked : List.Forall₂ (Marked txin) (inputs vecEntries) (inputs vecEntries'))
    (houtputs : outputs vecEntries' = outputs vecEntries) : Prepared node vecEntries' := by
  refine ⟨fun txdsin' hmem => ?_, ?_, houtputs ▸ h.outputsInOrder⟩
  · obtain ⟨i, hi⟩ := mem_iff_getElem?.mp hmem
    obtain ⟨txdsin, hi, hmarked⟩ := marked_getElem? hmarked hi
    rw [(unsigned_eq_iff.mp hmarked.unsigned).1, hmarked.prevPubKey]
    exact h.prevPubKey txdsin (mem_of_getElem? hi)
  · rw [pairwise_compareInput_iff, marked_unsigned hmarked, ← pairwise_compareInput_iff]
    exact h.inputsInOrder

variable (h : Signing node s)
include h

theorem Signing.store
    (hverified : ∀ nIn : ℕ, (s.finalMutableTransaction.vin[nIn]?).map CTxIn.unsigned =
    some txin.unsigned → Verified node s.finalMutableTransaction nIn txin.prevout txin.scriptSig)
    (hmarked : List.Forall₂ (Marked txin) (inputs s.vecEntries) (inputs vecEntries'))
    (houtputs : outputs vecEntries' = outputs s.vecEntries) :
    Signing node { s with
      finalMutableTransaction :=
        { s.finalMutableTransaction with
          vin := setScriptSig txin s.finalMutableTransaction.vin }
      vecEntries := vecEntries' } := by
  have hsame : SameButScriptSigs
      { s.finalMutableTransaction with vin := setScriptSig txin s.finalMutableTransaction.vin }
      s.finalMutableTransaction := ⟨rfl, setScriptSig_unsigned _, rfl, rfl⟩
  refine ⟨h.prepared.marked hmarked houtputs, ⟨h.same.nVersion, ?_, ?_, h.same.nLockTime⟩, ?_⟩
  · exact (hsame.vin.trans h.same.vin).trans (marked_unsigned hmarked).symm
  · exact h.same.vout.trans houtputs.symm
  · intro nIn txdsin' txin' htxdsin' hsig htxin'
    rw [SameButScriptSigs.verified hsame]
    rcases setScriptSig_getElem? htxin' with ⟨rfl, hthis⟩ | ⟨hold, hother⟩
    · exact hverified nIn hthis
    · -- The input is another one, so it was marked before.
      obtain ⟨txdsin, htxdsin, hmarked⟩ := marked_getElem? hmarked htxdsin'
      have hunsigned : txin'.unsigned = txdsin.toCTxIn.unsigned := by
        simpa [hold, htxdsin] using h.unsigned nIn
      rcases hmarked.fHasSig hsig with hsig | hthis
      · exact h.signed nIn txdsin txin' htxdsin hsig hold
      · exact absurd (hunsigned.trans hthis) hother

theorem Signing.verified_of_valid (hvalid : s.isInputScriptSigValid node txin) {nIn : ℕ}
    (hnIn : (s.finalMutableTransaction.vin[nIn]?).map CTxIn.unsigned = some txin.unsigned) :
    Verified node s.finalMutableTransaction nIn txin.prevout txin.scriptSig := by
  rw [h.unsigned nIn] at hnIn
  obtain ⟨txdsin, htxdsin, hunsigned⟩ := map_eq_some_iff.mp hnIn
  exact (h.isInputScriptSigValid htxdsin (unsigned_eq_iff.mp hunsigned).1).mp hvalid

theorem Signing.addScriptSig (txin : CTxIn) :
    Signing node (s.addScriptSig node txin).2 ∧ (s.addScriptSig node txin).2.nState = s.nState ∧
      (s.addScriptSig node txin).2.vecEntries.length = s.vecEntries.length := by
  unfold CPrivateSendServer.addScriptSig
  split
  · exact ⟨h, rfl, rfl⟩
  split
  · exact ⟨h, rfl, rfl⟩
  next hvalid =>
    have hverified : ∀ nIn : ℕ, (s.finalMutableTransaction.vin[nIn]?).map CTxIn.unsigned =
        some txin.unsigned → Verified node s.finalMutableTransaction nIn txin.prevout
          txin.scriptSig := fun nIn => h.verified_of_valid (by simpa using hvalid)
    dsimp only
    split
    next vecEntries' hadd =>
      obtain ⟨hmarked, houtputs, hlength, _⟩ := addScriptSigToEntries_marked hadd
      exact ⟨h.store hverified hmarked houtputs, rfl, hlength⟩
    next => exact ⟨h.store hverified (forall₂_refl _) rfl, rfl, rfl⟩

theorem Signing.fullyValid (hcomplete : s.isSignaturesComplete) :
    FullyValid node s.finalMutableTransaction := by
  intro nIn txin htxin
  have hunsigned := h.unsigned nIn
  rw [htxin] at hunsigned
  obtain ⟨txdsin, htxdsin, _⟩ := map_eq_some_iff.mp hunsigned.symm
  have hsig := all_eq_true.mp hcomplete txdsin (mem_of_getElem? htxdsin)
  exact h.signed nIn txdsin txin htxdsin hsig htxin

theorem Signing.stores_iff (hfresh : Fresh s txin) :
    (Accepts node s.finalMutableTransaction txin → (s.addScriptSig node txin).1 ∧
        txin ∈ (s.addScriptSig node txin).2.finalMutableTransaction.vin) ∧
    (¬Accepts node s.finalMutableTransaction txin → s.addScriptSig node txin = (false, s)) := by
  have hnew :
      (inputs s.vecEntries).any (fun txdsin => txdsin.scriptSig = txin.scriptSig) = false := by
    simpa using hfresh.scriptSig
  constructor
  · rintro ⟨nIn, hnIn, hverified⟩
    have hinput := h.unsigned nIn ▸ hnIn
    obtain ⟨txdsin, htxdsin, hunsigned⟩ := map_eq_some_iff.mp hinput
    have hvalid := (h.isInputScriptSigValid htxdsin (unsigned_eq_iff.mp hunsigned).1).mpr hverified
    obtain ⟨vecEntries', hadd⟩ := isSome_iff_exists.mp (addScriptSigToEntries_isSome
      ⟨txdsin, mem_of_getElem? htxdsin, hunsigned⟩ hfresh.fHasSig)
    have hstored : s.addScriptSig node txin = (true, { s with
        finalMutableTransaction :=
          { s.finalMutableTransaction with
            vin := setScriptSig txin s.finalMutableTransaction.vin }
        vecEntries := vecEntries' }) := by
      simp [CPrivateSendServer.addScriptSig, hnew, hvalid, hadd]
    rw [hstored]
    exact ⟨rfl, mem_setScriptSig hnIn⟩
  · intro hnot
    have hother : s.isInputScriptSigValid node txin →
        ∀ nIn : ℕ, (s.finalMutableTransaction.vin[nIn]?).map CTxIn.unsigned ≠
          some txin.unsigned :=
      fun hvalid nIn hnIn => hnot ⟨nIn, hnIn, h.verified_of_valid hvalid hnIn⟩
    cases hvalid : s.isInputScriptSigValid node txin with
    | false => simp [CPrivateSendServer.addScriptSig, hvalid]
    | true =>
      -- The coin is in the pool, but with another sequence number.
      have hadd : addScriptSigToEntries txin s.vecEntries = none := by
        rw [eq_none_iff_forall_not_mem]
        intro vecEntries' hadd
        obtain ⟨_, _, _, txdsin, hmem, hunsigned⟩ := addScriptSigToEntries_marked hadd
        obtain ⟨nIn, hnIn⟩ := mem_iff_getElem?.mp hmem
        exact hother hvalid nIn (by rw [h.unsigned, hnIn, map_some, hunsigned])
      have hset : setScriptSig txin s.finalMutableTransaction.vin =
          s.finalMutableTransaction.vin := by
        refine setScriptSig_of_none fun txin' hmem heq => ?_
        obtain ⟨nIn, hnIn⟩ := mem_iff_getElem?.mp hmem
        exact hother hvalid nIn (by rw [hnIn, map_some, heq])
      simp [CPrivateSendServer.addScriptSig, hadd, hset]

end

/-! ## Sessions -/

/-- What every session keeps in order. -/
structure Session.Inv (node : Node) (x : Session) : Prop where
  waiting : x.server.nState ≠ .signing → Prepared node x.server.vecEntries ∧
    ∀ txdsin ∈ inputs x.server.vecEntries, txdsin.fHasSig = false
  signing : x.server.nState = .signing → Signing node x.server ∧
    maxPoolTransactions ≤ x.server.vecEntries.length
  committed : ∀ tx ∈ x.committed, FullyValid node tx

open Session

/-- Entries come prepared, and signatures when the final transaction is there. -/
def Session.StepOk (node : Node) (x : Session) : Message → Prop
  | .dsVin entry => x.server.nState ≠ .signing →
      Prepared node (x.server.vecEntries ++ [entry]) ∧
        ∀ txdsin ∈ entry.vecTxDSIn, txdsin.fHasSig = false
  | .dsSignFinalTx _ => x.server.nState = .signing
  | _ => True

instance (node : Node) (x : Session) (m : Message) : Decidable (x.StepOk node m) := by
  cases m <;> unfold Session.StepOk <;> infer_instance

section
variable {node : Node} {x : Session}

theorem prepared_nil : Prepared node [] := ⟨by simp [inputs], by simp [inputs], by simp [outputs]⟩

section
variable (h : x.Inv node)
include h

theorem Session.Inv.setNull : { x with server := x.server.setNull }.Inv node :=
  ⟨fun _ => ⟨prepared_nil, by simp [CPrivateSendServer.setNull, inputs]⟩, (fun hs => nomatch hs),
    h.committed⟩

variable {server : CPrivateSendServer}

theorem Session.Inv.same (hentries : server.vecEntries = x.server.vecEntries)
    (hbefore : x.server.nState ≠ .signing) (hafter : server.nState ≠ .signing) :
    { x with server }.Inv node :=
  ⟨fun _ => hentries ▸ h.waiting hbefore, fun hs => absurd hs hafter, h.committed⟩

variable (s : CPrivateSendServer)

omit h in
theorem processDsAccept_cases (nDenom : Int32) (txCollateral : CTransaction) (nRand : ℕ) :
    s.processDsAccept node nDenom txCollateral nRand = s ∨
      (s.isSessionReady = false ∧ s.nState ≠ .signing ∧
        (s.processDsAccept node nDenom txCollateral nRand).nState = .queue ∧
        (s.processDsAccept node nDenom txCollateral nRand).vecEntries = s.vecEntries) := by
  unfold processDsAccept createNewSession addUserToExistingSession setState
  grind

omit h in
theorem checkForCompleteQueue_cases : s.checkForCompleteQueue = s ∨
    (s.nState ≠ .signing ∧ s.checkForCompleteQueue.nState ≠ .signing ∧
      s.checkForCompleteQueue.vecEntries = s.vecEntries) := by
  unfold checkForCompleteQueue setState
  grind

variable {entry : CDarkSendEntry}

omit h in
theorem addEntry_eq_ok {s s' : CPrivateSendServer} (h : s.addEntry node entry = .ok s') :
    s.vecEntries.length < maxPoolTransactions ∧
      s' = { s with vecEntries := s.vecEntries ++ [entry] } := by
  unfold addEntry at h
  grind

theorem Session.Inv.of_cases
    (hcases : server = x.server ∨ (x.server.nState ≠ .signing ∧ server.nState ≠ .signing ∧
      server.vecEntries = x.server.vecEntries)) : { x with server }.Inv node := by
  rcases hcases with rfl | ⟨hbefore, hafter, hentries⟩
  · exact h
  · exact h.same hentries hbefore hafter

theorem Session.Inv.checkPool : (x.checkPool node).Inv node := by
  unfold Session.checkPool
  split
  next hfull =>
    obtain ⟨hprepared, hunsigned⟩ := h.waiting (by simp [hfull.1])
    refine ⟨fun hs => ?_, fun _ => ⟨hprepared.createFinalTransaction hunsigned, ?_⟩, h.committed⟩
    · simp [createFinalTransaction, setState] at hs
    · simpa [createFinalTransaction, setState] using hfull.2
  split
  next hcomplete =>
    have hvalid := (h.signing hcomplete.1).1.fullyValid hcomplete.2
    refine ⟨h.setNull.waiting, h.setNull.signing, fun tx hmem => ?_⟩
    rcases mem_append.mp hmem with hmem | hmem
    · exact h.committed tx hmem
    · exact mem_singleton.mp hmem ▸ hvalid
  · exact h

theorem Session.Inv.processDsVin
    (hok : x.StepOk node (.dsVin entry)) : (x.processDsVin node entry).Inv node := by
  unfold Session.processDsVin
  split
  · exact h
  split
  next server hadd =>
    obtain ⟨hroom, rfl⟩ := addEntry_eq_ok hadd
    refine Session.Inv.checkPool ⟨fun hs => ?_, fun hs => ?_, h.committed⟩
    · obtain ⟨hprepared, hunsigned⟩ := hok hs
      refine ⟨hprepared, fun txdsin hmem => ?_⟩
      simp only [inputs, flatMap_append, flatMap_singleton, mem_append] at hmem
      exact hmem.elim ((h.waiting hs).2 txdsin) (hunsigned txdsin)
    · exact absurd (h.signing hs).2 (not_le.mpr hroom)
  · exact h.setNull

omit h in
theorem Signing.addScriptSigs {s : CPrivateSendServer} (h : Signing node s) (vecTxIn : List CTxIn) :
    Signing node (addScriptSigs node vecTxIn s).2 ∧
      (addScriptSigs node vecTxIn s).2.nState = s.nState ∧
      (addScriptSigs node vecTxIn s).2.vecEntries.length =
        s.vecEntries.length := by
  induction vecTxIn generalizing s with
  | nil => exact ⟨h, rfl, rfl⟩
  | cons txin rest ih =>
    obtain ⟨h', hstate, hlength⟩ := h.addScriptSig txin
    rw [CPrivateSendServer.addScriptSigs]
    split
    · obtain ⟨h'', hstate', hlength'⟩ := ih h'
      exact ⟨h'', hstate'.trans hstate, hlength'.trans hlength⟩
    · exact ⟨h', hstate, hlength⟩

theorem Session.Inv.processDsSignFinalTx {vecTxIn : List CTxIn}
    (hok : x.StepOk node (.dsSignFinalTx vecTxIn)) :
    (x.processDsSignFinalTx node vecTxIn).Inv node := by
  obtain ⟨hsigning, hfull⟩ := h.signing hok
  obtain ⟨hsigning', hstate, hlength⟩ := hsigning.addScriptSigs vecTxIn
  have hafter : { x with
      server := (addScriptSigs node vecTxIn x.server).2 }.Inv node :=
    ⟨fun hs => absurd (hstate.trans hok) hs, fun _ => ⟨hsigning', hlength ▸ hfull⟩, h.committed⟩
  unfold Session.processDsSignFinalTx
  dsimp only
  split
  · exact hafter.checkPool
  · exact hafter

end

theorem Session.Inv.step (m : Message) (h : x.Inv node) (hok : x.StepOk node m) :
    (x.step node m).Inv node := by
  cases m with
  | dsAccept nDenom txCollateral nRand =>
    refine h.of_cases ((processDsAccept_cases _ _ _ _).imp_right ?_)
    rintro ⟨-, hbefore, hqueue, hentries⟩
    exact ⟨hbefore, by simp [hqueue], hentries⟩
  | checkForCompleteQueue => exact h.of_cases (checkForCompleteQueue_cases _)
  | dsVin entry => exact h.processDsVin hok
  | dsSignFinalTx vecTxIn => exact h.processDsSignFinalTx hok
  | checkTimeout fTimeout =>
    change (x.checkTimeout fTimeout).Inv node
    unfold checkTimeout
    split
    · exact h.setNull
    · exact h

theorem Session.inv_start : ({} : Session).Inv node :=
  ⟨fun _ => ⟨prepared_nil, by simp [inputs]⟩, (fun hs => nomatch hs), by simp⟩

end

/-- With prepared entries and nobody signing too early, a committed transaction is valid, and a
new signature is stored exactly if `VerifyScript` accepts it for its input. -/
theorem session_signatures (node : Node) (messages : List Message)
    (hall : Along (step node) (Session.StepOk node) {} messages) :
    (∀ tx ∈ (messages.foldl (step node) {}).committed, FullyValid node tx) ∧
    ((messages.foldl (step node) {}).server.nState = .signing →
      ∀ (vecTxIn : List CTxIn) (s : CPrivateSendServer) (txin : CTxIn),
        s = vecTxIn.foldl (fun s txin => (s.addScriptSig node txin).2)
          (messages.foldl (step node) {}).server →
        (s.isSignaturesComplete → FullyValid node s.finalMutableTransaction) ∧
        (Fresh s txin → (Accepts node s.finalMutableTransaction txin →
            (s.addScriptSig node txin).1 ∧
              txin ∈ (s.addScriptSig node txin).2.finalMutableTransaction.vin) ∧
          (¬Accepts node s.finalMutableTransaction txin →
            s.addScriptSig node txin = (false, s)))) := by
  have hinv := hall.foldl (fun x m h hok => Session.Inv.step m h hok) inv_start
  refine ⟨hinv.committed, fun hsigning vecTxIn s txin hs => ?_⟩
  have hsigns : Signing node s := by
    subst hs
    induction vecTxIn using List.reverseRecOn with
    | nil => exact (hinv.signing hsigning).1
    | append_singleton vecTxIn txin ih =>
      rw [List.foldl_concat]
      exact (ih.addScriptSig txin).1
  exact ⟨hsigns.fullyValid, hsigns.stores_iff⟩

def userScript : CScript :=
  [OP_DUP, OP_HASH160, 20] ++ replicate 20 0 ++ [OP_EQUALVERIFY, OP_CHECKSIG]

def userOutput (nValue : CAmount) : CTxOut := ⟨nValue, userScript, [], -10⟩

variable (n : UInt32)

def userInput (scriptSig : CScript) : CTxIn := ⟨⟨1, n⟩, scriptSig, 0xffffffff⟩

def userCollateral : CTransaction := ⟨⟨1, [], [], 0⟩, 0⟩

def userScriptSig : CScript :=
  [9, 0x30, 6, 2, 1, 1, 2, 1, 1, 1] ++ [33, 2] ++ replicate 31 0 ++ [n.toUInt8]

def userHash (bytes : Bytes) : UInt256 :=
  .ofNat 256 (bytes.foldl (fun n byte => 257 * n + byte.toNat + 1) 0)

def mixingNode (valid : UInt256 → Bool) : Node where
  ops := ⟨userHash, fun _ => true, fun _ hash _ => valid hash⟩
  crypto := ⟨fun _ => replicate 20 0, id, id, fun _ => true⟩
  sortInputs := insertInputs
  sortOutputs := insertOutputs
  isAcceptableDenomAndCollateral _ _ := true
  isCollateralValid _ := true
  getDenominations _ := 1
  getUTXOCoin _ := some (userOutput 1000010)
  acceptToMemoryPool _ := true

def threeUsers (entry : UInt32 → CDarkSendEntry) (scriptSig : UInt32 → CScript) : List Message :=
  replicate 3 (.dsAccept 1 userCollateral 0) ++ [.checkForCompleteQueue] ++
    [0, 1, 2].map (.dsVin ∘ entry) ++
    [0, 1, 2].map fun n => .dsSignFinalTx [userInput n (scriptSig n)]

def preparedEntry (nValue : CAmount) (n : UInt32) : CDarkSendEntry :=
  ⟨[⟨userInput n [], userScript, false⟩], [userOutput nValue], userCollateral⟩

theorem session_signatures_three : ((threeUsers (preparedEntry 1000010) userScriptSig).foldl
        (step (mixingNode fun _ => true)) {}).committed.length = 1 ∧
      ∀ tx ∈ ((threeUsers (preparedEntry 1000010) userScriptSig).foldl
          (step (mixingNode fun _ => true)) {}).committed,
        FullyValid (mixingNode fun _ => true) tx :=
  ⟨by decide +kernel, (session_signatures _ _ (by decide +kernel)).1⟩

def readEntry : CDarkSendEntry :=
  .read [userInput n []] userCollateral [userOutput 1000010]

/-- The larger output comes first, so the final transaction has another order. -/
def unsortedServer (node : Node) : CPrivateSendServer :=
  createFinalTransaction node
    { vecEntries := [preparedEntry 10000100 0, preparedEntry 1000010 1] }

def finalHash (hash : UInt256) : Bool :=
  hash = signatureHash userHash userScript
    (unsortedServer (mixingNode fun _ => true)).finalMutableTransaction 0 SIGHASH_ALL

/-- Entries that were read carry no scripts, so numbers pass for signatures and an invalid
transaction is committed. -/
theorem session_unchecked : (∃ tx, ((threeUsers readEntry fun n => [OP_1 + n.toUInt8]).foldl
        (step (mixingNode fun _ => true)) {}).committed = [tx] ∧
      ¬FullyValid (mixingNode fun _ => true) tx) ∧
    Fresh (unsortedServer (mixingNode finalHash)) (userInput 0 (userScriptSig 0)) ∧
    Accepts (mixingNode finalHash) (unsortedServer (mixingNode finalHash)).finalMutableTransaction
      (userInput 0 (userScriptSig 0)) ∧
    (unsortedServer (mixingNode finalHash)).addScriptSig (mixingNode finalHash)
      (userInput 0 (userScriptSig 0)) = (false, unsortedServer (mixingNode finalHash)) := by
  refine ⟨⟨⟨1, [0, 1, 2].map fun n => userInput n [OP_1 + n.toUInt8],
    List.replicate 3 (userOutput 1000010), 0⟩, by decide +kernel, fun hvalid => ?_⟩,
    ⟨by decide +kernel, by decide +kernel⟩, ⟨0, by decide +kernel, userScript, rfl,
      by decide +kernel⟩,
    by decide +kernel⟩
  obtain ⟨scriptPubKey, hscript, hverify⟩ := hvalid 0 _ rfl
  obtain rfl := some.inj hscript
  revert hverify
  decide +kernel

/-- Who came when does not show in the final transaction. -/
theorem createFinalTransaction_order (node node' : Node) (s s' : CPrivateSendServer)
    (hentries : s.vecEntries.Perm s'.vecEntries)
    (hinputs : ∀ a ∈ (poolTransaction s.vecEntries).vin, ∀ b ∈ (poolTransaction s.vecEntries).vin,
      a.prevout = b.prevout → a = b)
    (houtputs : ∀ a ∈ outputs s.vecEntries, ∀ b ∈ outputs s.vecEntries, a.nValue = b.nValue →
      a.scriptPubKey = b.scriptPubKey → a = b) :
    (s.createFinalTransaction node).finalMutableTransaction =
      (s'.createFinalTransaction node').finalMutableTransaction := by
  have hvin : node.sortInputs.sort (poolTransaction s.vecEntries).vin =
      node'.sortInputs.sort (poolTransaction s'.vecEntries).vin := by
    refine Sorting.sort_congr _ _ compareInputBIP69_iff (fun a ha b hb hkey => ?_)
      ((hentries.flatMap_right _).map _)
    obtain ⟨hhash, hn⟩ := Prod.mk.inj hkey
    exact hinputs a ha b hb (congrArg₂ COutPoint.mk (BitVec.toNat_inj.mp hhash)
      (UInt32.toNat_inj.mp hn))
  have hvout : node.sortOutputs.sort (outputs s.vecEntries) =
      node'.sortOutputs.sort (outputs s'.vecEntries) := by
    refine Sorting.sort_congr _ _ compareOutputBIP69_iff (fun a ha b hb hkey => ?_)
      (hentries.flatMap_right _)
    obtain ⟨hvalue, hscript⟩ := Prod.mk.inj hkey
    refine houtputs a ha b hb (Int64.toInt_inj.mp hvalue) ?_
    exact map_injective_iff.mpr (fun _ _ => UInt8.toNat_inj.mp) (Prod.mk.inj hscript).2
  change CMutableTransaction.mk 1 _ _ 0 = CMutableTransaction.mk 1 _ _ 0
  rw [hvin]
  exact congrArg (CMutableTransaction.mk 1 _ · 0) hvout

theorem createFinalTransaction_order_two : (unsortedServer (mixingNode fun _ => true)).finalMutableTransaction =
    (createFinalTransaction (mixingNode fun _ => false) { vecEntries := [preparedEntry 1000010 1,
      preparedEntry 10000100 0] }).finalMutableTransaction :=
  createFinalTransaction_order _ _ { vecEntries := [preparedEntry 10000100 0,
    preparedEntry 1000010 1] } _ (.swap _ _ _) (by decide +kernel) (by decide +kernel)

end ImageCoin.PrivateSend
