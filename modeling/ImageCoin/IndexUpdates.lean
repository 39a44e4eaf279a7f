import ImageCoin.ActivationSteps

/-!
# New headers, new blocks and pruned files

When the block arrives that others wait for, `ReceivedBlockTransactions` links
them in turn.  Between two blocks of its queue the index is consistent but for
the blocks that are still queued.
-/

namespace ImageCoin

open List BlockTree Function

namespace BlockIndex

variable {ι : Type} [LinearOrder ι] {m : BlockHeaders ι} {s : BlockIndex m}
  {a b c p : ι} {pair : ι × ι}

def withHeader (s : BlockIndex m) (b : ι) : BlockIndex m :=
  { s with
    known := insert b s.known
    entry := update s.entry b { validity := blockValidTree } }

theorem withHeader_entry : (s.withHeader b).entry a =
    if a = b then { validity := blockValidTree } else s.entry a :=
  update_apply _ _ _ _

theorem withHeader_validity : ((s.withHeader b).entry a).validity =
    if a = b then blockValidTree else (s.entry a).validity := by
  rw [withHeader_entry]
  split_ifs <;> rfl

theorem withHeader_sameLinks (hs : s.EntriesOk) (hb : b ∉ s.known) :
    SameLinks s (s.withHeader b) := by
  constructor
  case candidates => rfl
  case unlinked => rfl
  all_goals
    intro a
    rw [withHeader_entry]
    split_ifs with heq
    · rw [heq, hs.fresh hb]
      try rfl
    · rfl

theorem EntriesOk.withHeader (hs : s.EntriesOk) (hb : b ∉ s.known) (hp : p ∈ s.known)
    (hparent : m.pprev b = some p) : (s.withHeader b).EntriesOk := by
  have hsame := withHeader_sameLinks hs hb
  have hempty := hs.fresh hb
  refine
    { genesis_known := Finset.mem_insert_of_mem hs.genesis_known
      pprev_known := fun {c q} hc hq => ?_
      root := fun {c} hc hroot => ?_
      fresh := fun {c} hc => ?_
      treeValid := fun {c} hc => ?_
      haveUndo := fun {c} hundo => ?_
      haveData := hsame.nTx_of_haveData hs
      unpruned := fun hpruned => hsame.haveData_of_nTx hs hpruned
      transactions := fun {c} => ?_
      chainValid := fun {c} hc => ?_
      scriptsValid := fun {c q} hc hq => ?_
      failed_linked := hsame.failed_linked hs
      failed_below := hsame.failed_below hs
      nSequenceId := hsame.nSequenceId_zero hs
      linked_iff := hsame.linked_iff hs }
  · rcases Finset.mem_insert.mp hc with rfl | hc
    · obtain rfl : p = q := Option.some.inj (hparent.symm.trans hq)
      exact Finset.mem_insert_of_mem hp
    · exact Finset.mem_insert_of_mem (hs.pprev_known hc hq)
  · rcases Finset.mem_insert.mp hc with rfl | hc
    · rw [hroot] at hparent
      cases hparent
    · exact hs.root hc hroot
  · have hcb : c ∉ insert b s.known := hc
    rw [Finset.mem_insert, not_or] at hcb
    rw [withHeader_entry, if_neg hcb.1]
    exact hs.fresh hcb.2
  · rw [withHeader_validity]
    split_ifs with heq
    · exact le_rfl
    · exact hs.treeValid ((Finset.mem_insert.mp hc).resolve_left heq)
  · rw [withHeader_entry] at hundo ⊢
    split_ifs at hundo ⊢
    exact hs.haveUndo hundo
  · rw [hsame.nTx, withHeader_validity]
    split_ifs with heq
    · rw [heq, hempty]
      decide
    · exact hs.transactions
  · rw [withHeader_validity] at hc ⊢
    split_ifs at hc ⊢
    · exact absurd hc (by decide)
    · exact hs.chainValid hc
  · rw [withHeader_validity] at hc
    split_ifs at hc
    · exact absurd hc (by decide)
    · have hqb : q ≠ b := by
        rintro rfl
        -- The new header has no children yet.
        have hknown : c ∈ s.known := by
          by_contra hnew
          rw [hs.fresh hnew] at hc
          exact absurd hc (by decide)
        exact hb (hs.pprev_known hknown hq)
      rw [withHeader_validity, if_neg hqb]
      exact hs.scriptsValid hc hq

theorem Consistent.withHeader (hs : s.Consistent s.tip) (hb : b ∉ s.known) (hp : p ∈ s.known)
    (hparent : m.pprev b = some p) : (s.withHeader b).Consistent (s.withHeader b).tip := by
  have hsame := withHeader_sameLinks hs.entries hb
  refine
    { entries := hs.entries.withHeader hb hp hparent
      chain :=
        { tip_known := Finset.mem_insert_of_mem hs.chain.tip_known
          tip_linked := ?_
          scripts := fun {a} ha hne => ?_
          not_failed := fun {a} ha => ?_ }
      candidates := hsame.candidatesOk hs.candidates fun a ha hna => absurd ha hna
      unlinked := hsame.unlinkedOk hs.unlinked hs.unlinked.not_active fun _ hna => hna }
  · rw [hsame.nChainTx]
    exact hs.chain.tip_linked
  · have hab : a ≠ b := by
      rintro rfl
      exact hb (hs.entries.known_of_below ha hs.chain.tip_known)
    rw [withHeader_validity, if_neg hab]
    exact hs.chain.scripts ha hne
  · rw [hsame.failed]
    exact hs.chain.not_failed ha

/-- The block, its validity and its failures are the same. -/
structure SameRecord (e e' : IndexEntry) : Prop where
  nTx : e'.nTx = e.nTx
  validity : e'.validity = e.validity
  failedValid : e'.failedValid = e.failedValid
  failed : e'.failed = e.failed

section
variable {fileNumber : ℕ}

theorem pruneOneBlockFile_entry : (s.pruneOneBlockFile fileNumber).entry a =
    if a ∈ s.known ∧ (s.entry a).nFile = fileNumber then
      { s.entry a with haveData := false, haveUndo := false, nFile := 0 }
    else s.entry a := rfl

theorem prune_same : SameRecord (s.entry a) ((s.pruneOneBlockFile fileNumber).entry a) := by
  rw [pruneOneBlockFile_entry]
  split_ifs <;> exact ⟨rfl, rfl, rfl, rfl⟩

theorem prune_nChainTx :
    ((s.pruneOneBlockFile fileNumber).entry a).nChainTx = (s.entry a).nChainTx := by
  rw [pruneOneBlockFile_entry]
  split_ifs <;> rfl

theorem prune_nSequenceId : ((s.pruneOneBlockFile fileNumber).entry a).nSequenceId =
    (s.entry a).nSequenceId := by
  rw [pruneOneBlockFile_entry]
  split_ifs <;> rfl

theorem prune_haveData :
    ((s.pruneOneBlockFile fileNumber).entry a).haveData ↔ (s.entry a).haveData ∧
      ¬(a ∈ s.known ∧ (s.entry a).nFile = fileNumber) := by
  rw [pruneOneBlockFile_entry]
  split_ifs with hfile <;> simp [hfile]

theorem mem_prune_unlinked : pair ∈ (s.pruneOneBlockFile fileNumber).unlinked ↔ pair ∈ s.unlinked ∧
    ¬(pair.2 ∈ s.known ∧ (s.entry pair.2).nFile = fileNumber) := by
  simp only [pruneOneBlockFile, mem_filter, decide_eq_true_eq]

theorem EntriesOk.prune (hs : s.EntriesOk) : (s.pruneOneBlockFile fileNumber).EntriesOk where
  genesis_known := hs.genesis_known
  pprev_known := hs.pprev_known
  root := hs.root
  fresh := by
    intro a ha
    rw [pruneOneBlockFile_entry, if_neg fun hfile => ha hfile.1]
    exact hs.fresh ha
  treeValid := by
    intro a ha
    rw [prune_same.validity]
    exact hs.treeValid ha
  haveUndo := by
    intro a
    rw [pruneOneBlockFile_entry]
    split_ifs
    · exact id
    · exact hs.haveUndo
  haveData := by
    intro a
    rw [prune_haveData, prune_same.nTx]
    exact fun hdata => hs.haveData hdata.1
  unpruned := fun hpruned => nomatch hpruned
  transactions := by
    intro a
    rw [prune_same.validity, prune_same.nTx]
    exact hs.transactions
  chainValid := by
    intro a
    rw [prune_same.validity]
    exact hs.chainValid
  scriptsValid := by
    intro a p
    rw [prune_same.validity, prune_same.validity]
    exact hs.scriptsValid
  failed_linked := by
    intro a
    rw [prune_same.failed, prune_nChainTx]
    exact hs.failed_linked
  failed_below := by
    intro a
    simp only [prune_same.failed, prune_same.failedValid]
    exact hs.failed_below
  nSequenceId := by
    intro a
    rw [prune_nChainTx, prune_nSequenceId]
    exact hs.nSequenceId
  linked_iff := by
    intro a
    simp only [prune_same.nTx, prune_nChainTx]
    exact hs.linked_iff

theorem Consistent.prune (hs : s.Consistent s.tip)
    (hfile : ∀ b, (s.entry b).nFile = fileNumber → (s.entry b).haveData →
      (s.entry b).nChainTx ≠ 0) :
    (s.pruneOneBlockFile fileNumber).Consistent (s.pruneOneBlockFile fileNumber).tip := by
  have hworse : ∀ a b, (s.pruneOneBlockFile fileNumber).worse a b = s.worse a b :=
    fun a b => worse_congr prune_nSequenceId prune_nSequenceId
  refine
    { entries := hs.entries.prune
      chain :=
        { tip_known := hs.chain.tip_known
          tip_linked := ?_
          scripts := fun ha => ?_
          not_failed := fun ha => ?_ }
      candidates :=
        { linked := fun ha => ?_
          not_worse := fun ha => ?_
          best_mem := hs.candidates.best_mem
          best_usable := fun a ha hna => absurd ha hna
          complete := fun {a} hlinked hvalid hgood hdata => ?_ }
      unlinked :=
        { pprev := fun hmem => hs.unlinked.pprev (mem_prune_unlinked.mp hmem).1
          haveData := fun hmem => ?_
          not_active := fun hmem => hs.unlinked.not_active (mem_prune_unlinked.mp hmem).1
          not_candidate := fun hmem =>
            hs.unlinked.not_candidate (mem_prune_unlinked.mp hmem).1
          parent := fun {p a} hmem => ?_
          waiting := fun {a} hnTx hchain => ?_ } }
  · rw [prune_nChainTx]
    exact hs.chain.tip_linked
  · rw [prune_same.validity]
    exact hs.chain.scripts ha
  · rw [prune_same.failed]
    exact hs.chain.not_failed ha
  · rw [prune_nChainTx]
    exact hs.candidates.linked ha
  · rw [hworse]
    exact hs.candidates.not_worse ha
  · rw [prune_nChainTx] at hlinked
    simp only [prune_same.failedValid] at hvalid
    obtain ⟨hdata, hkept⟩ := prune_haveData.mp hdata
    refine (hs.candidates.complete hlinked hvalid ((hworse _ _) ▸ hgood) hdata).imp_right ?_
    rintro ⟨p, hp, hmem⟩
    exact ⟨p, hp, mem_prune_unlinked.mpr ⟨hmem, hkept⟩⟩
  · obtain ⟨hmem, hkept⟩ := mem_prune_unlinked.mp hmem
    exact prune_haveData.mpr ⟨hs.unlinked.haveData hmem, hkept⟩
  · rw [prune_haveData]
    rcases hs.unlinked.parent (mem_prune_unlinked.mp hmem).1 with
      ⟨q, hq, hmem'⟩ | ⟨hdata, hactive⟩
    · by_cases hgone : p ∈ s.known ∧ (s.entry p).nFile = fileNumber
      · exact .inr ⟨fun h => h.2 hgone, hs.unlinked.not_active hmem'⟩
      · exact .inl ⟨q, hq, mem_prune_unlinked.mpr ⟨hmem', hgone⟩⟩
    · exact .inr ⟨fun h => hdata h.1, hactive⟩
  · rw [prune_same.nTx] at hnTx
    rw [prune_nChainTx] at hchain
    obtain ⟨p, hp, hmem⟩ := hs.unlinked.waiting hnTx hchain
    refine ⟨p, hp, mem_prune_unlinked.mpr ⟨hmem, fun hgone => ?_⟩⟩
    exact hfile a hgone.2 (hs.unlinked.haveData hmem) hchain

end

/-! ## New blocks -/

/-- The index while the queue of `ReceivedBlockTransactions` is worked off. -/
structure Pending (s : BlockIndex m) (queue : List ι) : Prop where
  base : s.EntriesBase
  chain : s.ActiveOk
  nSequenceId : ∀ {b}, b ∉ queue → (s.entry b).nChainTx = 0 → (s.entry b).nSequenceId = 0
  linked_parent : ∀ {b}, b ∉ queue → (s.entry b).nChainTx ≠ 0 → (s.entry b).nTx ≠ 0 ∧
    ∀ p, m.pprev b = some p → (s.entry p).nChainTx ≠ 0 ∨ p ∈ queue
  linked : ∀ {b}, (s.entry b).nTx ≠ 0 → (∀ p, m.pprev b = some p → (s.entry p).nChainTx ≠ 0) →
    (s.entry b).nChainTx ≠ 0 ∨ b ∈ queue
  queue_data : ∀ {b}, b ∈ queue → (s.entry b).haveData
  queue_parent : ∀ {b p}, b ∈ queue → m.pprev b = some p → (s.entry p).nChainTx ≠ 0
  queue_candidate : ∀ {b}, b ∈ queue → b ∉ s.candidates
  queue_unlinked : ∀ {b}, b ∈ queue → ¬s.foundInUnlinked b
  queue_nodup : queue.Nodup
  unlinked_nodup : s.unlinked.Nodup
  candidate_linked : ∀ {b}, b ∈ s.candidates → (s.entry b).nChainTx ≠ 0
  candidate_good : ∀ {b}, b ∈ s.candidates → ¬s.worse b s.tip
  tip_candidate : s.tip ∈ s.candidates
  complete : ∀ {b}, b ∉ queue → (s.entry b).nChainTx ≠ 0 →
    (∀ a, m.tree.Below a b → ¬(s.entry a).failedValid) → ¬s.worse b s.tip →
    (s.entry b).haveData → b ∈ s.candidates ∨ s.foundInUnlinked b
  unlinked_pprev : ∀ {p b}, (p, b) ∈ s.unlinked → m.pprev b = some p
  unlinked_data : ∀ {p b}, (p, b) ∈ s.unlinked → (s.entry b).haveData
  unlinked_active : ∀ {p b}, (p, b) ∈ s.unlinked → ¬s.active b
  unlinked_candidate : ∀ {p b}, (p, b) ∈ s.unlinked → b ∉ s.candidates
  unlinked_parent : ∀ {p b}, (p, b) ∈ s.unlinked → s.foundInUnlinked p ∨ p ∈ queue ∨
    (¬(s.entry p).haveData ∧ ¬s.active p)
  waiting : ∀ {b}, (s.entry b).nTx ≠ 0 → (s.entry b).nChainTx = 0 → s.foundInUnlinked b ∨ b ∈ queue

theorem Pending.consistent (hs : s.Pending []) : s.Consistent s.tip where
  entries :=
    { hs.base with
      nSequenceId := hs.nSequenceId not_mem_nil
      linked_iff := by
        intro b
        refine ⟨fun hb => ?_, fun hb => ?_⟩
        · obtain ⟨hnTx, hparent⟩ := hs.linked_parent not_mem_nil hb
          exact ⟨hnTx, fun p hp => (hparent p hp).resolve_right not_mem_nil⟩
        · exact (hs.linked hb.1 hb.2).resolve_right not_mem_nil }
  chain := hs.chain
  candidates :=
    { linked := hs.candidate_linked
      not_worse := hs.candidate_good
      best_mem := hs.tip_candidate
      best_usable := fun a ha hna => absurd ha hna
      complete := hs.complete not_mem_nil }
  unlinked :=
    { pprev := hs.unlinked_pprev
      haveData := hs.unlinked_data
      not_active := hs.unlinked_active
      not_candidate := hs.unlinked_candidate
      parent := fun hmem => (hs.unlinked_parent hmem).imp_right fun h => h.resolve_left not_mem_nil
      waiting := fun hnTx hchain =>
        (hs.waiting hnTx hchain).resolve_right not_mem_nil }

section

theorem link_entry : (s.link b).entry a = if a = b then { s.entry b with
    nChainTx := s.chainTxBefore b + (s.entry b).nTx
    nSequenceId := s.nBlockSequenceId } else s.entry a :=
  update_apply _ _ _ _

theorem link_entry_of_ne (hne : a ≠ b) : (s.link b).entry a = s.entry a := by
  rw [link_entry, if_neg hne]

theorem link_same : SameRecord (s.entry a) ((s.link b).entry a) := by
  rw [link_entry]
  split_ifs with heq
  · subst heq
    exact ⟨rfl, rfl, rfl, rfl⟩
  · exact ⟨rfl, rfl, rfl, rfl⟩

theorem link_haveData : ((s.link b).entry a).haveData = (s.entry a).haveData := by
  rw [link_entry]
  split_ifs with heq
  · rw [heq]
  · rfl

theorem link_haveUndo : ((s.link b).entry a).haveUndo = (s.entry a).haveUndo := by
  rw [link_entry]
  split_ifs with heq
  · rw [heq]
  · rfl

theorem link_nChainTx (hb : (s.entry b).nTx ≠ 0) :
    ((s.link b).entry a).nChainTx ≠ 0 ↔ a = b ∨ (s.entry a).nChainTx ≠ 0 := by
  rw [link_entry]
  split_ifs with heq
  · simp [heq]
    omega
  · simp [heq]

theorem mem_link_unlinked : pair ∈ (s.link b).unlinked ↔ pair ∈ s.unlinked ∧ pair.1 ≠ b := by
  simp [link]

theorem mem_link_candidates : a ∈ (s.link b).candidates ↔
    (a = b ∧ ¬(s.link b).worse b s.tip) ∨ a ∈ s.candidates := by
  have hcand : (s.link b).candidates = if (s.link b).worse b s.tip then s.candidates
      else insert b s.candidates := rfl
  rw [hcand]
  split_ifs with h <;> simp [h]

theorem mem_waiting : a ∈ s.waiting b ↔ (b, a) ∈ s.unlinked := by
  simp [waiting]

theorem EntriesBase.link (hs : s.EntriesBase) (hb : (s.entry b).nTx ≠ 0) :
    (s.link b).EntriesBase where
  genesis_known := hs.genesis_known
  pprev_known := hs.pprev_known
  root := hs.root
  fresh := by
    intro a ha
    rw [link_entry_of_ne]
    · exact hs.fresh ha
    · rintro rfl
      exact ha (hs.known_of_nTx hb)
  treeValid := by
    intro a ha
    rw [link_same.validity]
    exact hs.treeValid ha
  haveUndo := by
    intro a
    rw [link_haveUndo, link_haveData]
    exact hs.haveUndo
  haveData := by
    intro a
    rw [link_haveData, link_same.nTx]
    exact hs.haveData
  unpruned := by
    intro hpruned a
    rw [link_haveData, link_same.nTx]
    exact hs.unpruned hpruned
  transactions := by
    intro a
    rw [link_same.validity, link_same.nTx]
    exact hs.transactions
  chainValid := by
    intro a
    rw [link_same.validity]
    exact hs.chainValid
  scriptsValid := by
    intro a p
    rw [link_same.validity, link_same.validity]
    exact hs.scriptsValid
  failed_linked := by
    intro a ha
    rw [link_same.failed] at ha
    exact (link_nChainTx hb).mpr (.inr (hs.failed_linked ha))
  failed_below := by
    intro a
    simp only [link_same.failed, link_same.failedValid]
    exact hs.failed_below

theorem ActiveOk.link (hs : s.ActiveOk) (hb : (s.entry b).nTx ≠ 0) : (s.link b).ActiveOk where
  tip_known := hs.tip_known
  tip_linked := (link_nChainTx hb).mpr (.inr hs.tip_linked)
  scripts := by
    intro a
    rw [link_same.validity]
    exact hs.scripts
  not_failed := by
    intro a
    rw [link_same.failed]
    exact hs.not_failed

/-- A block that waited still waits, or it waited for this one. -/
theorem foundInUnlinked_link (h : s.foundInUnlinked a) :
    (s.link b).foundInUnlinked a ∨ a ∈ s.waiting b := by
  obtain ⟨p, hp, hmem⟩ := h
  by_cases hpb : p = b
  · exact .inr (mem_waiting.mpr (hpb ▸ hmem))
  · exact .inl ⟨p, hp, mem_link_unlinked.mpr ⟨hmem, hpb⟩⟩

namespace Pending

variable {queue : List ι} (hs : s.Pending (b :: queue))

theorem mem_rest (ha : a ∈ b :: queue) : a = b ∨ a ∈ queue ++ s.waiting b :=
  (mem_cons.mp ha).imp_right (mem_append_left _)

include hs

theorem head_nTx : (s.entry b).nTx ≠ 0 := hs.base.haveData (hs.queue_data mem_cons_self)

theorem not_mem_rest : b ∉ queue ++ s.waiting b := by
  rw [mem_append, not_or]
  refine ⟨(nodup_cons.mp hs.queue_nodup).1, fun hb => ?_⟩
  exact not_below_parent (t := m.tree) (hs.unlinked_pprev (mem_waiting.mp hb)) (below_refl b)

theorem worse_link (hne : a ≠ b) : (s.link b).worse a s.tip = s.worse a s.tip := by
  have htip : s.tip ≠ b := fun heq => hs.queue_candidate mem_cons_self (heq ▸ hs.tip_candidate)
  exact worse_congr (by rw [link_entry_of_ne hne]) (by rw [link_entry_of_ne htip])

theorem link_linked_parent (ha : a ∉ queue ++ s.waiting b)
    (hchain : ((s.link b).entry a).nChainTx ≠ 0) : ((s.link b).entry a).nTx ≠ 0 ∧
      ∀ p, m.pprev a = some p → ((s.link b).entry p).nChainTx ≠ 0 ∨ p ∈ queue ++ s.waiting b := by
  rw [link_same.nTx]
  simp only [link_nChainTx hs.head_nTx] at hchain ⊢
  by_cases hab : a = b
  · subst hab
    exact ⟨hs.head_nTx, fun p hp => .inl (.inr (hs.queue_parent mem_cons_self hp))⟩
  · obtain ⟨hnTx, hparent⟩ := hs.linked_parent (fun hmem => ha ((mem_rest hmem).resolve_left hab))
      (hchain.resolve_left hab)
    refine ⟨hnTx, fun p hp => ?_⟩
    rcases hparent p hp with hlinked | hmem
    · exact .inl (.inr hlinked)
    · exact (mem_rest hmem).imp_left .inl

theorem link_linked (hnTx : (s.entry a).nTx ≠ 0)
    (hparent : ∀ p, m.pprev a = some p → p = b ∨ (s.entry p).nChainTx ≠ 0) :
    (a = b ∨ (s.entry a).nChainTx ≠ 0) ∨ a ∈ queue ++ s.waiting b := by
  by_cases hchain : (s.entry a).nChainTx = 0
  · rcases hs.waiting hnTx hchain with ⟨p, hp, hmem⟩ | hmem
    · by_cases hpb : p = b
      · exact .inr (mem_append_right _ (mem_waiting.mpr (hpb ▸ hmem)))
      · -- The parent was linked before, so the block was linked or queued.
        have hlinked := (hparent p hp).resolve_left hpb
        rcases hs.linked hnTx (fun q hq => by
          obtain rfl : p = q := Option.some.inj (hp.symm.trans hq)
          exact hlinked) with hlinked | hqueued
        · exact .inl (.inr hlinked)
        · exact absurd ⟨p, hp, hmem⟩ (hs.queue_unlinked hqueued)
    · exact (mem_rest hmem).imp_left .inl
  · exact .inl (.inr hchain)

theorem rest_nodup : (queue ++ s.waiting b).Nodup := by
  refine nodup_append.mpr ⟨(nodup_cons.mp hs.queue_nodup).2, ?_, ?_⟩
  · refine (hs.unlinked_nodup.filter _).map_on ?_
    rintro ⟨p, x⟩ hx ⟨q, y⟩ hy rfl
    simp only [mem_filter, decide_eq_true_eq] at hx hy
    rw [hx.2, hy.2]
  · rintro a ha _ hw rfl
    have hmem := mem_waiting.mp hw
    exact hs.queue_unlinked (mem_cons_of_mem _ ha) ⟨b, hs.unlinked_pprev hmem, hmem⟩

theorem link_complete (ha : a ∉ queue ++ s.waiting b)
    (hlinked : ((s.link b).entry a).nChainTx ≠ 0)
    (hvalid : ∀ c, m.tree.Below c a → ¬(s.entry c).failedValid)
    (hgood : ¬(s.link b).worse a s.tip) (hdata : (s.entry a).haveData) :
    a ∈ (s.link b).candidates ∨ (s.link b).foundInUnlinked a := by
  by_cases hab : a = b
  · subst hab
    exact .inl (mem_link_candidates.mpr (.inl ⟨rfl, hgood⟩))
  · rw [hs.worse_link hab] at hgood
    rcases hs.complete (fun hmem => ha ((mem_rest hmem).resolve_left hab))
      (((link_nChainTx hs.head_nTx).mp hlinked).resolve_left hab) hvalid hgood hdata with
      hmem | hmem
    · exact .inl (mem_link_candidates.mpr (.inr hmem))
    · exact .inr ((foundInUnlinked_link hmem).resolve_right fun hw => ha (mem_append_right _ hw))

theorem link : (s.link b).Pending (queue ++ s.waiting b) := by
  have hb := hs.head_nTx
  refine
    { base := hs.base.link hb
      chain := hs.chain.link hb
      nSequenceId := fun {a} ha hchain => ?_
      linked_parent := hs.link_linked_parent
      linked := fun {a} hnTx hparent => ?_
      queue_data := fun {a} ha => ?_
      queue_parent := fun {a p} ha hp => ?_
      queue_candidate := fun {a} ha hcand => ?_
      queue_unlinked := fun {a} ha hfound' => ?_
      queue_nodup := hs.rest_nodup
      unlinked_nodup := hs.unlinked_nodup.filter _
      candidate_linked := fun {a} ha => ?_
      candidate_good := fun {a} ha => ?_
      tip_candidate := mem_link_candidates.mpr (.inr hs.tip_candidate)
      complete := fun {a} ha hlinked hvalid hgood hadata => ?_
      unlinked_pprev := fun hmem => hs.unlinked_pprev (mem_link_unlinked.mp hmem).1
      unlinked_data := fun hmem => ?_
      unlinked_active := fun hmem => hs.unlinked_active (mem_link_unlinked.mp hmem).1
      unlinked_candidate := fun {p a} hmem hcand => ?_
      unlinked_parent := fun {p a} hmem => ?_
      waiting := fun {a} hnTx hchain => ?_ }
  · by_cases hab : a = b
    · exact absurd hchain ((link_nChainTx hb).mpr (.inl hab))
    · rw [link_entry_of_ne hab] at hchain ⊢
      exact hs.nSequenceId (fun hmem => ha ((mem_rest hmem).resolve_left hab)) hchain
  · rw [link_same.nTx] at hnTx
    simp only [link_nChainTx hb] at hparent ⊢
    exact hs.link_linked hnTx hparent
  · rw [link_haveData]
    rcases mem_append.mp ha with ha | ha
    · exact hs.queue_data (mem_cons_of_mem _ ha)
    · exact hs.unlinked_data (mem_waiting.mp ha)
  · rw [link_nChainTx hb]
    rcases mem_append.mp ha with ha | ha
    · exact .inr (hs.queue_parent (mem_cons_of_mem _ ha) hp)
    · exact .inl (Option.some.inj (hp.symm.trans (hs.unlinked_pprev (mem_waiting.mp ha))))
  · have hcand := (mem_link_candidates.mp hcand).resolve_left fun h => hs.not_mem_rest (h.1 ▸ ha)
    rcases mem_append.mp ha with ha | ha
    · exact hs.queue_candidate (mem_cons_of_mem _ ha) hcand
    · exact hs.unlinked_candidate (mem_waiting.mp ha) hcand
  · obtain ⟨p, hp, hmem⟩ := hfound'
    obtain ⟨hmem, hpb⟩ := mem_link_unlinked.mp hmem
    rcases mem_append.mp ha with ha | ha
    · exact hs.queue_unlinked (mem_cons_of_mem _ ha) ⟨p, hp, hmem⟩
    · exact hpb (Option.some.inj (hp.symm.trans (hs.unlinked_pprev (mem_waiting.mp ha))))
  · rw [link_nChainTx hb]
    exact (mem_link_candidates.mp ha).imp And.left hs.candidate_linked
  · rcases mem_link_candidates.mp ha with ⟨rfl, hgood⟩ | hcand
    · exact hgood
    · have hab : a ≠ b := by
        rintro rfl
        exact hs.queue_candidate mem_cons_self hcand
      change ¬(s.link b).worse a s.tip
      rw [hs.worse_link hab]
      exact hs.candidate_good hcand
  · rw [link_haveData] at hadata
    simp only [link_same.failedValid] at hvalid
    exact hs.link_complete ha hlinked hvalid hgood hadata
  · rw [link_haveData]
    exact hs.unlinked_data (mem_link_unlinked.mp hmem).1
  · have hmem' := (mem_link_unlinked.mp hmem).1
    rcases mem_link_candidates.mp hcand with ⟨rfl, -⟩ | hcand
    · exact hs.queue_unlinked mem_cons_self ⟨p, hs.unlinked_pprev hmem', hmem'⟩
    · exact hs.unlinked_candidate hmem' hcand
  · obtain ⟨hmem, hpb⟩ := mem_link_unlinked.mp hmem
    rw [link_haveData]
    rcases hs.unlinked_parent hmem with hp | hp | hp
    · exact (foundInUnlinked_link hp).imp_right fun hp => .inl (mem_append_right _ hp)
    · exact .inr (.inl ((mem_rest hp).resolve_left hpb))
    · exact .inr (.inr hp)
  · rw [link_same.nTx] at hnTx
    have hab : a ≠ b := by
      rintro rfl
      exact (link_nChainTx hb).mpr (.inl rfl) hchain
    rw [link_entry_of_ne hab] at hchain
    rcases hs.waiting hnTx hchain with hmem | hmem
    · exact (foundInUnlinked_link hmem).imp_right (mem_append_right _)
    · exact .inr ((mem_rest hmem).resolve_left hab)

end Pending
end

theorem linkQueue_spec {fuel : ℕ} : ∀ (queue : List ι) (s : BlockIndex m), s.Pending queue →
    queue.length + s.unlinked.length ≤ fuel → (linkQueue fuel queue s).Pending [] := by
  induction fuel with
  | zero =>
    intro queue s hs hfuel
    obtain rfl : queue = [] := length_eq_zero_iff.mp (by omega)
    exact hs
  | succ fuel ih =>
    intro queue s hs hfuel
    cases queue with
    | nil => exact hs
    | cons b queue =>
      refine ih _ _ hs.link ?_
      have hsplit : (s.waiting b).length + (s.link b).unlinked.length = s.unlinked.length := by
        simp only [waiting, link, length_map]
        have := length_eq_length_filter_add (l := s.unlinked) (fun pair => decide (pair.1 = b))
        simpa only [decide_not] using this.symm
      rw [length_cons] at hfuel
      rw [length_append]
      omega

omit [LinearOrder ι] in
theorem EntriesBase.waitFor (hs : s.EntriesBase) : (s.waitFor p b).EntriesBase :=
  { hs with }

omit [LinearOrder ι] in
theorem ActiveOk.waitFor (hs : s.ActiveOk) : (s.waitFor p b).ActiveOk :=
  { hs with }

section
variable {nTx nFile : ℕ}

theorem markReceived_entry (hfailed : ¬(s.entry b).failed) :
    (s.markReceived b nTx nFile).entry a = if a = b then { s.entry b with
      nTx := nTx
      nChainTx := 0
      nFile := nFile
      haveData := true
      validity := max (s.entry b).validity blockValidTransactions } else s.entry a := by
  change update _ _ _ a = _
  rw [update_apply]
  split_ifs
  · exact raiseValidity_of_not_failed (e := { s.entry b with
      nTx := nTx, nChainTx := 0, nFile := nFile, haveData := true }) hfailed _
  · rfl

variable (hs : s.Consistent s.tip) (hknown : b ∈ s.known)
  (hdata : ¬(s.entry b).haveData) (hfailed : ¬(s.entry b).failed) (hnTx : nTx ≠ 0)

section
include hfailed

theorem markReceived_of_ne (hne : a ≠ b) : (s.markReceived b nTx nFile).entry a = s.entry a := by
  rw [markReceived_entry hfailed, if_neg hne]

variable (nTx nFile) in
theorem markReceived_self : (s.markReceived b nTx nFile).entry b = { s.entry b with
    nTx := nTx
    nChainTx := 0
    nFile := nFile
    haveData := true
    validity := max (s.entry b).validity blockValidTransactions } := by
  rw [markReceived_entry hfailed, if_pos rfl]

theorem markReceived_failedValid :
    ((s.markReceived b nTx nFile).entry a).failedValid = (s.entry a).failedValid := by
  rw [markReceived_entry hfailed]
  split_ifs with heq
  · rw [heq]
  · rfl

theorem markReceived_failed (a : ι) :
    ((s.markReceived b nTx nFile).entry a).failed = (s.entry a).failed := by
  rw [markReceived_entry hfailed]
  split_ifs with heq
  · rw [heq]
    rfl
  · rfl

theorem markReceived_nSequenceId :
    ((s.markReceived b nTx nFile).entry a).nSequenceId = (s.entry a).nSequenceId := by
  rw [markReceived_entry hfailed]
  split_ifs with heq
  · rw [heq]
  · rfl

theorem markReceived_worse : (s.markReceived b nTx nFile).worse a c = s.worse a c :=
  worse_congr (markReceived_nSequenceId hfailed) (markReceived_nSequenceId hfailed)

theorem markReceived_validity {level : ℕ} (hlevel : blockValidTransactions < level) :
    level ≤ ((s.markReceived b nTx nFile).entry a).validity ↔ level ≤ (s.entry a).validity := by
  rw [markReceived_entry hfailed]
  split_ifs with heq
  · rw [heq]
    simp [not_le.mpr hlevel]
  · rfl

theorem EntriesBase.markReceived (hs : s.EntriesBase) (hknown : b ∈ s.known)
    (hnTx : nTx ≠ 0) : (s.markReceived b nTx nFile).EntriesBase := by
  have hself := markReceived_self nTx nFile hfailed
  have hne : ∀ {a}, a ≠ b → (s.markReceived b nTx nFile).entry a = s.entry a :=
    markReceived_of_ne hfailed
  refine
    { genesis_known := hs.genesis_known
      pprev_known := hs.pprev_known
      root := hs.root
      fresh := fun {a} ha => ?_
      treeValid := fun {a} ha => ?_
      haveUndo := fun {a} hundo => ?_
      haveData := fun {a} ha => ?_
      unpruned := fun hpruned {a} ha => ?_
      transactions := fun {a} => ?_
      chainValid := fun {a} ha => ?_
      scriptsValid := fun {a p} ha hp => ?_
      failed_linked := fun {a} ha => ?_
      failed_below := fun {a} ha => ?_ }
  · rw [hne]
    · exact hs.fresh ha
    · rintro rfl
      exact ha hknown
  · by_cases hab : a = b
    · rw [hab, hself]
      exact le_max_of_le_right (by decide)
    · rw [hne hab]
      exact hs.treeValid ha
  · by_cases hab : a = b
    · rw [hab, hself]
    · rw [hne hab] at hundo ⊢
      exact hs.haveUndo hundo
  · by_cases hab : a = b
    · rw [hab, hself]
      exact hnTx
    · rw [hne hab] at ha ⊢
      exact hs.haveData ha
  · by_cases hab : a = b
    · rw [hab, hself]
    · rw [hne hab] at ha ⊢
      exact hs.unpruned hpruned ha
  · by_cases hab : a = b
    · rw [hab, hself]
      exact iff_of_true (le_max_right _ _) hnTx
    · rw [hne hab]
      exact hs.transactions
  · rw [markReceived_validity hfailed (by decide)] at ha ⊢
    exact hs.chainValid ha
  · rw [markReceived_validity hfailed (by decide)] at ha ⊢
    exact hs.scriptsValid ha hp
  · rw [markReceived_failed hfailed] at ha
    rw [hne]
    · exact hs.failed_linked ha
    · rintro rfl
      exact hfailed ha
  · rw [markReceived_failed hfailed] at ha
    simp only [markReceived_failedValid hfailed]
    exact hs.failed_below ha

theorem ActiveOk.markReceived (hs : s.ActiveOk) (htip : s.tip ≠ b) :
    (s.markReceived b nTx nFile).ActiveOk where
  tip_known := hs.tip_known
  tip_linked := by
    change ((s.markReceived b nTx nFile).entry s.tip).nChainTx ≠ 0
    rw [markReceived_of_ne hfailed htip]
    exact hs.tip_linked
  scripts := by
    intro a
    rw [markReceived_validity hfailed (by decide)]
    exact hs.scripts
  not_failed := by
    intro a
    rw [markReceived_failed hfailed]
    exact hs.not_failed

end

include hs hknown hdata hfailed hnTx

theorem Consistent.pending (hcand : b ∉ s.candidates) (hnodup : s.unlinked.Nodup)
    (hparent : ∀ p, m.pprev b = some p → (s.entry p).nChainTx ≠ 0) :
    (s.markReceived b nTx nFile).Pending [b] := by
  have hself := markReceived_self nTx nFile hfailed
  have hne : ∀ {a}, a ≠ b → (s.markReceived b nTx nFile).entry a = s.entry a :=
    markReceived_of_ne hfailed
  have htip : s.tip ≠ b := fun heq => hcand (heq ▸ hs.candidates.best_mem)
  have hcand_ne : ∀ {a}, a ∈ s.candidates → a ≠ b := by
    rintro a ha rfl
    exact hcand ha
  have hqueue : ∀ {a}, a ∉ [b] → a ≠ b := fun ha heq => ha (mem_singleton.mpr heq)
  refine
    { base := hs.entries.toEntriesBase.markReceived hfailed hknown hnTx
      chain := hs.chain.markReceived hfailed htip
      nSequenceId := fun {a} ha hchain => ?_
      linked_parent := fun {a} ha hchain => ?_
      linked := fun {a} ha hlinked => ?_
      queue_data := fun {a} ha => ?_
      queue_parent := fun {a p} ha hp => ?_
      queue_candidate := fun {a} ha => mem_singleton.mp ha ▸ hcand
      queue_unlinked := fun {a} ha hfound => ?_
      queue_nodup := nodup_singleton b
      unlinked_nodup := hnodup
      candidate_linked := fun {a} ha => ?_
      candidate_good := fun {a} ha => ?_
      tip_candidate := hs.candidates.best_mem
      complete := fun {a} ha hlinked hvalid hgood hadata => ?_
      unlinked_pprev := hs.unlinked.pprev
      unlinked_data := fun {p a} hmem => ?_
      unlinked_active := hs.unlinked.not_active
      unlinked_candidate := hs.unlinked.not_candidate
      unlinked_parent := fun {p a} hmem => ?_
      waiting := fun {a} ha hchain => ?_ }
  · rw [hne (hqueue ha)] at hchain ⊢
    exact hs.entries.nSequenceId hchain
  · rw [hne (hqueue ha)] at hchain ⊢
    obtain ⟨ha, hlinked⟩ := hs.entries.linked_iff.mp hchain
    refine ⟨ha, fun p hp => ?_⟩
    by_cases hpb : p = b
    · exact .inr (mem_singleton.mpr hpb)
    · rw [hne hpb]
      exact .inl (hlinked p hp)
  · by_cases hab : a = b
    · exact .inr (mem_singleton.mpr hab)
    · rw [hne hab] at ha ⊢
      refine .inl (hs.entries.linked_iff.mpr ⟨ha, fun p hp => ?_⟩)
      have hp' := hlinked p hp
      by_cases hpb : p = b
      · rw [hpb, hself] at hp'
        exact absurd rfl hp'
      · rwa [hne hpb] at hp'
  · rw [mem_singleton.mp ha, hself]
  · rw [mem_singleton.mp ha] at hp
    rw [hne]
    · exact hparent p hp
    · rintro rfl
      exact not_below_parent (t := m.tree) hp (below_refl p)
  · obtain ⟨p, -, hmem⟩ := hfound
    exact hdata (mem_singleton.mp ha ▸ hs.unlinked.haveData hmem)
  · rw [hne (hcand_ne ha)]
    exact hs.candidates.linked ha
  · rw [markReceived_worse hfailed]
    exact hs.candidates.not_worse ha
  · rw [hne (hqueue ha)] at hlinked hadata
    simp only [markReceived_failedValid hfailed] at hvalid
    exact hs.candidates.complete hlinked hvalid (markReceived_worse hfailed ▸ hgood) hadata
  · have hadata := hs.unlinked.haveData hmem
    by_cases hab : a = b
    · rw [hab, hself]
    · rwa [hne hab]
  · by_cases hpb : p = b
    · exact .inr (.inl (mem_singleton.mpr hpb))
    · rw [hne hpb]
      exact (hs.unlinked.parent hmem).imp_right Or.inr
  · by_cases hab : a = b
    · exact .inr (mem_singleton.mpr hab)
    · rw [hne hab] at ha hchain
      exact .inl (hs.unlinked.waiting ha hchain)

theorem Consistent.wait (hp : m.pprev b = some p) (hparent : (s.entry p).nChainTx = 0) :
    ((s.markReceived b nTx nFile).waitFor p b).Consistent s.tip := by
  set t := s.markReceived b nTx nFile
  have hself := markReceived_self nTx nFile hfailed
  have hne : ∀ {a}, a ≠ b → t.entry a = s.entry a :=
    markReceived_of_ne hfailed
  have hb : (s.entry b).nChainTx = 0 := by
    by_contra hlinked
    exact (hs.entries.linked_iff.mp hlinked).2 p hp hparent
  have hchain : ∀ a, (t.entry a).nChainTx = (s.entry a).nChainTx := by
    intro a
    by_cases hab : a = b
    · rw [hab, hself, hb]
    · rw [hne hab]
  have hlinked_ne : ∀ {a}, (s.entry a).nChainTx ≠ 0 → a ≠ b := by
    rintro a ha rfl
    exact ha hb
  have hactive : ∀ {a}, (s.entry a).nChainTx = 0 → ¬s.active a := fun ha hactive =>
    hs.entries.linked_of_below hactive hs.chain.tip_linked ha
  have hworse : ∀ a c, t.worse a c = s.worse a c := fun a c => markReceived_worse hfailed
  have hbase : t.EntriesBase := hs.entries.toEntriesBase.markReceived hfailed hknown hnTx
  have hactiveOk : t.ActiveOk := hs.chain.markReceived hfailed (hlinked_ne hs.chain.tip_linked)
  have hmono : ∀ {a}, s.foundInUnlinked a → (t.waitFor p b).foundInUnlinked a :=
    fun ⟨q, hq, hmem⟩ => ⟨q, hq, mem_append_left _ hmem⟩
  have hnew : (t.waitFor p b).foundInUnlinked b :=
    ⟨p, hp, mem_append_right _ (mem_singleton.mpr rfl)⟩
  have hcases : ∀ {q a}, (q, a) ∈ s.unlinked ++ [(p, b)] →
      (q, a) ∈ s.unlinked ∨ (q = p ∧ a = b) := by
    intro q a hmem
    simpa using hmem
  refine
    { entries :=
        { hbase.waitFor with
          nSequenceId := fun {a} ha => ?_
          linked_iff := fun {a} => ?_ }
      chain := hactiveOk.waitFor
      candidates :=
        { linked := fun {a} ha => ?_
          not_worse := fun {a} ha => ?_
          best_mem := hs.candidates.best_mem
          best_usable := fun a ha hna => absurd ha hna
          complete := fun {a} ha hvalid hgood hadata => ?_ }
      unlinked :=
        { pprev := fun {q a} hmem => ?_
          haveData := fun {q a} hmem => ?_
          not_active := fun {q a} hmem => ?_
          not_candidate := fun {q a} hmem => ?_
          parent := fun {q a} hmem => ?_
          waiting := fun {a} ha hzero => ?_ } }
  · change (t.entry a).nChainTx = 0 at ha
    change (t.entry a).nSequenceId = 0
    rw [hchain] at ha
    rw [markReceived_nSequenceId hfailed]
    exact hs.entries.nSequenceId ha
  · change (t.entry a).nChainTx ≠ 0 ↔
      (t.entry a).nTx ≠ 0 ∧ ∀ p, m.pprev a = some p → (t.entry p).nChainTx ≠ 0
    simp only [hchain]
    by_cases hab : a = b
    · subst hab
      exact iff_of_false (not_not.mpr hb) fun h => h.2 p hp hparent
    · rw [hne hab]
      exact hs.entries.linked_iff
  · exact (hchain a).symm ▸ hs.candidates.linked ha
  · exact hworse a s.tip ▸ hs.candidates.not_worse ha
  · have hlinked : (s.entry a).nChainTx ≠ 0 := hchain a ▸ ha
    have hadata' : (t.entry a).haveData := hadata
    rw [hne (hlinked_ne hlinked)] at hadata'
    refine (hs.candidates.complete hlinked (fun c hca hc => ?_)
      (hworse a s.tip ▸ hgood) hadata').imp_right hmono
    exact hvalid c hca ((markReceived_failedValid hfailed).trans hc)
  · rcases hcases hmem with hmem | ⟨rfl, rfl⟩
    · exact hs.unlinked.pprev hmem
    · exact hp
  · change (t.entry a).haveData
    by_cases hab : a = b
    · rw [hab, hself]
    · rw [hne hab]
      exact hs.unlinked.haveData ((hcases hmem).resolve_right fun h => hab h.2)
  · rcases hcases hmem with hmem | ⟨rfl, rfl⟩
    · exact hs.unlinked.not_active hmem
    · exact hactive hb
  · rcases hcases hmem with hmem | ⟨rfl, rfl⟩
    · exact hs.unlinked.not_candidate hmem
    · exact fun hcand => hs.candidates.linked hcand hb
  · change _ ∨ (¬(t.entry q).haveData ∧ ¬s.active q)
    by_cases hqb : q = b
    · exact .inl (hqb ▸ hnew)
    · rw [hne hqb]
      rcases hcases hmem with hmem | ⟨rfl, -⟩
      · exact (hs.unlinked.parent hmem).imp_left hmono
      · by_cases hqdata : (s.entry q).haveData
        · exact .inl (hmono (hs.unlinked.waiting (hs.entries.haveData hqdata) hparent))
        · exact .inr ⟨hqdata, hactive hparent⟩
  · change (t.entry a).nTx ≠ 0 at ha
    change (t.entry a).nChainTx = 0 at hzero
    by_cases hab : a = b
    · exact hab ▸ hnew
    · rw [hne hab] at ha hzero
      exact hmono (hs.unlinked.waiting ha hzero)

theorem Consistent.received (hcand : b ∉ s.candidates) (hnodup : s.unlinked.Nodup) :
    (s.receivedBlockTransactions b nTx nFile).Consistent
      (s.receivedBlockTransactions b nTx nFile).tip := by
  have hlink : (∀ p, m.pprev b = some p → (s.entry p).nChainTx ≠ 0) →
      (linkQueue (s.unlinked.length + 1) [b] (s.markReceived b nTx nFile)).Consistent
        (linkQueue (s.unlinked.length + 1) [b] (s.markReceived b nTx nFile)).tip := by
    intro hparent
    refine (linkQueue_spec [b] _ (hs.pending hknown hdata hfailed hnTx hcand hnodup
      hparent) ?_).consistent
    change 1 + s.unlinked.length ≤ _
    omega
  unfold receivedBlockTransactions
  cases hp : m.pprev b with
  | none => exact hlink fun p hp' => nomatch hp.symm.trans hp'
  | some p =>
    have hpb : p ≠ b := by
      rintro rfl
      exact not_below_parent (t := m.tree) hp (below_refl p)
    simp only
    rw [markReceived_of_ne hfailed hpb]
    by_cases hparent : (s.entry p).nChainTx ≠ 0
    · rw [if_pos hparent]
      refine hlink fun q hq => ?_
      obtain rfl : p = q := Option.some.inj (hp.symm.trans hq)
      exact hparent
    · -- A failed block is linked, so the parent has not failed.
      have hvalid : (s.entry p).isValid blockValidTree := by
        have hpfailed : (s.entry p).failed = false := by
          by_contra h
          exact hparent (hs.entries.failed_linked (by simpa using h))
        have htree := hs.entries.treeValid (hs.entries.pprev_known hknown hp)
        simp [IndexEntry.isValid, hpfailed, htree]
      rw [if_neg hparent, if_pos hvalid]
      exact hs.wait hknown hdata hfailed hnTx hp (not_not.mp hparent)

end

theorem linkQueue_frame {fuel : ℕ} :
    ∀ (queue : List ι) (s : BlockIndex m), (linkQueue fuel queue s).tip = s.tip ∧
      (linkQueue fuel queue s).known = s.known ∧
      ∀ a, ((linkQueue fuel queue s).entry a).failed = (s.entry a).failed := by
  induction fuel with
  | zero =>
    intro queue s
    cases queue <;> exact ⟨rfl, rfl, fun _ => rfl⟩
  | succ fuel ih =>
    intro queue s
    cases queue with
    | nil => exact ⟨rfl, rfl, fun _ => rfl⟩
    | cons b queue =>
      obtain ⟨htip, hknown, hfailed⟩ := ih (queue ++ s.waiting b) (s.link b)
      exact ⟨htip, hknown, fun a => (hfailed a).trans link_same.failed⟩

theorem received_frame {nTx nFile : ℕ} (hfailed : ¬(s.entry b).failed) :
    (s.receivedBlockTransactions b nTx nFile).tip = s.tip ∧
      (s.receivedBlockTransactions b nTx nFile).known = s.known ∧
      ∀ a, ((s.receivedBlockTransactions b nTx nFile).entry a).failed = (s.entry a).failed := by
  set t := s.markReceived b nTx nFile
  have hmark : ∀ a, (t.entry a).failed = (s.entry a).failed := markReceived_failed hfailed
  have hlink : (linkQueue (s.unlinked.length + 1) [b] t).tip = s.tip ∧
      (linkQueue (s.unlinked.length + 1) [b] t).known = s.known ∧
      ∀ a, ((linkQueue (s.unlinked.length + 1) [b]
        t).entry a).failed = (s.entry a).failed := by
    obtain ⟨htip, hknown, hsame⟩ := linkQueue_frame [b] t
    exact ⟨htip, hknown, fun a => (hsame a).trans (hmark a)⟩
  unfold receivedBlockTransactions
  cases m.pprev b with
  | none => exact hlink
  | some p =>
    simp only
    split_ifs
    · exact hlink
    · exact ⟨rfl, rfl, hmark⟩
    · exact ⟨rfl, rfl, hmark⟩

end BlockIndex
end ImageCoin
