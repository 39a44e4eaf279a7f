import ImageCoin.ChainTip
import ImageCoin.DisconnectInverse

/-!
# Reorganisations do not see the storage

A run of connects and disconnects gives the same verdicts and the same coins
whether the coins stay in memory or pass through database and undo files, as
long as no coin that the run creates carries an image.  The disk does not keep
images: a coin that comes back from it no longer matches the output of its
block, and disconnecting the block is unclean.

The runs are described on a flat chain, which knows for every block of the
active chain the coins before it.  Every storage that gives back storable coins
follows the flat chain, step by step.
-/

namespace ImageCoin

open StateExcept CCoinsViewCache Function List Triple ChainTip
variable {u' : Utxo} {chain last : FlatChain} {u : Utxo} {blocks below : List FlatBlock}
  {nHeight : ℕ} {P : Coin → Prop} {top : FlatBlock} {steps : List ChainStep}

/-- What is storable is read back as it was written. -/
structure Lossless (storage : Storage) : Prop where
  coins : ∀ c, Storable c → storage.coins.read (storage.coins.write c) = some c
  undo : ∀ hash blockundo, StorableUndo blockundo →
    storage.undo.read hash (storage.undo.write hash blockundo) = some blockundo

theorem lossless_diskStorage (ops : PubKeyOps) (hash256 : Bytes → UInt256) :
    Lossless (diskStorage ops hash256) where
  coins := by
    intro c hc
    have hread := hc.reads_unserialize ops []
    rw [append_nil] at hread
    change readCoinRecord ops (c.serialize ops) = some c
    rw [readCoinRecord, hread]
  undo := fun hash _ hundo =>
    undoReadFromDisk_undoWriteToDisk ops hash256 hash hundo

theorem lossless_memoryStorage : Lossless memoryStorage where
  coins := fun _ _ => rfl
  undo := fun _ _ _ => rfl

/-- A block of the active chain with the coins before it. -/
structure FlatBlock where
  block : CBlock
  pindex : CBlockIndex
  before : Utxo

/-- The coins, the undo data ever recorded, with the parent of the block, and
the active chain, tip first. -/
structure FlatChain where
  coins : Utxo
  undo : UInt256 → Option (UInt256 × CBlockUndo)
  blocks : List FlatBlock

open FlatChain

def FlatChain.genesis : FlatChain := ⟨fun _ => none, fun _ => none, []⟩

def tipHash (hashGenesis : UInt256) : List FlatBlock → UInt256
  | [] => hashGenesis
  | top :: _ => top.pindex.hash

def FlatChain.connect (chain : FlatChain) (block : CBlock)
    (pindex : CBlockIndex) (blockundo : CBlockUndo) (u' : Utxo) : FlatChain where
  coins := u'
  undo := update chain.undo pindex.hash (some (pindex.hashPrev, blockundo))
  blocks := ⟨block, pindex, chain.coins⟩ :: chain.blocks

@[simp]
theorem FlatChain.connect_undo {block : CBlock} {pindex : CBlockIndex} {blockundo : CBlockUndo} :
    (chain.connect block pindex blockundo u').undo = update chain.undo pindex.hash
        (some (pindex.hashPrev, blockundo)) := rfl

/-- A block that extends the chain, spends coins that are there and creates
storable coins where there are none.  A block that was connected before leaves
the undo data that it left then. -/
structure Extends (hashGenesis : UInt256) (chain : FlatChain) (block : CBlock)
    (pindex : CBlockIndex) (txundos : List CTxUndo) (u' : Utxo) : Prop where
  parent : pindex.hashPrev = tipHash hashGenesis chain.blocks
  coinbaseFirst : CoinbaseFirst block
  applies : Applies Storable pindex.nHeight chain.coins block.vtx txundos u'
  transactions_le : block.vtx.length ≤ maxSize
  inputs_le : ∀ tx ∈ block.vtx, tx.vin.length ≤ maxInputsPerBlock
  sameUndo : chain.undo pindex.hash = none ∨
    chain.undo pindex.hash = some (pindex.hashPrev, ⟨txundos.tail⟩)

/-- Runs whose blocks create no coin with an image. -/
inductive ImageFreeRun (hashGenesis : UInt256) :
    FlatChain → List ChainStep → FlatChain → Prop where
  | nil (chain : FlatChain) : ImageFreeRun hashGenesis chain [] chain
  | connect {chain last : FlatChain} {block : CBlock} {pindex : CBlockIndex}
      {txundos : List CTxUndo} {u' : Utxo} {rest : List ChainStep}
      (hextends : Extends hashGenesis chain block pindex txundos u')
      (hrest : ImageFreeRun hashGenesis
        (chain.connect block pindex ⟨txundos.tail⟩ u') rest last) :
      ImageFreeRun hashGenesis chain (.connect block pindex :: rest) last
  | disconnect {chain last : FlatChain} {top : FlatBlock}
      {below : List FlatBlock} {rest : List ChainStep}
      (hblocks : chain.blocks = top :: below)
      (hrest : ImageFreeRun hashGenesis ⟨top.before, chain.undo, below⟩ rest last) :
      ImageFreeRun hashGenesis chain (.disconnect :: rest) last
  | flush {chain last : FlatChain} {rest : List ChainStep}
      (hrest : ImageFreeRun hashGenesis chain rest last) :
      ImageFreeRun hashGenesis chain (.flush :: rest) last

/-! ## What a run keeps -/

/-- Every block of the active chain was applied to the coins before it, and its
undo data is recorded. -/
inductive History (hashGenesis : UInt256)
    (undo : UInt256 → Option (UInt256 × CBlockUndo)) :
    Utxo → List FlatBlock → Prop where
  | nil (u : Utxo) : History hashGenesis undo u []
  | cons {u : Utxo} {top : FlatBlock} {below : List FlatBlock}
      {txundos : List CTxUndo}
      (hfirst : CoinbaseFirst top.block)
      (happlies : Applies Storable top.pindex.nHeight top.before top.block.vtx txundos u)
      (hparent : top.pindex.hashPrev = tipHash hashGenesis below)
      (hundo : undo top.pindex.hash = some (top.pindex.hashPrev, ⟨txundos.tail⟩))
      (hcoins : AllCoins Storable top.before)
      (hbelow : History hashGenesis undo top.before below) :
      History hashGenesis undo u (top :: below)

/-- The flat chain can be stored, and undone block by block. -/
structure FlatChain.Ok (hashGenesis : UInt256) (chain : FlatChain) : Prop where
  coins : AllCoins Storable chain.coins
  undo : ∀ hash record, chain.undo hash = some record → StorableUndo record.2
  history : History hashGenesis chain.undo chain.coins chain.blocks

section
variable {hashGenesis : UInt256} {chain : FlatChain}

theorem History.mono {undo undo' : UInt256 → Option (UInt256 × CBlockUndo)}
    (hle : ∀ hash record, undo hash = some record → undo' hash = some record)
    (hhistory : History hashGenesis undo u blocks) : History hashGenesis undo' u blocks := by
  induction hhistory with
  | nil u => exact .nil u
  | cons hfirst happlies hparent hundo hcoins hbelow ih =>
    exact .cons hfirst happlies hparent (hle _ _ hundo) hcoins ih

theorem FlatChain.Ok.genesis : genesis.Ok hashGenesis where
  coins := fun _ _ hc => by cases hc
  undo := fun _ _ hrecord => by cases hrecord
  history := History.nil _

variable {txundos : List CTxUndo}

theorem Applies.inputs_le {n : ℕ} {u' : Utxo} {txs : List CTransaction}
    (happlies : Applies P nHeight u txs txundos u') (hinputs : ∀ tx ∈ txs, tx.vin.length ≤ n) :
    ∀ txundo ∈ txundos, txundo.vprevout.length ≤ n := by
  induction happlies with
  | nil u => simp
  | @cons u v u' tx txundo rest txundos htx hrest ih =>
    obtain ⟨mid, hspent, -⟩ := htx
    have hfirst := hinputs tx mem_cons_self
    intro txundo' hmem
    rcases mem_cons.mp hmem with rfl | hmem
    · split_ifs at hspent
      · simp [hspent.1]
      · rw [hspent.length_eq]
        exact hfirst
    · exact ih (fun tx htx => hinputs tx (mem_cons_of_mem _ htx)) txundo' hmem

variable {pindex : CBlockIndex} {block : CBlock} (hok : chain.Ok hashGenesis)
include hok

theorem Extends.storableUndo (hextends : Extends hashGenesis chain block pindex txundos u') :
    StorableUndo ⟨txundos.tail⟩ where
  transactions_le := by
    have hlength := hextends.applies.length_eq
    have hle := hextends.transactions_le
    simp only [length_tail]
    omega
  inputs_le := fun txundo hmem =>
    hextends.applies.inputs_le hextends.inputs_le txundo (mem_of_mem_tail hmem)
  coins := fun txundo hmem =>
    (hextends.applies.coins_ok hok.coins).1 txundo (mem_of_mem_tail hmem)

theorem FlatChain.Ok.connect (hextends : Extends hashGenesis chain block pindex txundos u') :
    (chain.connect block pindex ⟨txundos.tail⟩ u').Ok hashGenesis where
  coins := (hextends.applies.coins_ok hok.coins).2
  undo := by
    intro hash record hrecord
    by_cases heq : hash = pindex.hash
    · subst heq
      rw [connect_undo, update_self, Option.some_inj] at hrecord
      rw [← hrecord]
      exact hextends.storableUndo hok
    · rw [connect_undo, update_of_ne heq] at hrecord
      exact hok.undo hash record hrecord
  history := by
    have hbelow : History hashGenesis
        (chain.connect block pindex ⟨txundos.tail⟩ u').undo chain.coins
        chain.blocks := by
      apply hok.history.mono
      intro hash record hrecord
      by_cases heq : hash = pindex.hash
      · subst heq
        rcases hextends.sameUndo with hnone | hsame
        · rw [hnone] at hrecord
          cases hrecord
        · rw [connect_undo, update_self, ← hrecord, hsame]
      · rw [connect_undo, update_of_ne heq]
        exact hrecord
    have hundo : (chain.connect block pindex ⟨txundos.tail⟩ u').undo
        pindex.hash = some (pindex.hashPrev, ⟨txundos.tail⟩) :=
      update_self ..
    exact .cons hextends.coinbaseFirst hextends.applies hextends.parent hundo hok.coins hbelow

theorem FlatChain.Ok.disconnect (hblocks : chain.blocks = top :: below) :
    FlatChain.Ok hashGenesis ⟨top.before, chain.undo, below⟩ := by
  have hhistory := hok.history
  rw [hblocks] at hhistory
  cases hhistory with
  | cons hfirst happlies hparent hundo hcoins hbelow =>
    exact ⟨hcoins, hok.undo, hbelow⟩

end

section
variable {β : Type} [CCoinsView β] {P : Coin → Prop} {S : ViewSpec β P} {u : Utxo} {b : UInt256}

theorem triple_flush_hashBlock {view : CCoinsViewCache (CCoinsViewCache β)} :
    Triple (· = view) flush
      (fun _ view' => view'.base.hashBlock = view.hashBlock) fun _ => True := by
  have hwrite : Triple (fun _ => True) (CCoinsView.batchWrite view.cacheCoins view.hashBlock :
        EStateM CoinsError (CCoinsViewCache β) Bool)
      (fun _ base => base.hashBlock = view.hashBlock) fun _ => True := by
    apply trivial.bind
    intro _
    have hset : Triple (fun _ => True) (setBestBlock view.hashBlock : CacheM β Unit)
        (fun _ base => base.hashBlock = view.hashBlock) fun _ => True :=
      modify fun _ _ => rfl
    exact hset.bind fun _ => .pure fun _ hbase => hbase
  apply get_bind
  rintro start rfl
  apply bind (triple_onBase hwrite True.intro)
  exact fun fOk start' hstart' => hstart'.2

theorem triple_assertFlush {h : UInt256} (hnull : h ≠ 0) :
    Triple (fun view : CCoinsViewCache (CCoinsViewCache β) =>
        view.hashBlock = h ∧ Cached (cacheSpec S) u b view)
      assertFlush
      (fun _ view => view.base.hashBlock = h ∧ Cached S u h view.base)
      fun _ => False := by
  apply of_state
  rintro view ⟨rfl, hview⟩
  have hflush := ((triple_flush hview).and triple_flush_hashBlock).conseq
    (fun _ hpre => hpre) (fun _ _ hpost => hpost) fun _ herr => herr.1
  apply hflush.bind
  intro fOk
  apply of_state
  rintro view' ⟨⟨rfl, -, -, hinv, hcoins, hbest⟩, hbase⟩
  apply Triple.pure
  rintro _ rfl
  exact ⟨hbase, hinv, hcoins, hbest hnull⟩

variable {txundos : List CTxUndo} {pindex : CBlockIndex} {block : CBlock}

theorem triple_connectView (happlies : Applies P pindex.nHeight u block.vtx txundos u') :
    Triple (Cached (cacheSpec S) u pindex.hashPrev) (connectView block pindex)
      (fun r view => r = ⟨txundos.tail⟩ ∧ view.base.hashBlock = pindex.hash ∧
        Cached S u' pindex.hash view.base)
      fun _ => False := by
  apply triple_getBestBlock.bind
  intro best
  apply of_pure
  rintro rfl
  rw [if_neg (by simp)]
  apply (triple_connectCoins happlies).bind
  intro blockundo
  apply of_pure
  rintro rfl
  apply (triple_assertFlush pindex.hash_ne_zero).bind
  exact fun _ => .pure fun _ hview => ⟨rfl, hview⟩

theorem triple_disconnectView (hfirst : CoinbaseFirst block)
    (happlies : Applies P pindex.nHeight u block.vtx txundos u')
    (hcoins : ∀ txundo ∈ txundos, ∀ c ∈ txundo.vprevout, P c ∧ Restorable c) :
    Triple (Cached (cacheSpec S) u' pindex.hash)
      (disconnectView block pindex (some ⟨txundos.tail⟩))
      (fun r view => r = .ok ∧ view.base.hashBlock = pindex.hashPrev ∧
        Cached S u pindex.hashPrev view.base)
      fun _ => False := by
  obtain ⟨coinbase, rest, hvtx, hcoinbase, hothers⟩ := hfirst
  apply (triple_disconnectBlock hvtx happlies hcoinbase hothers hcoins).bind
  intro res
  apply of_pure
  rintro rfl
  apply (triple_assertFlush pindex.hashPrev_ne_zero).bind
  exact fun _ => .pure fun _ hview => ⟨rfl, hview⟩

end

/-! ## Every lossless storage follows the flat chain -/

section
variable {storage : Storage} (hlossless : Lossless storage) (hashGenesis : UInt256)

def tipSpec : ViewSpec (CCoinsViewDB storage.coins) Storable :=
  dbSpec (fun hc => hc.unspent) hlossless.coins

/-- The chain on disk and in its cache shows the flat chain. -/
structure Tracks (chain : FlatChain) (tip : ChainTip storage) : Prop where
  cached : Cached (tipSpec hlossless) chain.coins (tipHash hashGenesis chain.blocks) tip.pcoinsTip
  hashBlock : tip.pcoinsTip.hashBlock = tipHash hashGenesis chain.blocks
  undo : ∀ hash, tip.undoFile.lookup hash =
    (chain.undo hash).map fun record => storage.undo.write record.1 record.2
  chainActive : tip.chainActive = chain.blocks.map fun top => (top.block, top.pindex)

variable {hlossless} {hashGenesis} {chain : FlatChain}

theorem tracks_genesis (hnull : hashGenesis ≠ 0) : Tracks hlossless hashGenesis genesis
      (genesis storage hashGenesis) where
  cached := by
    have hdb : (tipSpec hlossless).Inv {} := by
      intro o r hr
      exact absurd hr (by simp)
    have hcoins : (tipSpec hlossless).coins {} = fun _ => none := by
      funext o
      change dbCoins ({} : CCoinsViewDB storage.coins) o = none
      simp [dbCoins]
    obtain ⟨hinv, hshown, -⟩ := cached_new (tipSpec hlossless) hdb
    exact ⟨⟨hinv.base, hinv.coherent, hinv.ok⟩, hshown.trans hcoins, if_neg hnull⟩
  hashBlock := rfl
  undo := fun hash => AList.lookup_empty hash
  chainActive := rfl

theorem tipHash_ne_zero (hnull : hashGenesis ≠ 0) : tipHash hashGenesis blocks ≠ 0 := by
  cases blocks with
  | nil => exact hnull
  | cons top below => exact top.pindex.hash_ne_zero

variable {tip : ChainTip storage}

theorem triple_withView {α : Type} {S : ViewSpec (CCoinsViewDB storage.coins) P} {u' : Utxo}
    {b h : UInt256} {result : α} {x : CacheM (CCoinsViewCache (CCoinsViewDB storage.coins)) α}
    (htip : Cached S u b tip.pcoinsTip) (hx : Triple (Cached (cacheSpec S) u b) x
    (fun r view => r = result ∧ view.base.hashBlock = h ∧ Cached S u' h view.base) fun _ => False) :
    Triple (· = tip) (withView x) (fun r tip' => r = result ∧
        tip' = { tip with pcoinsTip := tip'.pcoinsTip } ∧
        tip'.pcoinsTip.hashBlock = h ∧ Cached S u' h tip'.pcoinsTip)
      fun _ => False := by
  rintro start rfl
  obtain ⟨hinv, rfl, rfl⟩ := htip
  have hview : Cached (cacheSpec S) _ _ { base := start.pcoinsTip } :=
    cached_new (cacheSpec S) hinv
  obtain ⟨r, view, hrun, hresult, hflushed⟩ := hx.exists_ok hview
  unfold withView
  rw [hrun]
  exact ⟨hresult, rfl, hflushed⟩

variable {txundos : List CTxUndo} {pindex : CBlockIndex} {block : CBlock}

theorem lookup_writeUndo (hundo : ∀ hash, tip.undoFile.lookup hash =
    (chain.undo hash).map fun record => storage.undo.write record.1 record.2)
    (hextends : Extends hashGenesis chain block pindex txundos u') (hash : UInt256) :
    (tip.writeUndo pindex ⟨txundos.tail⟩).undoFile.lookup hash =
      ((chain.connect block pindex ⟨txundos.tail⟩ u').undo hash).map
        fun record => storage.undo.write record.1 record.2 := by
  rw [connect_undo]
  unfold writeUndo
  rcases hextends.sameUndo with hnone | hsame
  · have hmissing : tip.undoFile.lookup pindex.hash = none := by
      rw [hundo, hnone]
      rfl
    rw [hmissing]
    by_cases heq : hash = pindex.hash
    · subst heq
      rw [update_self]
      exact AList.lookup_insert _
    · rw [update_of_ne heq, ← hundo]
      exact AList.lookup_insert_ne heq
  · have hpresent : tip.undoFile.lookup pindex.hash =
        some (storage.undo.write pindex.hashPrev ⟨txundos.tail⟩) := by
      rw [hundo, hsame]
      rfl
    rw [hpresent, ← hsame, update_eq_self]
    exact hundo hash

theorem triple_connectTip (hextends : Extends hashGenesis chain block pindex txundos u') :
    Triple (Tracks hlossless hashGenesis chain) (connectTip block pindex)
      (fun _ => Tracks hlossless hashGenesis (chain.connect block pindex ⟨txundos.tail⟩ u'))
      fun _ => False := by
  apply of_state
  intro tip htip
  have hcached := htip.cached
  rw [← hextends.parent] at hcached
  apply (triple_withView hcached (triple_connectView hextends.applies)).bind
  intro blockundo
  apply Triple.modify
  rintro tip' ⟨rfl, htip', hhash, hcoins⟩
  have hwritten : (tip'.writeUndo pindex ⟨txundos.tail⟩).pcoinsTip = tip'.pcoinsTip := by
    unfold writeUndo
    split <;> rfl
  have hundo : ∀ hash, tip'.undoFile.lookup hash = (chain.undo hash).map
      fun record => storage.undo.write record.1 record.2 := by
    rw [htip']
    exact htip.undo
  refine ⟨?_, ?_, lookup_writeUndo hundo hextends, ?_⟩
  · rw [hwritten]
    exact hcoins
  · rw [hwritten]
    exact hhash
  · have hactive : tip'.chainActive = tip.chainActive := by rw [htip']
    rw [hactive, htip.chainActive]
    rfl

theorem Storable.restorable {coin : Coin} (hcoin : Storable coin) : Restorable coin := by
  constructor
  · intro hzero
    have hpos := hcoin.height_pos
    rw [hzero] at hpos
    exact absurd hpos (by decide)
  · exact hcoin.spendable

theorem triple_disconnectTip (hok : chain.Ok hashGenesis) (hblocks : chain.blocks = top :: below) :
    Triple (Tracks hlossless hashGenesis chain) disconnectTip
      (fun r tip => r = .ok ∧ Tracks hlossless hashGenesis ⟨top.before, chain.undo, below⟩ tip)
      fun _ => False := by
  have hhistory := hok.history
  rw [hblocks] at hhistory
  cases hhistory with
  | @cons _ _ _ txundos hfirst happlies hparent hundo hcoins hbelow =>
    apply get_bind
    intro tip htip
    have hactive := htip.chainActive
    have hcached := htip.cached
    rw [hblocks] at hactive hcached
    have hread : tip.readUndo top.pindex = some ⟨txundos.tail⟩ := by
      rw [readUndo, htip.undo, hundo]
      exact hlossless.undo _ _ (hok.undo _ _ hundo)
    rw [hactive]
    simp only [map_cons, hread]
    have hrestorable : ∀ txundo ∈ txundos, ∀ c ∈ txundo.vprevout, Storable c ∧ Restorable c := by
      intro txundo htxundo c hc
      have hstorable := (happlies.coins_ok hcoins).1 txundo htxundo c hc
      exact ⟨hstorable, hstorable.restorable⟩
    apply (triple_withView hcached (triple_disconnectView hfirst happlies hrestorable)).bind
    intro res
    apply of_state
    rintro tip' ⟨rfl, htip', hhash, hshown⟩
    rw [hparent] at hhash hshown
    apply bind (.modify fun _ hstart => ?_) fun _ =>
      pure fun _ hpost => ⟨rfl, hpost⟩
    subst hstart
    refine ⟨hshown, hhash, ?_, rfl⟩
    rw [htip']
    exact htip.undo

theorem triple_flushStateToDisk (hnull : hashGenesis ≠ 0) :
    Triple (Tracks hlossless hashGenesis chain) flushStateToDisk
      (fun _ => Tracks hlossless hashGenesis chain) fun _ => False := by
  intro tip htip
  obtain ⟨fOk, pcoinsTip, hrun, -, hhash, hempty, hinv, hcoins, hbest⟩ :=
    (triple_flush htip.cached).exists_ok rfl
  have hne : tip.pcoinsTip.hashBlock ≠ 0 := by
    rw [htip.hashBlock]
    exact tipHash_ne_zero hnull
  obtain ⟨hcache, hshown, -⟩ := cached_of_empty (tipSpec hlossless) hempty hinv
  have htop : pcoinsTip.hashBlock = tipHash hashGenesis chain.blocks :=
    hhash.trans htip.hashBlock
  unfold flushStateToDisk
  rw [hrun]
  refine ⟨⟨hcache, hshown.trans hcoins, ?_⟩, htop, htip.undo, htip.chainActive⟩
  exact (if_neg (hhash ▸ hne)).trans htop

def cleanVerdicts (steps : List ChainStep) : List DisconnectResult :=
  steps.flatMap fun
    | .disconnect => [.ok]
    | _ => []

theorem triple_runSteps (hnull : hashGenesis ≠ 0)
    (hrun : ImageFreeRun hashGenesis chain steps last) :
    chain.Ok hashGenesis → Triple (Tracks hlossless hashGenesis chain) (runSteps steps)
        (fun r tip => r = cleanVerdicts steps ∧ Tracks hlossless hashGenesis last tip)
        fun _ => False := by
  -- Each step keeps the flat chain and the tip together; then the rest runs
  -- from the flat chain that the step leads to.
  have hstep : ∀ {chain chain' last : FlatChain} {step : ChainStep}
      {rest : List ChainStep},
      Triple (Tracks hlossless hashGenesis chain) (runStep step)
        (fun r tip => r = cleanVerdicts [step] ∧
          Tracks hlossless hashGenesis chain' tip) (fun _ => False) →
      Triple (Tracks hlossless hashGenesis chain') (runSteps rest)
        (fun r tip => r = cleanVerdicts rest ∧
          Tracks hlossless hashGenesis last tip) (fun _ => False) →
      Triple (Tracks hlossless hashGenesis chain) (runSteps (step :: rest))
        (fun r tip => r = cleanVerdicts (step :: rest) ∧
          Tracks hlossless hashGenesis last tip) fun _ => False := by
    intro chain chain' last step rest hfirst hrest
    apply hfirst.bind
    intro first
    apply of_pure
    rintro rfl
    apply hrest.bind
    intro later
    apply Triple.pure
    rintro tip ⟨rfl, htip⟩
    exact ⟨by simp [cleanVerdicts], htip⟩
  induction hrun with
  | nil chain => exact fun _ => .pure fun _ htip => ⟨rfl, htip⟩
  | connect hextends hrest ih =>
    intro hok
    apply hstep _ (ih (hok.connect hextends))
    exact (triple_connectTip hextends).bind fun _ =>
      pure fun _ htip => ⟨rfl, htip⟩
  | disconnect hblocks hrest ih =>
    intro hok
    apply hstep _ (ih (hok.disconnect hblocks))
    apply (triple_disconnectTip hok hblocks).bind
    intro res
    apply Triple.pure
    rintro tip ⟨rfl, htip⟩
    exact ⟨rfl, htip⟩
  | flush hrest ih =>
    intro hok
    apply hstep _ (ih hok)
    exact (triple_flushStateToDisk hnull).bind fun _ =>
      pure fun _ htip => ⟨rfl, htip⟩

theorem Tracks.coinAt_eq (htip : Tracks hlossless hashGenesis chain tip) :
    tip.coinAt = chain.coins := by
  funext o
  obtain ⟨coin, _, hrun, hcoin, -⟩ := (triple_getCoin o).exists_ok htip.cached
  rw [coinAt, hrun]
  exact hcoin

end

theorem ImageFreeRun.withoutFlushes {hashGenesis : UInt256}
    (hrun : ImageFreeRun hashGenesis chain steps last) :
    ImageFreeRun hashGenesis chain (withoutFlushes steps) last := by
  induction hrun with
  | nil chain => exact .nil chain
  | connect hextends hrest ih => exact .connect hextends ih
  | disconnect hblocks hrest ih => exact .disconnect hblocks ih
  | flush hrest ih => exact ih

theorem cleanVerdicts_withoutFlushes :
    cleanVerdicts (withoutFlushes steps) = cleanVerdicts steps := by
  induction steps with
  | nil => rfl
  | cons step rest ih =>
    cases step with
    | connect block pindex => exact ih
    | disconnect => exact congrArg (cons .ok) ih
    | flush => exact ih

/-- A run whose blocks create no coin with an image: flushes and undo files give
the verdicts and the coins of the run in memory, and every disconnect is
clean. -/
theorem runSteps_disk_eq_memory (ops : PubKeyOps) (hash256 : Bytes → UInt256)
    (hashGenesis : UInt256) (hnull : hashGenesis ≠ 0) (steps : List ChainStep) (last : FlatChain)
    (hrun : ImageFreeRun hashGenesis genesis steps last) :
    ∃ verdicts disk memory, runSteps steps
          (genesis (diskStorage ops hash256) hashGenesis) =
        .ok verdicts disk ∧
      runSteps (withoutFlushes steps) (genesis memoryStorage hashGenesis) =
        .ok verdicts memory ∧
      disk.coinAt = memory.coinAt ∧ ∀ verdict ∈ verdicts, verdict = .ok := by
  have hdiskStart : Tracks (lossless_diskStorage ops hash256) hashGenesis
      genesis (.genesis _ hashGenesis) := tracks_genesis hnull
  have hmemoryStart : Tracks lossless_memoryStorage hashGenesis
      genesis (.genesis _ hashGenesis) := tracks_genesis hnull
  obtain ⟨verdicts, disk, hdisk, rfl, hdiskTip⟩ :=
    (triple_runSteps hnull hrun FlatChain.Ok.genesis).exists_ok hdiskStart
  obtain ⟨verdicts, memory, hmemory, rfl, hmemoryTip⟩ :=
    (triple_runSteps hnull hrun.withoutFlushes FlatChain.Ok.genesis).exists_ok hmemoryStart
  rw [cleanVerdicts_withoutFlushes] at hmemory
  refine ⟨_, disk, memory, hdisk, hmemory, ?_, ?_⟩
  · rw [hdiskTip.coinAt_eq, hmemoryTip.coinAt_eq]
  · simp only [cleanVerdicts, mem_flatMap]
    rintro verdict ⟨step, -, hverdict⟩
    cases step <;> simp_all

section
variable {P : Coin → Prop} {u v v' : Utxo} {nHeight : ℕ}

theorem Spends.unique {vin : List CTxIn} {coins coins' : List Coin} (h : Spends u vin coins v)
    (h' : Spends u vin coins' v') : v = v' := by
  induction h generalizing coins' with
  | nil u =>
    cases h'
    rfl
  | cons hcoin hrest ih =>
    cases h' with
    | cons _ hrest' => exact ih hrest'

theorem Creates.unique {hash : UInt256} {fCoinbase : Bool} {i : ℕ} {outs : List CTxOut}
    (h : Creates P hash nHeight fCoinbase u i outs v)
    (h' : Creates P hash nHeight fCoinbase u i outs v') : v = v' := by
  induction h with
  | nil u i =>
    cases h'
    rfl
  | cons _ _ _ _ ih =>
    cases h' with
    | cons _ _ _ hrest' => exact ih hrest'

theorem Applies.unique {txs : List CTransaction} {txundos txundos' : List CTxUndo}
    (h : Applies P nHeight u txs txundos v) (h' : Applies P nHeight u txs txundos' v') : v = v' := by
  induction h generalizing txundos' with
  | nil u =>
    cases h'
    rfl
  | cons htx _ ih =>
    cases h' with
    | cons htx' hrest' =>
      obtain ⟨mid, hspent, hcreates⟩ := htx
      obtain ⟨mid', hspent', hcreates'⟩ := htx'
      have hmid : mid = mid' := by
        split_ifs at hspent hspent'
        · rw [hspent.2, hspent'.2]
        · exact hspent.unique hspent'
      subst hmid
      exact ih (hcreates.unique hcreates' ▸ hrest')

/-- The coins come from none by the blocks of the active chain. -/
def Leads (u : Utxo) : List FlatBlock → Prop
  | [] => u = fun _ => none
  | top :: below => Leads top.before below ∧
      ∃ txundos, Applies Storable top.pindex.nHeight top.before top.block.vtx txundos u

def FlatBlock.indexed (b : FlatBlock) : CBlock × CBlockIndex := (b.block, b.pindex)

theorem Leads.unique {blocks : List FlatBlock} : ∀ {u v blocks'}, Leads u blocks → Leads v blocks' →
    blocks.map FlatBlock.indexed = blocks'.map FlatBlock.indexed → u = v := by
  induction blocks with
  | nil =>
    intro u v blocks' h h' hsame
    obtain rfl := map_eq_nil_iff.mp hsame.symm
    exact Eq.trans h h'.symm
  | cons top below ih =>
    intro u v blocks' h h' hsame
    obtain ⟨top', below', rfl, htop, hbelow⟩ := map_eq_cons_iff.mp hsame.symm
    obtain ⟨h, _, happlies⟩ := h
    obtain ⟨h', _, happlies'⟩ := h'
    obtain ⟨hblock, hpindex⟩ := Prod.mk.inj htop
    rw [hblock, hpindex, ← ih h h' hbelow.symm] at happlies'
    exact happlies.unique happlies'

theorem ImageFreeRun.leads {hashGenesis : UInt256} {chain last : FlatChain} {steps : List ChainStep}
    (hrun : ImageFreeRun hashGenesis chain steps last) (h : Leads chain.coins chain.blocks) :
    Leads last.coins last.blocks := by
  induction hrun with
  | nil => exact h
  | connect hextends _ ih => exact ih ⟨h, _, hextends.applies⟩
  | disconnect hblocks _ ih =>
    rw [hblocks] at h
    exact ih h.1
  | flush _ ih => exact ih h

/-- Nodes with the same active chain have the same coins, whatever blocks they connected and
disconnected before and wherever they keep the coins. -/
theorem runSteps_coins_of_chain {storage storage' : Storage} (hlossless : Lossless storage)
    (hlossless' : Lossless storage') (hashGenesis : UInt256) (hnull : hashGenesis ≠ 0)
    (steps steps' : List ChainStep) (last last' : FlatChain)
    (hrun : ImageFreeRun hashGenesis genesis steps last)
    (hrun' : ImageFreeRun hashGenesis genesis steps' last')
    (hchain : last.blocks.map FlatBlock.indexed = last'.blocks.map FlatBlock.indexed) :
    ∃ verdicts verdicts' tip tip',
      runSteps steps (genesis storage hashGenesis) = .ok verdicts tip ∧
      runSteps steps' (genesis storage' hashGenesis) = .ok verdicts' tip' ∧
      tip.coinAt = tip'.coinAt := by
  have hstart : Tracks hlossless hashGenesis genesis (genesis _ hashGenesis) := tracks_genesis hnull
  have hstart' : Tracks hlossless' hashGenesis genesis (genesis _ hashGenesis) :=
    tracks_genesis hnull
  obtain ⟨verdicts, tip, hsteps, -, htip⟩ :=
    (triple_runSteps hnull hrun FlatChain.Ok.genesis).exists_ok hstart
  obtain ⟨verdicts', tip', hsteps', -, htip'⟩ :=
    (triple_runSteps hnull hrun' FlatChain.Ok.genesis).exists_ok hstart'
  refine ⟨verdicts, verdicts', tip, tip', hsteps, hsteps', ?_⟩
  rw [htip.coinAt_eq, htip'.coinAt_eq]
  exact (hrun.leads rfl).unique (hrun'.leads rfl) hchain

end

section

def noPubKeys : PubKeyOps where
  isFullyValid := fun _ => false
  decompress := fun _ => none
  decompress_compressed := by
    intro _ _ _ hvalid
    cases hvalid

def blockOf (vtx : List CTransaction) (hash : UInt256) : CBlock where
  nVersion := 1
  hashMerkleRoot := 0
  nTime := 0
  nBits := 0
  vtx := vtx
  hash := hash

def firstIndex : CBlockIndex := { sampleIndex with nHeight := 1, nHeight_lt := by decide }

def secondIndex : CBlockIndex where
  hash := 101
  hashPrev := sampleIndex.hash
  nHeight := 2
  hash_ne_zero := by decide
  hashPrev_ne_zero := sampleIndex.hash_ne_zero
  nHeight_lt := by decide

def firstBlock : CBlock := blockOf [sampleTx 1 ⟨0, 0xffffffff⟩ 25] 100

def secondBlock : CBlock :=
  blockOf [sampleTx 2 ⟨0, 0xffffffff⟩ 25, sampleTx 3 ⟨1, 0⟩ 20] 101

def reorgSteps : List ChainStep :=
  [.connect firstBlock firstIndex, .flush, .connect secondBlock secondIndex,
    .flush, .disconnect, .flush, .disconnect]

def plainCoin (nValue : CAmount) (nHeight : ℕ) (fCoinBase : Bool) : Coin :=
  Coin.ofOut ⟨nValue, [OP_1], [], -10⟩ nHeight fCoinBase

theorem storable_plainCoin {nValue : CAmount} {fCoinBase : Bool}
    (hvalue : moneyRange nValue) (hpos : 0 < nHeight)
    (hlt : nHeight < 2 ^ 30) : Storable (plainCoin nValue nHeight fCoinBase) := by
  have hheight : (plainCoin nValue nHeight fCoinBase).nHeight.toNat = nHeight :=
    Nat.mod_eq_of_lt (by omega)
  exact ⟨hvalue, rfl, rfl, rfl, by omega, by omega⟩

def firstCoins : Utxo :=
  Utxo.add (fun _ => none) ⟨1, 0⟩ (plainCoin 25 1 true)

theorem extends_firstBlock : Extends 99 genesis firstBlock firstIndex [⟨[]⟩] firstCoins where
  parent := rfl
  coinbaseFirst := ⟨_, _, rfl, rfl, by simp⟩
  applies :=
    Applies.cons ⟨_, (if_pos rfl).mpr ⟨rfl, rfl⟩, .cons rfl
        (fun _ => storable_plainCoin (by decide) (by decide) (by decide))
        (fun _ => rfl) (.nil _ _)⟩ (.nil _)
  transactions_le := by decide
  inputs_le := by decide
  sameUndo := Or.inl rfl

theorem extends_secondBlock : ∃ u', Extends 99
    (genesis.connect firstBlock firstIndex ⟨[]⟩ firstCoins)
    secondBlock secondIndex [⟨[]⟩, ⟨[plainCoin 25 1 true]⟩] u' := by
  obtain ⟨u', happlies⟩ : ∃ u', Applies Storable secondIndex.nHeight firstCoins
      secondBlock.vtx [⟨[]⟩, ⟨[plainCoin 25 1 true]⟩] u' :=
    ⟨_, .cons ⟨_, (if_pos rfl).mpr ⟨rfl, rfl⟩, .cons rfl
          (fun _ => storable_plainCoin (by decide) (by decide) (by decide))
          (fun _ => rfl) (.nil _ _)⟩
      (.cons ⟨_, (if_neg (by decide)).mpr (.cons rfl (.nil _)),
          Creates.cons rfl (fun _ => storable_plainCoin (by decide) (by decide) (by decide))
            (fun _ => rfl) (.nil _ _)⟩
        (.nil _))⟩
  exact ⟨u', rfl, ⟨_, _, rfl, rfl, by decide⟩, happlies, by decide, by decide,
    Or.inl rfl⟩

theorem runSteps_disk_eq_memory_reorg : ∃ verdicts disk memory, runSteps reorgSteps
          (genesis (diskStorage noPubKeys fun _ => 0) 99) =
        .ok verdicts disk ∧
      runSteps (withoutFlushes reorgSteps) (genesis memoryStorage 99) =
        .ok verdicts memory ∧
      disk.coinAt = memory.coinAt ∧ ∀ verdict ∈ verdicts, verdict = .ok := by
  obtain ⟨u', hsecond⟩ := extends_secondBlock
  have hrun : ImageFreeRun 99 genesis reorgSteps ⟨fun _ => none, _, []⟩ :=
    .connect extends_firstBlock (.flush (.connect hsecond
      (.flush (.disconnect rfl (.flush (.disconnect rfl (.nil _)))))))
  exact runSteps_disk_eq_memory noPubKeys (fun _ => 0) 99 (by decide) reorgSteps _ hrun

/-- The second block comes and goes on disk, and never comes in memory. -/
theorem runSteps_coins_of_chain_reorg : ∃ verdicts verdicts' tip tip',
    runSteps (reorgSteps.take 5) (genesis (diskStorage noPubKeys fun _ => 0) 99) =
        .ok verdicts tip ∧
      runSteps (reorgSteps.take 1) (genesis memoryStorage 99) = .ok verdicts' tip' ∧
      tip.coinAt = tip'.coinAt := by
  obtain ⟨u', hsecond⟩ := extends_secondBlock
  have hrun : ImageFreeRun 99 genesis (reorgSteps.take 5) _ :=
    .connect extends_firstBlock (.flush (.connect hsecond (.flush (.disconnect rfl (.nil _)))))
  have hrun' : ImageFreeRun 99 genesis (reorgSteps.take 1) _ :=
    .connect extends_firstBlock (.nil _)
  exact runSteps_coins_of_chain (lossless_diskStorage _ _) lossless_memoryStorage 99 (by decide)
    _ _ _ _ hrun hrun' rfl

def imageBlock : CBlock :=
  blockOf [{ sampleTx 1 ⟨0, 0xffffffff⟩ 25 with
    vout := [⟨25, [OP_1], [0x41], -10⟩] }] 100

def imageSteps : List ChainStep :=
  [.connect imageBlock firstIndex, .flush, .disconnect]

def verdictsOf {storage : Storage} (steps : List ChainStep)
    (tip : ChainTip storage) : Option (List DisconnectResult) :=
  match runSteps steps tip with
  | .ok verdicts _ => some verdicts
  | .error _ _ => none

/-- With an image the run on disk ends with an unclean disconnect, and the run
in memory with a clean one. -/
theorem imageBlock_disconnect_unclean : verdictsOf imageSteps
        (genesis (diskStorage noPubKeys fun _ => 0) 99) =
      some [.unclean] ∧
    verdictsOf (withoutFlushes imageSteps) (genesis memoryStorage 99) = some [.ok] := by
  decide +kernel

end
end ImageCoin
