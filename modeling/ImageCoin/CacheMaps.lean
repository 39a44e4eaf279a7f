import ImageCoin.MapEntries

/-!
# Caches of limited size

`CacheMap` of `cachemap.h` and `CacheMultiMap` of `cachemultimap.h`: a list with the newest
item first and an index into it.
-/

namespace ImageCoin

open List

def makeRoom {α : Type} (nMaxSize : ℕ) (items : List α) : List α :=
  if items.length = nMaxSize then items.dropLast else items

theorem mem_of_mem_makeRoom {α : Type} {nMaxSize : ℕ} {items : List α} {item : α}
    (hitem : item ∈ makeRoom nMaxSize items) : item ∈ items := by
  unfold makeRoom at hitem
  split_ifs at hitem
  · exact mem_of_mem_dropLast hitem
  · exact hitem

variable {K V : Type} [DecidableEq K]

structure CacheMap (K V : Type) where
  nMaxSize : ℕ
  listItems : List (K × V)

namespace CacheMap

variable (cache : CacheMap K V)

def hasKey (key : K) : Bool :=
  cache.listItems.any fun item => item.1 = key

def insert (key : K) (value : V) : CacheMap K V :=
  if cache.hasKey key then
    { cache with
      listItems := cache.listItems.map fun item =>
        if item.1 = key then (key, value) else item }
  else
    { cache with listItems := (key, value) :: makeRoom cache.nMaxSize cache.listItems }

end CacheMap

/-- The items of a cache without its index, for what only depends on the items. -/
structure CacheMultiMap (K V : Type) where
  nMaxSize : ℕ
  listItems : List (K × V)

namespace CacheMultiMap

-- `operator<` of the values orders the index of a key.
variable (lt : V → V → Bool)

def isAt (key : K) (value : V) (item : K × V) : Bool :=
  item.1 = key && !lt item.2 value && !lt value item.2

/-- `Insert`, which first makes room even if the value turns out to be there. -/
def insert (cache : CacheMultiMap K V) (key : K) (value : V) : Bool × CacheMultiMap K V :=
  let items := makeRoom cache.nMaxSize cache.listItems
  if items.any (isAt lt key value) then (false, { cache with listItems := items })
  else (true, { cache with listItems := (key, value) :: items })

def getAll (cache : CacheMultiMap K V) (key : K) : List V :=
  ((cache.listItems.filter fun item => item.1 = key).map (·.2)).insertionSort fun a b => !lt b a

def erase (cache : CacheMultiMap K V) (key : K) (value : V) : CacheMultiMap K V :=
  { cache with listItems := cache.listItems.filter fun item => !isAt lt key value item }

variable {lt} {cache : CacheMultiMap K V} {key : K} {value : V}

theorem mem_insert {item : K × V} (hitem : item ∈ (cache.insert lt key value).2.listItems) :
    item = (key, value) ∨ item ∈ cache.listItems := by
  unfold insert at hitem
  dsimp only at hitem
  split_ifs at hitem with hany
  · exact .inr (mem_of_mem_makeRoom hitem)
  · exact (mem_cons.mp hitem).imp_right mem_of_mem_makeRoom

theorem mem_getAll : value ∈ cache.getAll lt key ↔ (key, value) ∈ cache.listItems := by
  simp [getAll]

variable (lt) in
def insertAll (cache : CacheMultiMap K V) (key : K) (values : List V) : CacheMultiMap K V :=
  values.foldl (fun cache value => (cache.insert lt key value).2) cache

variable {values : List V}

theorem insertAll_concat : cache.insertAll lt key (values ++ [value]) =
    ((cache.insertAll lt key values).insert lt key value).2 := by
  simp [insertAll]

theorem insert_of_room (hroom : cache.listItems.length < cache.nMaxSize) :
    (cache.insert lt key value).2 = if cache.listItems.any (isAt lt key value) then cache
      else { cache with listItems := (key, value) :: cache.listItems } := by
  have hitems : makeRoom cache.nMaxSize cache.listItems = cache.listItems := if_neg hroom.ne
  rw [insert, hitems]
  split <;> rfl

variable (lt cache key) in
theorem insertAll_size (hroom : cache.listItems.length + values.length ≤ cache.nMaxSize) :
    (cache.insertAll lt key values).nMaxSize = cache.nMaxSize ∧
      (cache.insertAll lt key values).listItems.length ≤
        cache.listItems.length + values.length := by
  induction values using reverseRecOn with
  | nil => exact ⟨rfl, le_rfl⟩
  | append_singleton values value ih =>
    rw [length_append, length_singleton] at hroom ⊢
    obtain ⟨hsize, hlength⟩ := ih (by omega)
    rw [insertAll_concat, insert_of_room (by omega)]
    split
    · exact ⟨hsize, by omega⟩
    · exact ⟨hsize, by rw [length_cons]; omega⟩

variable (hempty : ∀ item ∈ cache.listItems, item.1 ≠ key)
include hempty

theorem mem_insertAll
    (h : (key, value) ∈ (cache.insertAll lt key values).listItems) : value ∈ values := by
  induction values using reverseRecOn with
  | nil => exact absurd rfl (hempty _ h)
  | append_singleton values last ih =>
    rw [insertAll_concat] at h
    rcases mem_insert h with heq | hold
    · simp [(Prod.mk.inj heq).2]
    · exact mem_append_left _ (ih hold)

theorem getAll_insertAll_iff
    (hroom : cache.listItems.length + values.length ≤ cache.nMaxSize) (hnodup : values.Nodup) :
    (∀ v ∈ values, v ∈ (cache.insertAll lt key values).getAll lt key) ↔
      values.Pairwise fun a b => isAt lt key b (key, a) = false := by
  simp only [mem_getAll]
  induction values using reverseRecOn with
  | nil => simp
  | append_singleton values value ih =>
    rw [length_append, length_singleton] at hroom
    rw [nodup_append] at hnodup
    have hnew : value ∉ values := fun hmem => hnodup.2.2 _ hmem _ mem_cons_self rfl
    obtain ⟨hsize, hlength⟩ := insertAll_size lt cache key
      (show cache.listItems.length + values.length ≤ cache.nMaxSize by omega)
    rw [insertAll_concat, insert_of_room (by omega), pairwise_append, ← ih (by omega) hnodup.1]
    split
    next hany =>
      -- `value` is not returned, as it counts as one that is there
      obtain ⟨⟨key', a⟩, hitem, hat⟩ := any_eq_true.mp hany
      obtain rfl : key' = key := by
        simp only [isAt, Bool.and_eq_true, decide_eq_true_eq] at hat
        exact hat.1.1
      refine iff_of_false (fun hall => ?_) fun hpairs => ?_
      · exact hnew (mem_insertAll hempty (hall value (by simp)))
      · have hnot := hpairs.2.2 a (mem_insertAll hempty hitem) value mem_cons_self
        rw [hat] at hnot
        exact nomatch hnot
    next hnone =>
      have hinserted : ∀ a, (key, a) ∈ (cache.insertAll lt key values).listItems →
          isAt lt key value (key, a) = false := fun a ha =>
        Bool.eq_false_iff.mpr fun hat => hnone (any_eq_true.mpr ⟨_, ha, hat⟩)
      constructor
      · intro hall
        have hold : ∀ v ∈ values, (key, v) ∈ (cache.insertAll lt key values).listItems := by
          intro v hv
          rcases mem_cons.mp (hall v (mem_append_left _ hv)) with heq | hold
          · exact absurd ((Prod.mk.inj heq).2 ▸ hv) hnew
          · exact hold
        refine ⟨hold, pairwise_singleton _ _, fun a ha b hb => ?_⟩
        rw [mem_singleton.mp hb]
        exact hinserted a (hold a ha)
      · rintro ⟨hold, -, -⟩ v hv
        rcases mem_append.mp hv with hv | hv
        · exact mem_cons_of_mem _ (hold v hv)
        · rw [mem_singleton.mp hv]
          exact mem_cons_self

end CacheMultiMap

open MapEntries

/-- A cache with its counter and its nested index.  An iterator is given by the item that it leads
to, and so the map of iterators of a key by the values that it has. -/
structure IndexedMultiMap (K V : Type) extends CacheMultiMap K V where
  nCurrentSize : ℕ
  mapIndex : Map K (List V)

namespace IndexedMultiMap

variable (lt : V → V → Bool) (cache : IndexedMultiMap K V) (key : K) (value : V)

def mapIt (mapIndex : Map K (List V)) (key : K) : List V := (mapIndex.lookup key).getD []

/-- `mapIt.count(value) > 0` -/
def hasValue (mapIndex : Map K (List V)) : Bool :=
  (mapIt mapIndex key).any fun v => !lt v value && !lt value v

/-- `mapIt.erase(value)`, and `mapIndex.erase(key)` if no value is left. -/
def unlink (mapIndex : Map K (List V)) : Map K (List V) :=
  let rest := (mapIt mapIndex key).filter fun v => lt v value || lt value v
  if rest.isEmpty then mapIndex.erase key else mapIndex.insert key rest

def pruneLast : IndexedMultiMap K V :=
  if cache.nCurrentSize < 1 then cache
  else
    { cache with
      mapIndex := cache.listItems.getLast?.elim cache.mapIndex fun item =>
        unlink lt item.1 item.2 cache.mapIndex
      listItems := cache.listItems.dropLast
      nCurrentSize := cache.nCurrentSize - 1 }

def insert : Bool × IndexedMultiMap K V :=
  let cache := if cache.nCurrentSize = cache.nMaxSize then cache.pruneLast lt else cache
  let mapIndex := insertNew cache.mapIndex key []
  if hasValue lt key value mapIndex then (false, { cache with mapIndex := mapIndex })
  else
    (true, { cache with
      listItems := (key, value) :: cache.listItems
      mapIndex := mapIndex.insert key (value :: mapIt mapIndex key)
      nCurrentSize := cache.nCurrentSize + 1 })

theorem insert_of_room (hroom : cache.nCurrentSize ≠ cache.nMaxSize ∨ cache.nCurrentSize = 0)
    (hpresent : hasValue lt key value cache.mapIndex) :
    cache.insert lt key value = (false, cache) := by
  have hcache : (if cache.nCurrentSize = cache.nMaxSize then cache.pruneLast lt else cache) =
      cache := by
    split_ifs with hfull
    · exact if_pos (by omega)
    · rfl
  have hkey : insertNew cache.mapIndex key [] = cache.mapIndex := by
    refine if_pos ?_
    cases hlook : cache.mapIndex.lookup key with
    | none => simp [hasValue, mapIt, hlook] at hpresent
    | some values => rfl
  rw [insert, hcache, hkey]
  exact if_pos hpresent

/-- In every state: a value that is there is refused, without a change to the items, their order,
the index or the counter, unless the cache is full. -/
theorem insert_present_iff :
    (hasValue lt key value cache.mapIndex → cache.insert lt key value = (false, cache)) ↔
      (hasValue lt key value cache.mapIndex →
        cache.nCurrentSize ≠ cache.nMaxSize ∨ cache.nCurrentSize = 0) := by
  refine forall_congr' fun hpresent =>
    ⟨fun hinsert => ?_, fun hroom => insert_of_room lt cache key value hroom hpresent⟩
  -- An item is pruned from a full cache; then there is one less, or the value is added again.
  by_contra hfull
  rw [not_or, not_not] at hfull
  have hpos : ¬cache.nCurrentSize < 1 := by omega
  rw [insert, if_pos hfull.1, pruneLast, if_neg hpos] at hinsert
  split_ifs at hinsert
  · have hsize : cache.nCurrentSize - 1 = cache.nCurrentSize := congrArg (·.2.nCurrentSize) hinsert
    omega
  · exact nomatch (Prod.mk.inj hinsert).1

/-- `(7, 1)` and `(7, 2)` fill a cache.  Then `(7, 2)` costs the oldest item, and `(7, 1)`, which
is the oldest, becomes the newest. -/
theorem insert_present_prunes :
    let less : ℕ → ℕ → Bool := fun a b => a < b
    let empty : IndexedMultiMap ℕ ℕ := ⟨⟨2, []⟩, 0, ∅⟩
    let full := ((empty.insert less 7 1).2.insert less 7 2).2
    (full.listItems, mapIt full.mapIndex 7) = ([(7, 2), (7, 1)], [2, 1]) ∧
      (full.insert less 7 2).1 = false ∧ (full.insert less 7 2).2.listItems = [(7, 2)] ∧
      mapIt (full.insert less 7 2).2.mapIndex 7 = [2] ∧
      (full.insert less 7 1).1 = true ∧
      (full.insert less 7 1).2.listItems = [(7, 1), (7, 2)] := by
  decide

end IndexedMultiMap
end ImageCoin
