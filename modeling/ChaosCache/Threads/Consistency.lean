import ChaosCache.Threads.Invariant

/-!
# Lists, table, flags and counters agree

What a run without wrapped counters and tail repairs keeps, said of the memory of the cache:
following the links of each class visits the items that are linked, and these are the items
that the chains of the hash table hold.
-/

namespace ChaosCache

open Links Relation

variable {keys : Set (List UInt8)} {c : LruLists} {v : View} {s : Threads} {it id : ℕ}

/-- The item is in a chain of one of the two tables. -/
def LruLists.InTable (c : LruLists) (it : ℕ) : Prop :=
  ∃ slot nodes, Chain c.mem.hNext (c.assoc.head slot) nodes ∧ it ∈ nodes

/-- The lists of the classes hold the linked items, and the table holds the same. -/
structure LruLists.Consistent (c : LruLists) (lists : ℕ → List ℕ) : Prop where
  forward : ∀ id, Chain c.mem.next (c.heads id) (lists id)
  backward : ∀ id, Chain c.mem.prev (c.tails id) (lists id).reverse
  nodup : ∀ id, (lists id).Nodup
  sizes : ∀ id, c.sizes id = (lists id).length
  ownList : ∀ id, ∀ it ∈ lists id, c.mem.slabsClsid it = id
  isChunk : ∀ id, ∀ it ∈ lists id, it ∈ (c.slabs.slabclass id).chunks
  linked : ∀ id, ∀ it ∈ (c.slabs.slabclass id).chunks,
    it ∈ lists (c.mem.slabsClsid it) ↔ c.mem.itemLinked it = true
  inTable : ∀ it, it ∈ lists (c.mem.slabsClsid it) ↔ c.InTable it
  notSlabbed : ∀ it, c.InTable it → c.mem.itemSlabbed it = false
  notFree : ∀ it, c.InTable it → ∀ id, it ∉ (c.slabs.slabclass id).slots
  distinct : ∀ it it', c.InTable it → c.InTable it' → c.mem.key it = c.mem.key it' → it = it'
  hashItems : c.assoc.hashItems = ∑ id ∈ Finset.range powerLargest, c.sizes id

namespace CacheInv

theorem inTable_iff (inv : CacheInv keys c v) : c.InTable it ↔ it ∈ v.stored := by
  constructor
  · rintro ⟨slot, nodes, chain, inChain⟩
    rw [chain.unique (inv.table.chain slot)] at inChain
    exact ((inv.table.mem_chain slot it).mp inChain).1
  · intro isStored
    exact ⟨_, _, inv.table.chain _, (inv.table.mem_chain _ it).mpr ⟨isStored, rfl⟩⟩

theorem mem_list_clsid (inv : CacheInv keys c v) :
    it ∈ v.lists (c.mem.slabsClsid it) ↔ it ∈ v.stored :=
  ⟨fun inList => (inv.mem_stored it).mpr ⟨_, inList⟩, inv.mem_list_of_stored⟩

theorem not_free (inv : CacheInv keys c v) (live : v.Live it) (id : ℕ) :
    it ∉ (c.slabs.slabclass id).slots ++ (c.slabs.slabclass id).endRun := fun isFree => by
  have partition := (inv.slabs.classes id).partition
  have distinct := partition.nodup_iff.mpr (inv.slabs.nodup_chunks id)
  simp only [List.append_assoc] at partition distinct
  rw [← List.append_assoc (c.slabs.slabclass id).slots] at partition distinct
  have isChunk : it ∈ (c.slabs.slabclass id).chunks :=
    partition.subset (List.mem_append_right _ (List.mem_append_left _ isFree))
  rcases live with ⟨id', handedOut⟩
  rcases inv.slabs.class_unique isChunk (inv.slabs.mem_chunks_of_mem_out handedOut) with rfl
  exact List.disjoint_of_nodup_append distinct handedOut (List.mem_append_left _ isFree)

theorem length_list (inv : CacheInv keys c v) (id : ℕ) :
    (v.lists id).length = (v.stored.filter (c.mem.slabsClsid · = id)).card := by
  rw [← List.toFinset_card_of_nodup (inv.lists.nodup id)]
  congr 1
  ext it
  rw [List.mem_toFinset, Finset.mem_filter]
  constructor
  · intro inList
    exact ⟨(inv.mem_stored it).mpr ⟨id, inList⟩, inv.clsid id it ((inv.mem_list id it).mp inList).1⟩
  · rintro ⟨isStored, rfl⟩
    exact inv.mem_list_of_stored isStored

theorem card_stored (inv : CacheInv keys c v) :
    v.stored.card = ∑ id ∈ Finset.range powerLargest, (v.lists id).length := by
  simp only [inv.length_list]
  refine Finset.card_eq_sum_card_fiberwise fun it isStored => ?_
  exact Finset.mem_coe.mpr (Finset.mem_range.mpr (inv.range_clsid (inv.live_of_stored isStored)))

theorem consistent (inv : CacheInv keys c v) (card : v.stored.card ≤ 2 ^ 30) :
    c.Consistent v.lists := by
  have sizes (id : ℕ) : c.sizes id = (v.lists id).length := by
    rw [inv.lists.sizes, Nat.mod_eq_of_lt]
    have few : (v.lists id).length ≤ v.stored.card := by
      rw [inv.length_list]
      exact Finset.card_filter_le _ _
    omega
  exact
    { forward := fun id => (inv.lists.list id).forward
      backward := fun id => (inv.lists.list id).backward
      nodup := inv.lists.nodup
      sizes := sizes
      ownList := fun id it inList => inv.clsid id it ((inv.mem_list id it).mp inList).1
      isChunk := fun id it inList =>
        inv.slabs.mem_chunks_of_mem_out ((inv.mem_list id it).mp inList).1
      linked := fun id it isChunk => by rw [inv.mem_list_clsid, inv.linked_iff_of_chunk isChunk]
      inTable := fun it => by rw [inv.mem_list_clsid, inv.inTable_iff]
      notSlabbed := fun it inTable =>
        inv.slabbed _ it (inv.mem_out_of_stored (inv.inTable_iff.mp inTable))
      notFree := fun it inTable id isFree =>
        inv.not_free (inv.live_of_stored (inv.inTable_iff.mp inTable)) id
          (List.mem_append_left _ isFree)
      distinct := fun it it' inTable inTable' =>
        inv.distinct it (inv.inTable_iff.mp inTable) it' (inv.inTable_iff.mp inTable')
      hashItems := by
        rw [inv.table.count, Finset.sum_congr rfl fun id _ => sizes id, ← inv.card_stored]
        omega }

end CacheInv

namespace Threads

/-- In every state of a run without wraps and tail repairs the lists, the table, the flags and the
counters agree, and no assertion fails in the section that comes next. -/
theorem consistent_of_run (keySet : KeySet keys) {mem : Mem} {cacheSize : ℕ} {os : Os}
    {initialMalloc : Option ℕ}
    (created : DataCache.create .zero .zero mem cacheSize os initialMalloc = .ok c)
    (run : ReflTransGen (QuietStep keys) (init c) s) :
    (∃ lists, s.cache.Consistent lists) ∧
      ∀ action, s.Regular keys action → action.Positive → ∃ s', s.step action = .ok s' := by
  rcases inv_of_run keySet created
    (ReflTransGen.mono (fun _ _ => sparingStep_of_quietStep) _ _ run) with ⟨v, inv⟩
  exact ⟨⟨v.lists, inv.cache.consistent inv.card⟩, fun action => inv.returns keySet⟩

/-- Two threads have stored `k`, replaced it and deleted it, and have stored `l`. -/
theorem consistent_of_run_sharing : ∃ s : Threads, s.obtained = [4288, 4192, 4096] ∧
    s.cache.assoc.assocFind s.cache.mem (Hash.hashKey [108]) [108] = .ok (some 4288) ∧
    s.cache.assoc.assocFind s.cache.mem (Hash.hashKey [107]) [107] = .ok none ∧
    (∃ lists, s.cache.Consistent lists) ∧
      ∀ action, s.Regular oneByteKeys action → action.Positive →
        ∃ s', s.step action = .ok s' := by
  have created := DataCache.create_eq .zero 64 ((DataCache.onePage 0 0 0).os 0) none
  rcases quiet_sharing with ⟨s, run, -, obtained, linked, deleted⟩
  exact ⟨s, obtained, linked, deleted, consistent_of_run keySet_oneByteKeys created run⟩

end Threads

end ChaosCache
