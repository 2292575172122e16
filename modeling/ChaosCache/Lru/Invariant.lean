import Mathlib.Data.Set.Basic
import ChaosCache.Assoc.Invariant
import ChaosCache.Lru.Lists
import ChaosCache.Slabs.Operations

/-!
# The invariant of the cache

`CacheInv` ties the slab allocator, the hash table and the lists together: what is linked,
what is handed out, and that no two linked items have the same key. It does not speak of
reference counts, so that it also holds when they wrap or are reset.
-/

namespace ChaosCache

open Blocks Hash Links

/-- C strings that the hash separates as far as the table needs it: it compares the bytes of
two keys, but not their lengths. -/
structure KeySet (keys : Set (List UInt8)) : Prop where
  nulFree : ∀ key ∈ keys, 0 ∉ key
  short : ∀ key ∈ keys, key.length < 2 ^ 16
  separated : ∀ key ∈ keys, ∀ key' ∈ keys, hashKey key = hashKey key' → key.length = key'.length

/-- Blocks from `malloc` are fresh, and arrays fit in user space. -/
structure Os.Sane (os : Os) (s : SlabAllocator) : Prop where
  fresh : s.MallocFresh os
  fits : ∀ n, os.realloc n = true → n ≤ userSpace

/-- What the parts of the cache hold: the lists, the chunks that are handed out or lost, the
stored items and the chains of the table. -/
structure View where
  lists : ℕ → List ℕ
  out : ℕ → List ℕ
  lost : ℕ → List ℕ
  stored : Finset ℕ
  chains : Slot → List ℕ

/-- Some class has handed out this chunk. -/
def View.Live (v : View) (a : ℕ) : Prop := ∃ id, a ∈ v.out id

/-- The table, the lists and the items agree with the view. -/
structure ItemsInv (keys : Set (List UInt8)) (c : LruLists) (v : View) : Prop where
  table : AssociativeArray.TableInv c.assoc c.mem v.stored v.chains
  lists : ListsInv c.mem.next c.mem.prev c.heads c.tails c.sizes v.lists
  mem_list : ∀ id a, a ∈ v.lists id ↔ a ∈ v.out id ∧ c.mem.itemLinked a = true
  mem_stored : ∀ a, a ∈ v.stored ↔ ∃ id, a ∈ v.lists id
  clsid : ∀ id, ∀ a ∈ v.out id, c.mem.slabsClsid a = id
  unused : ∀ id, ∀ a ∈ (c.slabs.slabclass id).chunks, a ∉ v.out id →
    c.mem.slabsClsid a = 0 ∧ c.mem.itemLinked a = false
  slabbed : ∀ id, ∀ a ∈ v.out id, c.mem.itemSlabbed a = false
  fits : ∀ id, ∀ a ∈ v.out id, c.mem.itemNtotal a ≤ (c.slabs.slabclass id).size
  hashes : ∀ a ∈ v.stored, c.mem.hv a = hashKey (c.mem.key a)
  keys : ∀ a ∈ v.stored, c.mem.key a ∈ keys
  distinct : ∀ a ∈ v.stored, ∀ b ∈ v.stored, c.mem.key a = c.mem.key b → a = b
  range : powerSmallest ≤ c.slabs.powerLargest ∧ c.slabs.powerLargest < powerLargest
  sizeMax : ∀ id, (c.slabs.slabclass id).size ≤ c.settings.itemSizeMax
  small : c.settings.itemSizeMax < 2 ^ 31
  pages : c.slabs.LargePages
  room : ∀ id, (c.slabs.slabclass id).slTotal < 2 ^ 31

/-- So does the allocator. -/
structure CacheInv (keys : Set (List UInt8)) (c : LruLists) (v : View) : Prop
    extends ItemsInv keys c v where
  slabs : SlabInv c.slabs v.out v.lost

/-- What an operation leaves alone when it obtains no memory: the contents of the items, the
class sizes and the slabs. -/
structure Frame (c c' : LruLists) : Prop where
  settings : c'.settings = c.settings
  nkey : c'.mem.nkey = c.mem.nkey
  nbytes : c'.mem.nbytes = c.mem.nbytes
  bytes : c'.mem.bytes = c.mem.bytes
  hv : c'.mem.hv = c.mem.hv
  table : SlabAllocator.SameTable c.slabs c'.slabs
  slabList : ∀ id, (c'.slabs.slabclass id).slabList = (c.slabs.slabclass id).slabList

namespace Frame

variable {c c' c'' : LruLists}

theorem refl (c : LruLists) : Frame c c :=
  ⟨rfl, rfl, rfl, rfl, rfl, ⟨rfl, fun _ => rfl, fun _ => rfl⟩, fun _ => rfl⟩

theorem trans (first : Frame c c') (second : Frame c' c'') : Frame c c'' where
  settings := second.settings.trans first.settings
  nkey := second.nkey.trans first.nkey
  nbytes := second.nbytes.trans first.nbytes
  bytes := second.bytes.trans first.bytes
  hv := second.hv.trans first.hv
  table := first.table.trans second.table
  slabList id := (second.slabList id).trans (first.slabList id)

theorem key (frame : Frame c c') (a : ℕ) : c'.mem.key a = c.mem.key a := by
  simp only [Mem.key, frame.nkey, frame.bytes]

theorem data (frame : Frame c c') (a : ℕ) : c'.mem.data a = c.mem.data a := by
  simp only [Mem.data, frame.nkey, frame.nbytes, frame.bytes]

theorem chunks (frame : Frame c c') (id : ℕ) :
    (c'.slabs.slabclass id).chunks = (c.slabs.slabclass id).chunks := by
  simp only [SlabClass.chunks, frame.table.size, frame.table.perslab, frame.slabList]

theorem sane (frame : Frame c c') {os : Os} (sane : os.Sane c.slabs) : os.Sane c'.slabs where
  fresh := sane.fresh.congr frame.table frame.slabList
  fits := sane.fits

end Frame

/-! ## Stored items -/

namespace AssociativeArray.TableInv

variable {t : AssociativeArray} {mem : Mem} {stored : Finset ℕ} {chains : Slot → List ℕ}
  {keys : Set (List UInt8)}

/-- With keys that the hash separates, a lookup returns the item with the searched key. -/
theorem assocFind_key (inv : TableInv t mem stored chains) (keySet : KeySet keys)
    (hashes : ∀ a ∈ stored, mem.hv a = hashKey (mem.key a))
    (own : ∀ a ∈ stored, mem.key a ∈ keys)
    (distinct : ∀ a ∈ stored, ∀ b ∈ stored, mem.key a = mem.key b → a = b)
    {key : List UInt8} (isKey : key ∈ keys) :
    ∃ found, t.assocFind mem (hashKey key) key = .ok found ∧
      ∀ it, found = some it ↔ it ∈ stored ∧ mem.key it = key := by
  refine ⟨_, inv.assocFind_eq _ _, fun it => ?_⟩
  -- the table's test is equality of keys on stored items
  have test {a : ℕ} (isStored : a ∈ stored) :
      mem.Matches (hashKey key) key a ↔ mem.key a = key := by
    constructor
    · rintro ⟨sameHash, sameBytes⟩
      rw [hashes a isStored] at sameHash
      have sameLength := keySet.separated key isKey _ (own a isStored) sameHash
      rw [← sameBytes]
      simp only [Mem.key, sameLength, length_readBytes]
    · rintro rfl
      exact ⟨(hashes a isStored).symm, by simp [Mem.key]⟩
  cases result : (chains (t.slot (hashKey key))).find? (mem.Matches (hashKey key) key ·) with
  | none =>
      rw [List.find?_eq_none] at result
      constructor
      · simp
      · rintro ⟨isStored, sameKey⟩
        have matched := (test isStored).mpr sameKey
        have inChain := inv.mem_chain_of_matches isStored matched
        exact absurd (decide_eq_true matched) (result it inChain)
  | some first =>
      have isStored := ((inv.mem_chain _ first).mp (List.mem_of_find?_eq_some result)).1
      have matched : mem.Matches (hashKey key) key first := by simpa using List.find?_some result
      have sameKey := (test isStored).mp matched
      rw [Option.some.injEq]
      constructor
      · rintro rfl
        exact ⟨isStored, sameKey⟩
      · rintro ⟨isStored', sameKey'⟩
        exact distinct first isStored it isStored' (sameKey.trans sameKey'.symm)

end AssociativeArray.TableInv

end ChaosCache
