import ChaosCache.Lru.Operations

/-!
# Asking the slab allocator

What a request for a chunk does to the items. It hands out a chunk that no item had, after it may
have added a page, or it is refused and leaves all items alone.
-/

namespace ChaosCache

open Blocks Hash Links

variable {keys : Set (List UInt8)} {c : LruLists} {v : View} {id : ℕ}

/-- The contents of one item. -/
structure SameContents (mem mem' : Mem) (a : ℕ) : Prop where
  nkey : mem'.nkey a = mem.nkey a
  nbytes : mem'.nbytes a = mem.nbytes a
  bytes : mem'.bytes a = mem.bytes a
  hv : mem'.hv a = mem.hv a

namespace SameContents

variable {mem mem' mem'' : Mem} {a : ℕ}

theorem key (same : SameContents mem mem' a) : mem'.key a = mem.key a := by
  simp only [Mem.key, same.nkey, same.bytes]

theorem data (same : SameContents mem mem' a) : mem'.data a = mem.data a := by
  simp only [Mem.data, same.nkey, same.nbytes, same.bytes]

theorem of_item_eq (same : mem'.item a = mem.item a) : SameContents mem mem' a :=
  ⟨congrArg HashItem.nkey same, congrArg HashItem.nbytes same, congrArg HashItem.bytes same,
    congrArg HashItem.hv same⟩

theorem of_frame {c c' : LruLists} (frame : Frame c c') (a : ℕ) :
    SameContents c.mem c'.mem a :=
  ⟨congrFun frame.nkey a, congrFun frame.nbytes a, congrFun frame.bytes a, congrFun frame.hv a⟩

theorem trans (first : SameContents mem mem' a) (second : SameContents mem' mem'' a) :
    SameContents mem mem'' a :=
  ⟨second.nkey.trans first.nkey, second.nbytes.trans first.nbytes,
    second.bytes.trans first.bytes, second.hv.trans first.hv⟩

end SameContents

/-- The allocator has handed out `a`, and has cleared at most memory that held no chunk. -/
structure Obtains (keys : Set (List UInt8)) (c c' : LruLists) (v : View) (id a : ℕ) : Prop where
  items : ItemsInv keys c' v
  slabs : SlabInv c'.slabs (Function.update v.out id (a :: v.out id)) v.lost
  used : c'.slabs.Used id
  fresh : ¬v.Live a
  table : SlabAllocator.SameTable c.slabs c'.slabs
  item : ∀ i, ∀ b ∈ (c.slabs.slabclass i).chunks, c'.mem.item b = c.mem.item b
  chunks : ∀ i, ∀ b ∈ (c.slabs.slabclass i).chunks, b ∈ (c'.slabs.slabclass i).chunks
  settings : c'.settings = c.settings
  freed : c'.freed = c.freed
  repaired : c'.repaired = c.repaired

theorem SlabInv.outside_page {s : SlabAllocator} {out lost : ℕ → List ℕ}
    (inv : SlabInv s out lost) {ptr n : ℕ}
    (apart : ∀ i, ∀ b ∈ (s.slabclass i).slabList, Apart ptr n b (s.slabclass i).len) {i a : ℕ}
    (isChunk : a ∈ (s.slabclass i).chunks) : ¬(ptr ≤ a ∧ a < ptr + n) := by
  rcases SlabClass.mem_chunks.mp isChunk with ⟨b, isSlab, inSlab⟩
  have inside := inv.inside_slab isSlab inSlab
  have positive := (inv.sized i (inv.used_of_mem isSlab)).1
  rcases apart i b isSlab with before | behind <;> omega

namespace SlabAllocator.AddsPages

variable {s s' : SlabAllocator} {out lost : ℕ → List ℕ} {mem mem' : Mem} {i b : ℕ}

theorem item_eq (pages : s.AddsPages s' id mem mem') (inv : SlabInv s out lost)
    (isChunk : b ∈ (s.slabclass i).chunks) : mem'.item b = mem.item b := by
  rcases pages with ⟨-, rfl⟩ | ⟨ptr, -, apart, rfl⟩
  · rfl
  · exact Mem.item_clear_of_notMem (inv.outside_page apart isChunk)

theorem mem_chunks (pages : s.AddsPages s' id mem mem') (table : SameTable s s')
    (isChunk : b ∈ (s.slabclass i).chunks) : b ∈ (s'.slabclass i).chunks := by
  rcases SlabClass.mem_chunks.mp isChunk with ⟨start, isSlab, inSlab⟩
  refine SlabClass.mem_chunks.mpr ⟨start, ?_, by rwa [table.size, table.perslab]⟩
  rcases pages with ⟨slabList, -⟩ | ⟨ptr, slabList, -⟩
  · rwa [slabList]
  · rw [slabList]
    split
    · exact List.mem_cons_of_mem _ isSlab
    · exact isSlab

/-- A chunk that was none before lies in the page that was cleared. -/
theorem item_eq_zero (pages : s.AddsPages s' id mem mem') (table : SameTable s s')
    (inv' : SlabInv s' out lost) (isChunk : b ∈ (s'.slabclass i).chunks)
    (isNew : b ∉ (s.slabclass i).chunks) : mem'.item b = Mem.zero.item b := by
  rcases SlabClass.mem_chunks.mp isChunk with ⟨start, isSlab, inSlab⟩
  have inside := inv'.inside_slab isSlab inSlab
  have positive := (inv'.sized i (inv'.used_of_mem isSlab)).1
  have isOld (isSlab : start ∈ (s.slabclass i).slabList) : False := by
    rw [table.size, table.perslab] at inSlab
    exact isNew (SlabClass.mem_chunks.mpr ⟨start, isSlab, inSlab⟩)
  rcases pages with ⟨slabList, -⟩ | ⟨ptr, slabList, -, rfl⟩
  · rw [slabList] at isSlab
    exact (isOld isSlab).elim
  · rw [slabList] at isSlab
    rw [table.len] at inside
    by_cases same : i = id
    · subst same
      rw [if_pos rfl] at isSlab
      rcases List.mem_cons.mp isSlab with rfl | isSlab
      · exact Mem.item_clear_of_mem ⟨inside.1, by omega⟩
      · exact (isOld isSlab).elim
    · rw [if_neg same] at isSlab
      exact (isOld isSlab).elim

end SlabAllocator.AddsPages

/-- Changing the allocator, and memory outside the chunks that are handed out. -/
theorem ItemsInv.congr (inv : ItemsInv keys c v) {slabs : SlabAllocator} {mem : Mem}
    (table : SlabAllocator.SameTable c.slabs slabs)
    (room : ∀ i, (slabs.slabclass i).slTotal < 2 ^ 31)
    (kept : ∀ i, ∀ b ∈ v.out i, mem.item b = c.mem.item b)
    (unused : ∀ i, ∀ b ∈ (slabs.slabclass i).chunks, b ∉ v.out i →
      mem.slabsClsid b = 0 ∧ mem.itemLinked b = false) :
    ItemsInv keys { c with slabs, mem } v := by
  have keptStored (b : ℕ) (isStored : b ∈ v.stored) : mem.item b = c.mem.item b :=
    kept _ b (inv.mem_out_of_stored isStored)
  have keptListed (i b : ℕ) (inList : b ∈ v.lists i) : mem.item b = c.mem.item b :=
    kept i b ((inv.mem_list i b).mp inList).1
  have key (b : ℕ) (isStored : b ∈ v.stored) : mem.key b = c.mem.key b :=
    (SameContents.of_item_eq (keptStored b isStored)).key
  exact
    { inv with
      table := inv.table.congr
        (fun b isStored => congrArg HashItem.hNext (keptStored b isStored))
        fun b isStored => congrArg HashItem.hv (keptStored b isStored)
      lists := inv.lists.congr (fun i b inList => congrArg HashItem.next (keptListed i b inList))
        fun i b inList => congrArg HashItem.prev (keptListed i b inList)
      mem_list := fun i b => by
        rw [inv.mem_list]
        refine and_congr_right fun handedOut => ?_
        rw [show mem.itemLinked b = c.mem.itemLinked b from
          congrArg HashItem.itemLinked (kept i b handedOut)]
      clsid := fun i b handedOut =>
        (congrArg HashItem.slabsClsid (kept i b handedOut)).trans (inv.clsid i b handedOut)
      unused := unused
      slabbed := fun i b handedOut =>
        (congrArg HashItem.itemSlabbed (kept i b handedOut)).trans (inv.slabbed i b handedOut)
      fits := fun i b handedOut => by
        have same := SameContents.of_item_eq (kept i b handedOut)
        change sizeofHashItem + mem.nkey b + mem.nbytes b ≤ (slabs.slabclass i).size
        rw [same.nkey, same.nbytes, table.size]
        exact inv.fits i b handedOut
      hashes := fun b isStored => by
        change mem.hv b = hashKey (mem.key b)
        rw [key b isStored, (SameContents.of_item_eq (keptStored b isStored)).hv]
        exact inv.hashes b isStored
      keys := fun b isStored => (key b isStored).symm ▸ inv.keys b isStored
      distinct := fun b isStored b' isStored' sameKey =>
        inv.distinct b isStored b' isStored'
          ((key b isStored).symm.trans (sameKey.trans (key b' isStored')))
      range := table.powerLargest.symm ▸ inv.range
      sizeMax := fun i => (table.size i).symm ▸ inv.sizeMax i
      pages := fun i used => by
        rw [SlabAllocator.Used, table.powerLargest] at used
        simpa only [table.size, table.perslab] using inv.pages i used
      room := room }

/-- The lists after a request that found no chunk, but gave the slab list of the class room. -/
def LruLists.resize (c : LruLists) (id listSize : ℕ) : LruLists :=
  { c with slabs := c.slabs.setClass id { c.slabs.slabclass id with listSize } }

theorem Effect.resize (c : LruLists) (id listSize : ℕ) : Effect c (c.resize id listSize) :=
  { Frame.refl c with
    table := .setClass rfl rfl
    slabList := fun i => by
      by_cases same : i = id
      · subst same
        simp [LruLists.resize]
      · exact congrArg SlabClass.slabList (SlabAllocator.slabclass_setClass_of_ne same _)
    refcount := rfl
    freed := rfl
    repaired := rfl }

theorem CacheInv.resize (inv : CacheInv keys c v) {listSize : ℕ}
    (room : (c.slabs.slabclass id).slabList.length ≤ listSize) :
    CacheInv keys (c.resize id listSize) v := by
  have effect := Effect.resize c id listSize
  have items := inv.toItemsInv.congr effect.table (fun i => by
      by_cases same : i = id
      · subst same
        simpa [LruLists.resize] using inv.room i
      · exact (congrArg SlabClass.slTotal (SlabAllocator.slabclass_setClass_of_ne same _)).trans_lt
          (inv.room i))
    (fun _ _ _ => rfl) fun i b isChunk notOut =>
      inv.unused i b (effect.chunks i ▸ isChunk) notOut
  exact { items with slabs := inv.slabs.resize room }

namespace LruLists

theorem slabsAlloc_cases (inv : CacheInv keys c v) {os : Os} (sane : os.Sane c.slabs)
    (ntotal id : ℕ) :
    (∃ listSize, c.slabsAlloc ntotal id os = .ok (c.resize id listSize, none) ∧
        CacheInv keys (c.resize id listSize) v ∧
        (c.slabs.Used id → c.slabs.Refuses id listSize os)) ∨
      ∃ c' a, c.slabsAlloc ntotal id os = .ok (c', some a) ∧ Obtains keys c c' v id a ∧
        c.slabs.Offers id [] os := by
  have grows := SlabClass.listGrows (inv.slabs.few inv.pages id) os
  rcases SlabAllocator.doSlabsAlloc_cases inv.slabs sane.fresh grows c.mem ntotal with
    ⟨listSize, room, run, refuses⟩ |
      ⟨slabs, mem, a, run, used, table, pages, totals, slabInv, offers⟩
  · exact Or.inl ⟨listSize, bind_of_ok run rfl, inv.resize room, refuses⟩
  · have item {i b : ℕ} (isChunk : b ∈ (c.slabs.slabclass i).chunks) :
        mem.item b = c.mem.item b := pages.item_eq inv.slabs isChunk
    have fresh : ¬v.Live a := by
      rintro ⟨i, handedOut⟩
      have distinct := slabInv.nodup_out id
      rw [Function.update_self, List.nodup_cons] at distinct
      have isChunk := pages.mem_chunks table (inv.slabs.mem_chunks_of_mem_out handedOut)
      have isChunk' : a ∈ (slabs.slabclass id).chunks :=
        slabInv.mem_chunks_of_mem_out (by simp)
      exact distinct.1 (slabInv.class_unique isChunk isChunk' ▸ handedOut)
    have items : ItemsInv keys { c with slabs, mem } v := by
      refine inv.toItemsInv.congr table (fun i => (totals i).symm ▸ inv.room i)
        (fun i b handedOut => item (inv.slabs.mem_chunks_of_mem_out handedOut))
        fun i b isChunk notOut => ?_
      by_cases isOld : b ∈ (c.slabs.slabclass i).chunks
      · have unused := inv.unused i b isOld notOut
        have same := item isOld
        exact ⟨(congrArg HashItem.slabsClsid same).trans unused.1,
          (congrArg HashItem.itemLinked same).trans unused.2⟩
      · have same := pages.item_eq_zero table slabInv isChunk isOld
        exact ⟨congrArg HashItem.slabsClsid same, congrArg HashItem.itemLinked same⟩
    exact Or.inr ⟨_, a, bind_of_ok run rfl,
      { items := items
        slabs := slabInv
        used := by rwa [SlabAllocator.Used, table.powerLargest]
        fresh := fresh
        table := table
        item := fun i b isChunk => item isChunk
        chunks := fun i b isChunk => pages.mem_chunks table isChunk
        settings := rfl
        freed := rfl
        repaired := rfl }, offers⟩

end LruLists

/-- A class from which nothing can be taken without another page. -/
structure SlabAllocator.Drained (s : SlabAllocator) (id : ℕ) : Prop where
  slots : (s.slabclass id).slots = []
  endPagePtr : (s.slabclass id).endPagePtr = none

namespace SlabAllocator

variable {s : SlabAllocator} {os : Os} {listSize : ℕ}

theorem Refuses.drained (refuses : s.Refuses id listSize os) : s.Drained id :=
  ⟨refuses.slots, refuses.endPagePtr⟩

/-- From a drained class only a page can be had. -/
theorem Drained.pageGranted (drained : s.Drained id) (offers : s.Offers id [] os) :
    s.PageGranted id [] os :=
  (offers.resolve_left (absurd drained.slots)).resolve_left (absurd drained.endPagePtr)

end SlabAllocator

theorem LruLists.drained_resize (drained : c.slabs.Drained id) (listSize : ℕ) :
    (c.resize id listSize).slabs.Drained id where
  slots := by simpa [resize] using drained.slots
  endPagePtr := by simpa [resize] using drained.endPagePtr

end ChaosCache
