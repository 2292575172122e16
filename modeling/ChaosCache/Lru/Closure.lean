import ChaosCache.Lru.Lengths
import ChaosCache.Lru.Skeleton
import ChaosCache.Slabs.Limit

/-!
# Where pointers lead

The table, the ends of the lists and the links of the items lead to items that were allocated once.
Like the lengths this holds of every run, whatever happens to counters, keys and chunks.
-/

namespace ChaosCache

open AssociativeArray Links

/-- Every pointer at every place leads into the set. -/
def LeadsInto (known : Set ℕ) (places : Set ℕ) (field : ℕ → Option ℕ) : Prop :=
  ∀ a ∈ places, ∀ b ∈ field a, b ∈ known

namespace LeadsInto

variable {known places : Set ℕ} {field : ℕ → Option ℕ} {target : Option ℕ}

theorem update (leads : LeadsInto known places field) (place : ℕ)
    (inKnown : ∀ b ∈ target, b ∈ known) :
    LeadsInto known places (Function.update field place target) := by
  intro a isPlace
  by_cases same : a = place
  · subst same
    simpa using inKnown
  · simpa [same] using leads a isPlace

theorem assign (leads : LeadsInto known places field) (node : Option ℕ)
    (inKnown : ∀ b ∈ target, b ∈ known) :
    LeadsInto known places (assign field node target) := by
  cases node with
  | none => exact leads
  | some place => exact leads.update place inKnown

theorem mono (leads : LeadsInto known places field) {known' : Set ℕ} (more : known ⊆ known') :
    LeadsInto known' places field :=
  fun a isPlace b isNext => more (leads a isPlace b isNext)

/-- A new place that leads nowhere. -/
theorem insert (leads : LeadsInto known places field) {field' : ℕ → Option ℕ}
    (same : ∀ b ∈ places, field' b = field b) (a : ℕ) :
    LeadsInto (insert a known) (insert a places) (Function.update field' a none) := by
  intro b isPlace next isNext
  by_cases isNew : b = a
  · subst isNew
    simp at isNext
  · have wasPlace := (Set.mem_insert_iff.mp isPlace).resolve_left isNew
    rw [Function.update_of_ne isNew, same b wasPlace] at isNext
    exact Set.mem_insert_of_mem a (leads b wasPlace next isNext)

end LeadsInto

namespace LruLists

variable {c c' c'' : LruLists} {known : Set ℕ} {it now : ℕ}

/-- Whatever the program can follow leads to a known item. -/
structure Closed (c : LruLists) (known : Set ℕ) : Prop where
  table : c.Knows known (2 ^ 32)
  heads : LeadsInto known Set.univ c.heads
  tails : LeadsInto known Set.univ c.tails
  next : LeadsInto known known c.mem.next
  prev : LeadsInto known known c.mem.prev

/-- No chunk is obtained or freed, and none changes its class or its lengths. -/
structure LeavesChunks (c c' : LruLists) : Prop where
  slabs : c'.slabs = c.slabs
  slabsClsid : c'.mem.slabsClsid = c.mem.slabsClsid
  nkey : c'.mem.nkey = c.mem.nkey
  nbytes : c'.mem.nbytes = c.mem.nbytes
  freed : c'.freed = c.freed

namespace LeavesChunks

theorem refl (c : LruLists) : c.LeavesChunks c := ⟨rfl, rfl, rfl, rfl, rfl⟩

theorem trans (first : c.LeavesChunks c') (second : c'.LeavesChunks c'') : c.LeavesChunks c'' where
  slabs := second.slabs.trans first.slabs
  slabsClsid := second.slabsClsid.trans first.slabsClsid
  nkey := second.nkey.trans first.nkey
  nbytes := second.nbytes.trans first.nbytes
  freed := second.freed.trans first.freed

/-- The last part first, which says what the state in between is. -/
theorem after (second : c'.LeavesChunks c'') (first : c.LeavesChunks c') : c.LeavesChunks c'' :=
  first.trans second

theorem itemNtotal (leaves : c.LeavesChunks c') (a : ℕ) :
    c'.mem.itemNtotal a = c.mem.itemNtotal a := by
  simp only [Mem.itemNtotal, leaves.nkey, leaves.nbytes]

theorem of_itemLinkQ (run : c.itemLinkQ it = .ok c') : c.LeavesChunks c' := by
  rcases bind_eq_ok.mp run with ⟨-, -, rest⟩
  rcases bind_eq_ok.mp rest with ⟨-, -, rest⟩
  rcases bind_eq_ok.mp rest with ⟨-, -, rest⟩
  rcases bind_eq_ok.mp rest with ⟨-, -, done⟩
  cases done
  exact ⟨rfl, rfl, rfl, rfl, rfl⟩

theorem of_itemUnlinkQ (run : c.itemUnlinkQ it = .ok c') : c.LeavesChunks c' := by
  rcases bind_eq_ok.mp run with ⟨-, -, rest⟩
  rcases bind_eq_ok.mp rest with ⟨-, -, rest⟩
  rcases bind_eq_ok.mp rest with ⟨-, -, rest⟩
  rcases bind_eq_ok.mp rest with ⟨-, -, rest⟩
  rcases bind_eq_ok.mp rest with ⟨-, -, done⟩
  cases done
  exact ⟨rfl, rfl, rfl, rfl, rfl⟩

theorem of_detach (run : c.detach it = .ok c') : c.LeavesChunks c' := by
  rcases bind_eq_ok.mp run with ⟨⟨assoc, mem⟩, deleted, unlinked⟩
  rcases mem_of_assocDelete deleted with ⟨hNext, rfl⟩
  exact (of_itemUnlinkQ unlinked).after ⟨rfl, rfl, rfl, rfl, rfl⟩

theorem of_doItemLink {expansion : Expansion} (run : c.doItemLink it now expansion = .ok c') :
    c.LeavesChunks c' := by
  rcases bind_eq_ok.mp run with ⟨-, -, rest⟩
  rcases bind_eq_ok.mp rest with ⟨-, -, rest⟩
  rcases bind_eq_ok.mp rest with ⟨⟨assoc, mem⟩, inserted, linked⟩
  rcases mem_of_assocInsert inserted with ⟨hNext, rfl⟩
  exact (of_itemLinkQ linked).after ⟨rfl, rfl, rfl, rfl, rfl⟩

theorem of_doItemUpdate (run : c.doItemUpdate it now = .ok c') : c.LeavesChunks c' := by
  simp only [LruLists.doItemUpdate] at run
  split at run
  · rcases bind_eq_ok.mp run with ⟨-, -, rest⟩
    split at rest
    · rcases bind_eq_ok.mp rest with ⟨c₁, unlinked, linked⟩
      have relinked : c₁.LeavesChunks c' := (of_itemLinkQ linked).after ⟨rfl, rfl, rfl, rfl, rfl⟩
      exact (of_itemUnlinkQ unlinked).trans relinked
    · cases rest
      exact .refl c
  · cases run
    exact .refl c

theorem of_doItemGet {key : List UInt8} {hv : UInt32} {found : Option ℕ}
    (run : c.doItemGet key hv now = .ok (c', found)) : c.LeavesChunks c' := by
  rcases bind_eq_ok.mp run with ⟨found', -, rest⟩
  cases found' with
  | none =>
      cases rest
      exact .refl c
  | some it =>
      rcases bind_eq_ok.mp rest with ⟨c₁, updated, done⟩
      cases done
      exact (of_doItemUpdate updated).after ⟨rfl, rfl, rfl, rfl, rfl⟩

theorem of_maintenance (run : c.maintenance = .ok c') : c.LeavesChunks c' := by
  rcases bind_eq_ok.mp run with ⟨⟨assoc, mem⟩, passed, done⟩
  cases done
  rcases mem_of_maintenancePass passed with ⟨hNext, rfl⟩
  exact ⟨rfl, rfl, rfl, rfl, rfl⟩

end LeavesChunks

namespace Closed

theorem congr (closed : c.Closed known) (table : c'.Knows known (2 ^ 32))
    (heads : c'.heads = c.heads) (tails : c'.tails = c.tails) (next : c'.mem.next = c.mem.next)
    (prev : c'.mem.prev = c.mem.prev) : c'.Closed known :=
  ⟨table, heads ▸ closed.heads, tails ▸ closed.tails, next ▸ closed.next, prev ▸ closed.prev⟩

theorem itemLinkQ (closed : c.Closed known) (isKnown : it ∈ known)
    (run : c.itemLinkQ it = .ok c') : c'.Closed known := by
  have table := closed.table.itemLinkQ run
  have isIt : ∀ b ∈ some it, b ∈ known := by simpa using isKnown
  rcases bind_eq_ok.mp run with ⟨-, -, rest⟩
  rcases bind_eq_ok.mp rest with ⟨-, -, rest⟩
  rcases bind_eq_ok.mp rest with ⟨-, -, rest⟩
  rcases bind_eq_ok.mp rest with ⟨-, -, done⟩
  cases done
  have isHead := closed.heads (c.mem.slabsClsid it) trivial
  have isTail := closed.tails (c.mem.slabsClsid it) trivial
  refine ⟨table, ?_, ?_, ?_, ?_⟩
  · exact closed.heads.update _ isIt
  · apply closed.tails.update
    intro b isTail'
    cases tail : c.tails (c.mem.slabsClsid it) with
    | none => exact isIt b (by simpa [tail] using isTail')
    | some a => exact isTail b (by simpa [tail] using isTail')
  · exact closed.next.update it isHead
  · exact (closed.prev.update it (by simp)).assign _ isIt

theorem itemUnlinkQ (closed : c.Closed known) (isKnown : it ∈ known)
    (run : c.itemUnlinkQ it = .ok c') : c'.Closed known := by
  have table := closed.table.itemUnlinkQ run
  rcases bind_eq_ok.mp run with ⟨-, -, rest⟩
  rcases bind_eq_ok.mp rest with ⟨-, -, rest⟩
  rcases bind_eq_ok.mp rest with ⟨-, -, rest⟩
  rcases bind_eq_ok.mp rest with ⟨-, -, rest⟩
  rcases bind_eq_ok.mp rest with ⟨-, -, done⟩
  cases done
  refine ⟨table, ?_, ?_, ?_, ?_⟩
  · apply closed.heads.update
    split
    · exact closed.next it isKnown
    · exact closed.heads _ trivial
  · apply closed.tails.update
    split
    · exact closed.prev it isKnown
    · exact closed.tails _ trivial
  · exact closed.next.assign _ (closed.next it isKnown)
  · exact closed.prev.assign _ (closed.prev it isKnown)

theorem detach (closed : c.Closed known) (isKnown : it ∈ known) (run : c.detach it = .ok c') :
    c'.Closed known := by
  rcases bind_eq_ok.mp run with ⟨⟨assoc, mem⟩, deleted, unlinked⟩
  have unmarked : c.assoc.LeadsTo
      { c.mem with itemLinked := Function.update c.mem.itemLinked it false } known (2 ^ 32) :=
    LeadsTo.congr closed.table rfl rfl
  have table : ({ c with assoc, mem } : LruLists).Knows known (2 ^ 32) :=
    unmarked.assocDelete deleted
  rcases mem_of_assocDelete deleted with ⟨hNext, rfl⟩
  have without := closed.congr table rfl rfl rfl rfl
  exact without.itemUnlinkQ isKnown unlinked

theorem doItemLink (closed : c.Closed known) (isKnown : it ∈ known) {expansion : Expansion}
    (run : c.doItemLink it now expansion = .ok c') : c'.Closed known := by
  rcases bind_eq_ok.mp run with ⟨-, -, rest⟩
  rcases bind_eq_ok.mp rest with ⟨-, -, rest⟩
  rcases bind_eq_ok.mp rest with ⟨⟨assoc, mem⟩, inserted, linked⟩
  have marked : c.assoc.LeadsTo
      { c.mem with
        itemLinked := Function.update c.mem.itemLinked it true
        time := Function.update c.mem.time it (now % 2 ^ 32) } known (2 ^ 32) :=
    LeadsTo.congr closed.table rfl rfl
  have table : ({ c with assoc, mem } : LruLists).Knows known (2 ^ 32) :=
    marked.assocInsert isKnown inserted
  rcases mem_of_assocInsert inserted with ⟨hNext, rfl⟩
  have withItem := closed.congr table rfl rfl rfl rfl
  exact withItem.itemLinkQ isKnown linked

theorem doItemUpdate (closed : c.Closed known) (isKnown : it ∈ known)
    (run : c.doItemUpdate it now = .ok c') : c'.Closed known := by
  simp only [LruLists.doItemUpdate] at run
  split at run
  · rcases bind_eq_ok.mp run with ⟨-, -, rest⟩
    split at rest
    · rcases bind_eq_ok.mp rest with ⟨c₁, unlinked, linked⟩
      have without := closed.itemUnlinkQ isKnown unlinked
      have touched : ({ c₁ with
          mem := { c₁.mem with time := Function.update c₁.mem.time it (now % 2 ^ 32) } } :
            LruLists).Closed known :=
        without.congr (without.table.congr rfl rfl rfl) rfl rfl rfl rfl
      exact touched.itemLinkQ isKnown linked
    · cases rest
      exact closed
  · cases run
    exact closed

theorem doItemGet (closed : c.Closed known) {key : List UInt8} {hv : UInt32} {found : Option ℕ}
    (run : c.doItemGet key hv now = .ok (c', found)) :
    c'.Closed known ∧ ∀ it ∈ found, it ∈ known := by
  have inKnown := (closed.table.doItemGet run).2
  rcases bind_eq_ok.mp run with ⟨found', walked, rest⟩
  cases found' with
  | none =>
      cases rest
      exact ⟨closed, by simp⟩
  | some it =>
      rcases bind_eq_ok.mp rest with ⟨c₁, updated, done⟩
      cases done
      have counted : ({ c with
          mem := { c.mem with
            refcount := Function.update c.mem.refcount it ((c.mem.refcount it + 1) % 2 ^ 16) } } :
              LruLists).Closed known :=
        closed.congr (closed.table.congr rfl rfl rfl) rfl rfl rfl rfl
      exact ⟨counted.doItemUpdate (inKnown it rfl) updated, inKnown⟩

theorem maintenance (closed : c.Closed known) (run : c.maintenance = .ok c') :
    c'.Closed known := by
  have table := closed.table.maintenance run
  rcases bind_eq_ok.mp run with ⟨⟨assoc, mem⟩, passed, done⟩
  cases done
  rcases mem_of_maintenancePass passed with ⟨hNext, rfl⟩
  exact closed.congr table rfl rfl rfl rfl

/-- A search from the tail of a list picks a known item. -/
theorem searchTail (closed : c.Closed known) {picks : ℕ → Bool} {tries : ℕ} {start : Option ℕ}
    (isKnown : ∀ a ∈ start, a ∈ known) {found : ℕ}
    (search : LruLists.searchTail c.mem picks tries start = some found) : found ∈ known := by
  induction tries generalizing start with
  | zero => cases search
  | succ tries ih =>
      cases start with
      | none => cases search
      | some it =>
          simp only [LruLists.searchTail] at search
          split at search
          · cases search
            exact isKnown found rfl
          · exact ih (closed.prev it (isKnown it rfl)) search

end Closed

/-! ## Slabs -/

open SlabAllocator

variable {id : ℕ} {os : Os} {sys : System}

theorem keepsSlabs_of_itemFree (run : c.itemFree it os = .ok c') :
    KeepsSlabs c.slabs c'.slabs := by
  rcases bind_eq_ok.mp run with ⟨head, -, rest⟩
  rcases bind_eq_ok.mp rest with ⟨tail, -, rest⟩
  rcases bind_eq_ok.mp rest with ⟨-, -, rest⟩
  rcases bind_eq_ok.mp rest with ⟨-, -, rest⟩
  rcases bind_eq_ok.mp rest with ⟨-, -, rest⟩
  rcases bind_eq_ok.mp rest with ⟨-, -, rest⟩
  rcases bind_eq_ok.mp rest with ⟨slabs, freed, done⟩
  cases done
  exact doSlabsFree_ok freed

theorem keepsSlabs_of_doItemUnlink (run : c.doItemUnlink it os = .ok c') :
    KeepsSlabs c.slabs c'.slabs := by
  simp only [doItemUnlink] at run
  split at run
  · rcases bind_eq_ok.mp run with ⟨c₁, detached, rest⟩
    have slabs := (LeavesChunks.of_detach detached).slabs
    split at rest
    · rw [← slabs]
      exact keepsSlabs_of_itemFree rest
    · cases rest
      rw [slabs]
      exact .refl c.slabs
  · cases run
    exact .refl c.slabs

theorem keepsSlabs_of_evict (run : c.evict id os = .ok c') : KeepsSlabs c.slabs c'.slabs := by
  simp only [evict] at run
  split at run
  · exact keepsSlabs_of_doItemUnlink run
  · cases run
    exact .refl c.slabs

theorem keepsSlabs_of_tailRepair (run : c.tailRepair id now os = .ok c') :
    KeepsSlabs c.slabs c'.slabs := by
  simp only [tailRepair] at run
  split at run
  · have unlinked := keepsSlabs_of_doItemUnlink run
    exact unlinked
  · cases run
    exact .refl c.slabs

theorem sameTable_of_slabsAlloc {size : ℕ} {chunk : Option ℕ}
    (run : c.slabsAlloc size id os = .ok (c', chunk)) : SameTable c.slabs c'.slabs := by
  rcases bind_eq_ok.mp run with ⟨⟨slabs, mem, it⟩, allocated, done⟩
  cases done
  rcases doSlabsAlloc_ok allocated with keeps | ⟨ptr, -, adds⟩
  · exact keeps.table
  · exact adds.table

/-- A section that obtains one slab at most. -/
def ObtainsSlab (c c' : LruLists) (sys : System) : Prop :=
  KeepsSlabs c.slabs c'.slabs ∨
    ∃ id ptr i, c.slabs.Used id ∧ AddsSlab c.slabs c'.slabs id ptr (sys.os i)

/-- One request, after sections that obtain no slab. -/
theorem obtainsSlab_of_slabsAlloc {size i : ℕ} {chunk : Option ℕ}
    (keeps : KeepsSlabs c.slabs c'.slabs)
    (run : c'.slabsAlloc size id (sys.os i) = .ok (c'', chunk)) : c.ObtainsSlab c'' sys := by
  rcases bind_eq_ok.mp run with ⟨⟨slabs, mem, it⟩, allocated, done⟩
  cases done
  rcases doSlabsAlloc_ok allocated with more | ⟨ptr, used, adds⟩
  · exact Or.inl (keeps.trans more)
  · exact Or.inr ⟨id, ptr, i, keeps.table.used_iff.mp used, adds.after keeps⟩

theorem keepsSlabs_of_slabsAlloc {size : ℕ} (run : c.slabsAlloc size id os = .ok (c', none)) :
    KeepsSlabs c.slabs c'.slabs := by
  rcases bind_eq_ok.mp run with ⟨⟨slabs, mem, it⟩, allocated, done⟩
  cases done
  exact keepsSlabs_of_refused allocated

theorem obtainsSlab_of_obtainChunk {size : ℕ} {chunk : Option ℕ}
    (run : c.obtainChunk size id sys = .ok (c', chunk)) : c.ObtainsSlab c' sys := by
  rcases bind_eq_ok.mp run with ⟨⟨c₁, first⟩, allocated₁, rest⟩
  cases first with
  | some a =>
      cases rest
      exact obtainsSlab_of_slabsAlloc (.refl c.slabs) allocated₁
  | none =>
      have keeps₁ := keepsSlabs_of_slabsAlloc allocated₁
      rcases bind_eq_ok.mp rest with ⟨tail, -, rest⟩
      cases tail with
      | none =>
          cases rest
          exact Or.inl keeps₁
      | some tail =>
          rcases bind_eq_ok.mp rest with ⟨c₂, evicted, rest⟩
          have keeps₂ := keeps₁.trans (keepsSlabs_of_evict evicted)
          rcases bind_eq_ok.mp rest with ⟨⟨c₃, second⟩, allocated₂, rest⟩
          cases second with
          | some a =>
              cases rest
              exact obtainsSlab_of_slabsAlloc keeps₂ allocated₂
          | none =>
              have keeps₃ := keeps₂.trans (keepsSlabs_of_slabsAlloc allocated₂)
              rcases bind_eq_ok.mp rest with ⟨c₄, repaired, rest⟩
              exact obtainsSlab_of_slabsAlloc
                (keeps₃.trans (keepsSlabs_of_tailRepair repaired)) rest

theorem ObtainsSlab.table (obtains : c.ObtainsSlab c' sys) : SameTable c.slabs c'.slabs := by
  rcases obtains with keeps | ⟨id, ptr, i, -, adds⟩
  · exact keeps.table
  · exact adds.table

/-- The attempts of `do_item_alloc` leave the classes as they are. -/
theorem sameTable_of_obtainChunk {size : ℕ} {chunk : Option ℕ}
    (run : c.obtainChunk size id sys = .ok (c', chunk)) : SameTable c.slabs c'.slabs :=
  (obtainsSlab_of_obtainChunk run).table

end LruLists

end ChaosCache
