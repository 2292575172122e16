import ChaosCache.Lru.Requests

/-!
# Making room

`do_item_alloc` may unlink two items of its class before it gets a chunk, and each of them is
given back at once.
-/

namespace ChaosCache

open Links

variable {keys : Set (List UInt8)} {c : LruLists} {v : View} {it id : ℕ}

/-! ## The searches -/

namespace LruLists

theorem searchTail_eq {mem : Mem} {picks : ℕ → Bool} {tries : ℕ} {start : Option ℕ}
    {nodes : List ℕ} (chain : Chain mem.prev start nodes) :
    searchTail mem picks tries start = (nodes.take tries).find? picks := by
  induction tries generalizing start nodes with
  | zero => rfl
  | succ tries ih =>
      cases nodes with
      | nil =>
          rcases chain with rfl
          rfl
      | cons a rest =>
          rcases chain with ⟨rfl, chain⟩
          rw [List.take_succ_cons]
          cases picked : picks a with
          | true => simp [searchTail, picked]
          | false => simpa [searchTail, picked] using ih chain

theorem of_searchTail (inv : CacheInv keys c v) {picks : ℕ → Bool} {tries : ℕ}
    (found : searchTail c.mem picks tries (c.tails id) = some it) :
    it ∈ v.lists id ∧ picks it = true := by
  rw [searchTail_eq (inv.lists.list id).backward] at found
  have picked := List.find?_some found
  have inList := List.mem_of_mem_take (List.mem_of_find?_eq_some found)
  exact ⟨List.mem_reverse.mp inList, picked⟩

end LruLists

/-! ## What is given back -/

/-- A part of an allocation that unlinks the items in `gone`. The reference counts of those
in `reset` are set to zero first. -/
structure Reclaims (c c' : LruLists) (v v' : View) (gone reset : List ℕ) : Prop
    extends Drops c c' v v' gone where
  stored : ∀ a, a ∈ v'.stored ↔ a ∈ v.stored ∧ a ∉ gone
  wasStored : ∀ a ∈ gone, a ∈ v.stored
  refcount : ∀ a, a ∉ reset → c'.mem.refcount a = c.mem.refcount a
  noRef : ∀ a ∈ gone, c.mem.refcount a = 0 ∨ a ∈ reset
  resetGone : ∀ a ∈ reset, a ∈ gone
  repaired : c'.repaired = reset ++ c.repaired

namespace Reclaims

variable {c' c'' : LruLists} {v' v'' : View} {gone gone' reset reset' : List ℕ}

theorem of_effect (effect : Effect c c') : Reclaims c c' v v [] [] :=
  { Drops.of_effect effect rfl with
    stored := by simp
    wasStored := by simp
    refcount := fun a _ => congrFun effect.refcount a
    noRef := by simp
    resetGone := by simp
    repaired := effect.repaired }

theorem refl (c : LruLists) (v : View) : Reclaims c c v v [] [] :=
  of_effect { Frame.refl c with refcount := rfl, freed := rfl, repaired := rfl }

theorem trans (first : Reclaims c c' v v' gone reset)
    (second : Reclaims c' c'' v' v'' gone' reset') :
    Reclaims c c'' v v'' (gone' ++ gone) (reset' ++ reset) :=
  { first.toDrops.trans second.toDrops with
    stored := fun a => by
      rw [second.stored, first.stored, List.mem_append]
      tauto
    wasStored := fun a isGone => by
      rcases List.mem_append.mp isGone with isGone | isGone
      · exact ((first.stored a).mp (second.wasStored a isGone)).1
      · exact first.wasStored a isGone
    refcount := fun a notReset => by
      rw [List.mem_append, not_or] at notReset
      rw [second.refcount a notReset.1, first.refcount a notReset.2]
    noRef := fun a isGone => by
      rw [List.mem_append]
      rcases List.mem_append.mp isGone with isGone | isGone
      · by_cases isReset : a ∈ reset
        · exact Or.inr (Or.inr isReset)
        · rcases second.noRef a isGone with noRef | isReset'
          · exact Or.inl ((first.refcount a isReset).symm.trans noRef)
          · exact Or.inr (Or.inl isReset')
      · rcases first.noRef a isGone with noRef | isReset
        · exact Or.inl noRef
        · exact Or.inr (Or.inr isReset)
    resetGone := fun a isReset => by
      rcases List.mem_append.mp isReset with isReset | isReset
      · exact List.mem_append_left _ (second.resetGone a isReset)
      · exact List.mem_append_right _ (first.resetGone a isReset)
    repaired := by rw [second.repaired, first.repaired, List.append_assoc] }

end Reclaims

/-- A chunk that is freed goes to the free list of its class, which has room or gets its first
elements from the system. -/
def SlabAllocator.FreeRoom (s : SlabAllocator) (id : ℕ) (os : Os) : Prop :=
  (s.slabclass id).slTotal ≠ 0 ∨ os.realloc (grown 0 * sizeofPointer) = true

namespace SlabAllocator.Frees

variable {s s' : SlabAllocator} {ptr : ℕ} {os : Os}

theorem firstGrowth_eq :
    signExtend (grown 0) * sizeofPointer % 2 ^ 64 = grown 0 * sizeofPointer := by
  decide

theorem slots_ne_nil (frees : Frees s s' id ptr os) (noSlots : (s.slabclass id).slots = [])
    (room : s.FreeRoom id os) : (s'.slabclass id).slots ≠ [] := by
  rcases frees.slots with ⟨slots, -⟩ | ⟨-, full, refused⟩
  · simp [slots]
  · rw [noSlots] at full
    rcases room with positive | granted
    · exact absurd full.symm positive
    · rw [← full, List.length_nil, firstGrowth_eq, granted] at refused
      simp at refused

theorem slabs_eq (frees : Frees s s' id ptr os) (noSlots : (s.slabclass id).slots = [])
    (noRoom : ¬s.FreeRoom id os) : s' = s := by
  rcases frees.slots with ⟨-, granted⟩ | ⟨same, -⟩
  · have isZero : (s.slabclass id).slTotal = 0 := by
      by_contra positive
      exact noRoom (Or.inl positive)
    rw [noSlots, isZero, firstGrowth_eq] at granted
    exact absurd (Or.inr (granted rfl)) noRoom
  · exact same

end SlabAllocator.Frees

/-- A part of an allocation that searches a list and unlinks the item it picked, when the free
list of the class is empty. What it gives back is on the free list, or lost. -/
structure MakesRoom (keys : Set (List UInt8)) (c c' : LruLists) (v v' : View) (id : ℕ)
    (search : Option ℕ) (reset : List ℕ) (os : Os) : Prop
    extends Reclaims c c' v v' search.toList reset where
  inv : CacheInv keys c' v'
  slots : search.isSome = true → c.slabs.FreeRoom id os → (c'.slabs.slabclass id).slots ≠ []
  slabs : ¬(search.isSome = true ∧ c.slabs.FreeRoom id os) → c'.slabs = c.slabs
  time : c'.mem.time = c.mem.time
  lists : ∀ it, search = some it → v'.lists id = (v.lists id).erase it
  unchanged : search = none → c' = c

namespace MakesRoom

variable {c' : LruLists} {v' : View} {reset : List ℕ} {os : Os}

theorem of_none (inv : CacheInv keys c v) : MakesRoom keys c c v v id none [] os :=
  { Reclaims.refl c v with
    inv := inv
    slots := by simp
    slabs := fun _ => rfl
    time := rfl
    lists := by simp
    unchanged := fun _ => rfl }

end MakesRoom

namespace LruLists

/-- An item of the list that nobody refers to is unlinked and given back. -/
theorem doItemUnlink_makesRoom (inv : CacheInv keys c v) (keySet : KeySet keys)
    (inList : it ∈ v.lists id) (noRef : c.mem.refcount it = 0)
    (noSlots : (c.slabs.slabclass id).slots = []) {os : Os}
    (fits : ∀ n, os.realloc n = true → n ≤ userSpace) :
    ∃ c' v', c.doItemUnlink it os = .ok c' ∧ MakesRoom keys c c' v v' id (some it) [] os := by
  have isStored := (inv.mem_stored it).mpr ⟨id, inList⟩
  have cls := inv.clsid id it ((inv.mem_list id it).mp inList).1
  rcases doItemUnlink_eq inv keySet (inv.live_of_stored isStored) fits with
    ⟨c', v', run, inv', unlinks⟩
  have drops := unlinks.drops
  rw [if_pos ⟨isStored, noRef⟩] at drops
  have frees := unlinks.frees isStored noRef
  have lists := unlinks.lists isStored
  rw [cls] at frees lists
  exact ⟨c', v', run, { drops with
    stored := fun a => by simp [unlinks.stored, and_comm]
    wasStored := by simpa using isStored
    refcount := fun a _ => congrFun unlinks.refcount a
    noRef := by simp [noRef]
    resetGone := by simp
    repaired := unlinks.repaired
    inv := inv'
    slots := fun _ room => frees.slots_ne_nil noSlots room
    slabs := fun noRoom => frees.slabs_eq noSlots fun room => noRoom ⟨rfl, room⟩
    time := unlinks.time
    lists := fun a same => by
      rw [lists, Function.update_self, Option.some.inj same]
    unchanged := by simp }⟩

theorem evict_eq (inv : CacheInv keys c v) (keySet : KeySet keys)
    (noSlots : (c.slabs.slabclass id).slots = []) {os : Os}
    (fits : ∀ n, os.realloc n = true → n ≤ userSpace) :
    ∃ c' v', c.evict id os = .ok c' ∧ MakesRoom keys c c' v v' id
      (searchTail c.mem (evicts c.mem) searchItems (c.tails id)) [] os := by
  unfold evict
  cases found : searchTail c.mem (evicts c.mem) searchItems (c.tails id) with
  | none => exact ⟨c, v, rfl, .of_none inv⟩
  | some search =>
      rcases of_searchTail inv found with ⟨inList, picked⟩
      have noRef : c.mem.refcount search = 0 := by simpa [evicts] using picked
      exact doItemUnlink_makesRoom inv keySet inList noRef noSlots fits

theorem tailRepair_eq (inv : CacheInv keys c v) (keySet : KeySet keys)
    (noSlots : (c.slabs.slabclass id).slots = []) (now : ℕ) {os : Os}
    (fits : ∀ n, os.realloc n = true → n ≤ userSpace) :
    ∃ c' v' reset, c.tailRepair id now os = .ok c' ∧ MakesRoom keys c c' v v' id
      (searchTail c.mem (repairs c.mem now) searchItems (c.tails id)) reset os := by
  unfold tailRepair
  cases found : searchTail c.mem (repairs c.mem now) searchItems (c.tails id) with
  | none => exact ⟨c, v, [], rfl, .of_none inv⟩
  | some search =>
      rcases of_searchTail inv found with ⟨inList, -⟩
      have inv₁ : CacheInv keys { c with
          mem := { c.mem with refcount := Function.update c.mem.refcount search 0 }
          repaired := search :: c.repaired } v :=
        { inv.setRefcount (Function.update c.mem.refcount search 0) with }
      rcases doItemUnlink_makesRoom inv₁ keySet inList
        (Function.update_self ..) noSlots fits with ⟨c', v', run, room⟩
      refine ⟨c', v', [search], run, { room with
        refcount := fun a notReset => ?_
        noRef := by simp
        resetGone := by simp
        repaired := room.repaired
        unchanged := by simp }⟩
      rw [room.refcount a (by simp)]
      exact Function.update_of_ne (by simpa using notReset) _ _

end LruLists

namespace LruLists

@[simp]
theorem freeRoom_resize {listSize : ℕ} {os : Os} :
    (c.resize id listSize).slabs.FreeRoom id os ↔ c.slabs.FreeRoom id os := by
  simp [SlabAllocator.FreeRoom, resize]

end LruLists

/-- The request after a search gets the chunk that the search gave back, or one of a new page. -/
theorem MakesRoom.request {c' : LruLists} {v' : View} {search : Option ℕ} {reset : List ℕ}
    {os os' : Os} (room : MakesRoom keys c c' v v' id search reset os) (used : c.slabs.Used id)
    (drained : c.slabs.Drained id) (sane : os'.Sane c.slabs) (ntotal : ℕ) :
    (∃ listSize, c'.slabsAlloc ntotal id os' = .ok (c'.resize id listSize, none) ∧
        CacheInv keys (c'.resize id listSize) v' ∧ c'.slabs = c.slabs ∧
        c.slabs.Refuses id listSize os' ∧ ¬(search.isSome = true ∧ c.slabs.FreeRoom id os)) ∨
      ∃ d a, c'.slabsAlloc ntotal id os' = .ok (d, some a) ∧ Obtains keys c' d v' id a ∧
        (search.isSome = true ∧ c.slabs.FreeRoom id os ∨ c.slabs.PageGranted id [] os') := by
  have used' : c'.slabs.Used id := by rwa [SlabAllocator.Used, room.table.powerLargest]
  rcases LruLists.slabsAlloc_cases room.inv (room.sane sane) ntotal id with
    ⟨listSize, run, inv, refuses⟩ | ⟨d, a, run, obtains, offers⟩
  · have notFreed : ¬(search.isSome = true ∧ c.slabs.FreeRoom id os) := by
      intro freed
      exact room.slots freed.1 freed.2 (refuses used').slots
    have sameSlabs := room.slabs notFreed
    exact Or.inl ⟨listSize, run, inv, sameSlabs, sameSlabs ▸ refuses used', notFreed⟩
  · refine Or.inr ⟨d, a, run, obtains, ?_⟩
    by_cases found : search.isSome = true ∧ c.slabs.FreeRoom id os
    · exact Or.inl found
    · rw [room.slabs found] at offers
      exact Or.inr (drained.pageGranted offers)

end ChaosCache
