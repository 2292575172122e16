import ChaosCache.Lru.Reclaiming

/-!
# The lists without the table

`Skeleton` says what the lists rest on when the hash table is left out: which chunks are handed out,
and that the lists hold those that are linked. So it does not depend on the keys, on the lengths of
values or on the number of items, and it asks for nothing but a section that returns.

For each operation there is one lemma, which says what a section that returned has done to the
lists, the times and the reference counts.
-/

namespace ChaosCache

open Blocks Links

variable {c c' c'' : LruLists} {lists lists' out out' : ℕ → List ℕ} {it id : ℕ} {os : Os}

/-! ## What the table writes -/

namespace AssociativeArray

variable {t t' : AssociativeArray} {mem mem' : Mem} {hash : UInt32} {key : List UInt8}

/-- An insertion writes no field of an item but the link of its chain. -/
theorem mem_of_assocInsert {expansion : Expansion}
    (run : t.assocInsert mem it expansion = .ok (t', mem')) :
    ∃ hNext, mem' = { mem with hNext } := by
  rcases bind_eq_ok.mp run with ⟨found, -, rest⟩
  rcases bind_eq_ok.mp rest with ⟨-, -, rest⟩
  rcases bind_eq_ok.mp rest with ⟨head, -, rest⟩
  simp only at rest
  split at rest
  · cases rest
    exact ⟨_, rfl⟩
  · cases rest
    exact ⟨_, rfl⟩

theorem mem_of_assocDelete (run : t.assocDelete mem hash key = .ok (t', mem')) :
    ∃ hNext, mem' = { mem with hNext } := by
  rcases bind_eq_ok.mp run with ⟨⟨before, found⟩, -, rest⟩
  cases found with
  | none => cases rest
  | some it =>
      cases before with
      | slot slot =>
          cases rest
          exact ⟨_, rfl⟩
      | hNext item =>
          cases rest
          exact ⟨_, rfl⟩

theorem mem_of_migrateFrom {fuel : ℕ} {start : Option ℕ}
    (run : migrateFrom fuel start t mem = .ok (t', mem')) : ∃ hNext, mem' = { mem with hNext } := by
  induction fuel generalizing start t mem with
  | zero => cases run
  | succ fuel ih =>
      cases start with
      | none =>
          cases run
          exact ⟨_, rfl⟩
      | some it =>
          simp only [migrateFrom] at run
          rcases ih run with ⟨hNext, rfl⟩
          exact ⟨hNext, rfl⟩

theorem mem_of_maintenancePass (run : t.maintenancePass mem = .ok (t', mem')) :
    ∃ hNext, mem' = { mem with hNext } := by
  simp only [maintenancePass] at run
  split at run
  · rcases bind_eq_ok.mp run with ⟨first, -, rest⟩
    rcases bind_eq_ok.mp rest with ⟨⟨t₁, mem₁⟩, migrated, done⟩
    cases done
    exact mem_of_migrateFrom migrated
  · cases run
    exact ⟨_, rfl⟩

end AssociativeArray

/-! ## The skeleton -/

/-- The lists hold the items that are handed out and linked, each in the list of its class. -/
structure Skeleton (c : LruLists) (lists out : ℕ → List ℕ) : Prop where
  order : ListsInv c.mem.next c.mem.prev c.heads c.tails c.sizes lists
  slabs : ∃ lost, SlabInv c.slabs out lost
  mem_list : ∀ id a, a ∈ lists id ↔ a ∈ out id ∧ c.mem.itemLinked a = true
  clsid : ∀ id, ∀ a ∈ out id, c.mem.slabsClsid a = id
  unused : ∀ id, ∀ a ∈ (c.slabs.slabclass id).chunks, a ∉ out id →
    c.mem.slabsClsid a = 0 ∧ c.mem.itemLinked a = false
  range : c.slabs.powerLargest < powerLargest
  room : ∀ id, (c.slabs.slabclass id).slTotal < 2 ^ 31

theorem CacheInv.skeleton {keys : Set (List UInt8)} {v : View} (inv : CacheInv keys c v) :
    Skeleton c v.lists v.out :=
  { inv with
    order := inv.lists
    slabs := ⟨v.lost, inv.slabs⟩
    range := inv.range.2 }

/-- The slab lists of a cache stay short. -/
theorem CacheInv.few {keys : Set (List UInt8)} {v : View} (inv : CacheInv keys c v) (id : ℕ) :
    (c.slabs.slabclass id).slabList.length < 2 ^ 31 :=
  inv.slabs.few inv.pages id

namespace Skeleton

theorem isChunk (inv : Skeleton c lists out) (handedOut : it ∈ out id) :
    it ∈ (c.slabs.slabclass id).chunks := by
  rcases inv.slabs with ⟨lost, slabs⟩
  exact slabs.mem_chunks_of_mem_out handedOut

theorem class_unique (inv : Skeleton c lists out) {id' : ℕ}
    (isChunk : it ∈ (c.slabs.slabclass id).chunks)
    (isChunk' : it ∈ (c.slabs.slabclass id').chunks) : id = id' := by
  rcases inv.slabs with ⟨lost, slabs⟩
  exact slabs.class_unique isChunk isChunk'

theorem class_of_mem_out (inv : Skeleton c lists out) {id' : ℕ} (handedOut : it ∈ out id)
    (handedOut' : it ∈ out id') : id = id' :=
  (inv.clsid id it handedOut).symm.trans (inv.clsid id' it handedOut')

theorem mem_out_of_mem_list (inv : Skeleton c lists out) (inList : it ∈ lists id) : it ∈ out id :=
  ((inv.mem_list id it).mp inList).1

theorem clsid_of_mem_list (inv : Skeleton c lists out) (inList : it ∈ lists id) :
    c.mem.slabsClsid it = id :=
  inv.clsid id it (inv.mem_out_of_mem_list inList)

theorem inRange (inv : Skeleton c lists out) (handedOut : it ∈ out id) : id < powerLargest := by
  rcases inv.slabs with ⟨lost, slabs⟩
  exact (slabs.used_of_mem_out handedOut).2.trans_lt inv.range

theorem notMem_list (inv : Skeleton c lists out) (notLinked : c.mem.itemLinked it = false)
    (id : ℕ) : it ∉ lists id := by
  intro inList
  have linked := ((inv.mem_list id it).mp inList).2
  simp [notLinked] at linked

theorem linked_iff (inv : Skeleton c lists out) (handedOut : it ∈ out id) :
    c.mem.itemLinked it = true ↔ it ∈ lists id := by
  rw [inv.mem_list]
  simp [handedOut]

theorem setMem (inv : Skeleton c lists out) (mem : Mem) (next : mem.next = c.mem.next)
    (prev : mem.prev = c.mem.prev) (linked : mem.itemLinked = c.mem.itemLinked)
    (clsid : mem.slabsClsid = c.mem.slabsClsid) : Skeleton { c with mem } lists out :=
  { inv with
    order := by
      change ListsInv mem.next mem.prev c.heads c.tails c.sizes lists
      rw [next, prev]
      exact inv.order
    mem_list := by
      intro id a
      change _ ↔ _ ∧ mem.itemLinked a = true
      rw [linked]
      exact inv.mem_list id a
    clsid := by
      intro id a handedOut
      change mem.slabsClsid a = id
      rw [clsid]
      exact inv.clsid id a handedOut
    unused := by
      intro id a isChunk notOut
      change mem.slabsClsid a = 0 ∧ mem.itemLinked a = false
      rw [linked, clsid]
      exact inv.unused id a isChunk notOut }

end Skeleton

/-! ## Sections that take items out of lists -/

/-- What a part of a section does that takes items out of their lists, and frees those that nobody
refers to. The counters of those in `reset` are set to zero first. -/
structure Trims (c c' : LruLists) (lists lists' out out' : ℕ → List ℕ) (reset : List ℕ) : Prop
    extends Frame c c' where
  sublist : ∀ i, (lists' i).Sublist (lists i)
  out_subset : ∀ i a, a ∈ out' i → a ∈ out i
  out_kept : ∀ i a, a ∈ out i → c.mem.refcount a ≠ 0 → a ∉ reset → a ∈ out' i
  linked : ∀ a, c'.mem.itemLinked a = true → c.mem.itemLinked a = true
  refcount : ∀ a, a ∉ reset → c'.mem.refcount a = c.mem.refcount a
  time : c'.mem.time = c.mem.time
  repaired : c'.repaired = reset ++ c.repaired

namespace Trims

variable {lists'' out'' : ℕ → List ℕ} {reset reset' : List ℕ}

theorem refl (c : LruLists) (lists out : ℕ → List ℕ) : Trims c c lists lists out out [] :=
  { Frame.refl c with
    sublist := fun i => List.Sublist.refl (lists i)
    out_subset := fun _ _ handedOut => handedOut
    out_kept := fun _ _ handedOut _ _ => handedOut
    linked := fun _ isLinked => isLinked
    refcount := fun _ _ => rfl
    time := rfl
    repaired := rfl }

theorem trans (first : Trims c c' lists lists' out out' reset)
    (second : Trims c' c'' lists' lists'' out' out'' reset') :
    Trims c c'' lists lists'' out out'' (reset' ++ reset) :=
  { first.toFrame.trans second.toFrame with
    sublist := fun i => (second.sublist i).trans (first.sublist i)
    out_subset := fun i a handedOut => first.out_subset i a (second.out_subset i a handedOut)
    out_kept := by
      intro i a handedOut referred notReset
      rw [List.mem_append, not_or] at notReset
      apply second.out_kept i a (first.out_kept i a handedOut referred notReset.2) _ notReset.1
      rwa [first.refcount a notReset.2]
    linked := fun a isLinked => first.linked a (second.linked a isLinked)
    refcount := by
      intro a notReset
      rw [List.mem_append, not_or] at notReset
      rw [second.refcount a notReset.1, first.refcount a notReset.2]
    time := second.time.trans first.time
    repaired := by rw [second.repaired, first.repaired, List.append_assoc] }

end Trims

namespace Skeleton

theorem mem_out_erase (inv : Skeleton c lists out) (handedOut : it ∈ out id) (i a : ℕ) :
    a ∈ Function.update out id ((out id).erase it) i ↔ a ∈ out i ∧ a ≠ it := by
  rcases inv.slabs with ⟨lost, slabs⟩
  by_cases same : i = id
  · subst same
    rw [Function.update_self, (slabs.nodup_out i).mem_erase_iff, and_comm]
  · rw [Function.update_of_ne same, iff_self_and]
    rintro handedOut' rfl
    exact same (inv.class_of_mem_out handedOut' handedOut)

/-- The part of `do_item_unlink` before `item_free` takes the item out of its list. -/
theorem of_detach (inv : Skeleton c lists out) (inList : it ∈ lists id)
    (run : c.detach it = .ok c') :
    Skeleton c' (Function.update lists id ((lists id).erase it)) out ∧ Effect c c' ∧
      c'.mem.time = c.mem.time ∧
      c'.mem.itemLinked = Function.update c.mem.itemLinked it false := by
  have handedOut := inv.mem_out_of_mem_list inList
  have cls := inv.clsid_of_mem_list inList
  subst cls
  rcases bind_eq_ok.mp run with ⟨⟨assoc, mem⟩, deleted, unlinked⟩
  rcases AssociativeArray.mem_of_assocDelete deleted with ⟨hNext, rfl⟩
  rcases LruLists.itemUnlinkQ_eq (c := { c with
      assoc
      mem := { c.mem with
        itemLinked := Function.update c.mem.itemLinked it false
        hNext } }) inv.order (inv.inRange handedOut) inList with
    ⟨next, prev, heads, tails, sizes, unlinked', order⟩
  cases unlinked'.symm.trans unlinked
  refine ⟨{ inv with order := order, mem_list := ?_, unused := ?_ }, ?_, rfl, rfl⟩
  · intro i a
    rw [inv.order.mem_erase inList, inv.mem_list, and_assoc]
    apply and_congr_right
    intro _
    by_cases same : a = it
    · simp [same]
    · simp [same]
  · intro i a isChunk notOut
    rcases inv.unused i a isChunk notOut with ⟨noClass, notLinked⟩
    refine ⟨noClass, ?_⟩
    by_cases same : a = it
    · simp [same]
    · simpa [same] using notLinked
  · exact { Frame.refl c with refcount := rfl, freed := rfl, repaired := rfl }

theorem of_itemFree (inv : Skeleton c lists out) (handedOut : it ∈ out id)
    (fits : ∀ n, os.realloc n = true → n ≤ userSpace) (run : c.itemFree it os = .ok c') :
    Skeleton c' lists (Function.update out id ((out id).erase it)) ∧ FreeEffect c c' it ∧
      c'.mem.itemLinked = c.mem.itemLinked := by
  have cls := inv.clsid id it handedOut
  subst cls
  rcases bind_eq_ok.mp run with ⟨head, -, rest⟩
  rcases bind_eq_ok.mp rest with ⟨tail, -, rest⟩
  rcases bind_eq_ok.mp rest with ⟨_, unlinked, rest⟩
  rcases bind_eq_ok.mp rest with ⟨-, -, rest⟩
  rcases bind_eq_ok.mp rest with ⟨-, -, rest⟩
  rcases bind_eq_ok.mp rest with ⟨-, -, rest⟩
  rcases bind_eq_ok.mp rest with ⟨slabs, freed, done⟩
  cases done
  have notLinked := of_check unlinked
  rcases inv.slabs with ⟨lost, slabInv⟩
  rcases SlabAllocator.doSlabsFree_eq slabInv handedOut (fun _ _ => grown_gt (inv.room _))
    (c.mem.itemNtotal it) with ⟨slabs', lost', freed', frees, slabInv', -⟩
  cases freed'.symm.trans freed
  have differs {i a : ℕ} (stillOut : a ∈ Function.update out (c.mem.slabsClsid it)
      ((out (c.mem.slabsClsid it)).erase it) i) : a ∈ out i ∧ a ≠ it :=
    (inv.mem_out_erase handedOut i a).mp stillOut
  refine ⟨
    { order := inv.order
      slabs := ⟨lost', slabInv'⟩
      mem_list := ?_
      clsid := ?_
      unused := ?_
      range := ?_
      room := frees.room fits inv.room },
    { Frame.refl c with
      table := frees.table
      slabList := frees.slabList
      refcount := rfl
      time := rfl
      freed := rfl
      repaired := rfl }, rfl⟩
  · intro i a
    rw [inv.mem_out_erase handedOut, inv.mem_list, and_assoc]
    apply and_congr_right
    intro _
    constructor
    · intro linked
      refine ⟨?_, linked⟩
      rintro rfl
      simp [notLinked] at linked
    · exact And.right
  · intro i a stillOut
    exact (Function.update_of_ne (differs stillOut).2 _ _).trans
      (inv.clsid i a (differs stillOut).1)
  · intro i a isChunk notOut
    rw [inv.mem_out_erase handedOut, not_and_not_right] at notOut
    by_cases same : a = it
    · subst same
      exact ⟨Function.update_self .., notLinked⟩
    · have isChunk' : a ∈ (c.slabs.slabclass i).chunks := by
        simpa only [SlabClass.chunks, frees.table.size, frees.table.perslab, frees.slabList]
          using isChunk
      rcases inv.unused i a isChunk' fun handedOut' => same (notOut handedOut') with
        ⟨noClass, unlinked'⟩
      exact ⟨(Function.update_of_ne same _ _).trans noClass, unlinked'⟩
  · exact frees.table.powerLargest.symm ▸ inv.range

theorem trims_of_free (inv : Skeleton c lists out) (handedOut : it ∈ out id)
    (noRef : c.mem.refcount it = 0) (frees : FreeEffect c c' it)
    (linked : c'.mem.itemLinked = c.mem.itemLinked) :
    Trims c c' lists lists out (Function.update out id ((out id).erase it)) [] :=
  { frees.toFrame with
    sublist := fun i => List.Sublist.refl (lists i)
    out_subset := fun i a stillOut => ((inv.mem_out_erase handedOut i a).mp stillOut).1
    out_kept := by
      intro i a handedOut' referred _
      refine (inv.mem_out_erase handedOut i a).mpr ⟨handedOut', ?_⟩
      rintro rfl
      exact referred noRef
    linked := by simp [linked]
    refcount := fun a _ => congrFun frees.refcount a
    time := frees.time
    repaired := frees.repaired }

theorem of_doItemUnlink (inv : Skeleton c lists out) (handedOut : it ∈ out id)
    (fits : ∀ n, os.realloc n = true → n ≤ userSpace) (run : c.doItemUnlink it os = .ok c') :
    ∃ lists' out', Skeleton c' lists' out' ∧ Trims c c' lists lists' out out' [] ∧
      ∀ i, it ∉ lists' i := by
  simp only [LruLists.doItemUnlink] at run
  split at run
  case isTrue linked =>
    have inList := (inv.linked_iff handedOut).mp linked
    rcases bind_eq_ok.mp run with ⟨c₁, detached, rest⟩
    rcases inv.of_detach inList detached with ⟨inv₁, effect, time, linked₁⟩
    have gone (i : ℕ) : it ∉ Function.update lists id ((lists id).erase it) i := by
      rw [inv.order.mem_erase inList]
      exact fun still => still.2 rfl
    have trims : Trims c c₁ lists (Function.update lists id ((lists id).erase it)) out out [] :=
      { effect.toFrame with
        sublist := by
          intro i
          by_cases same : i = id
          · subst same
            rw [Function.update_self]
            exact List.erase_sublist
          · rw [Function.update_of_ne same]
        out_subset := fun _ _ handedOut => handedOut
        out_kept := fun _ _ handedOut _ _ => handedOut
        linked := by
          intro a isLinked
          rw [linked₁] at isLinked
          by_cases same : a = it
          · simp [same] at isLinked
          · simpa [same] using isLinked
        refcount := fun a _ => congrFun effect.refcount a
        time := time
        repaired := effect.repaired }
    split at rest
    case isTrue noRef =>
      rcases inv₁.of_itemFree handedOut fits rest with ⟨inv₂, frees, linked₂⟩
      have freeing := inv₁.trims_of_free handedOut noRef frees linked₂
      exact ⟨_, _, inv₂, trims.trans freeing, gone⟩
    case isFalse =>
      cases rest
      exact ⟨_, _, inv₁, trims, gone⟩
  case isFalse notLinked =>
    cases run
    exact ⟨lists, out, inv, .refl c lists out, inv.notMem_list (by simpa using notLinked)⟩

theorem of_doItemRelease (inv : Skeleton c lists out) (handedOut : it ∈ out id)
    (fits : ∀ n, os.realloc n = true → n ≤ userSpace) (run : c.doItemRelease it os = .ok c') :
    ∃ out', Skeleton c' lists out' ∧ Frame c c' ∧ (∀ i a, a ∈ out' i → a ∈ out i) ∧
      (∀ i a, a ∈ out i → a ≠ it ∨ 1 < c.mem.refcount it → a ∈ out' i) ∧
      c'.mem.refcount = Function.update c.mem.refcount it (c.mem.refcount it - 1) ∧
      c'.mem.time = c.mem.time ∧ c'.mem.itemLinked = c.mem.itemLinked ∧
      c'.repaired = c.repaired := by
  have inv₁ := inv.setMem { c.mem with
    refcount := Function.update c.mem.refcount it (c.mem.refcount it - 1) } rfl rfl rfl rfl
  simp only [LruLists.doItemRelease] at run
  split at run
  case isTrue last =>
    rcases inv₁.of_itemFree handedOut fits run with ⟨inv₂, frees, linked⟩
    refine ⟨_, inv₂, { frees.toFrame with }, ?_, ?_, frees.refcount, frees.time, linked,
      frees.repaired⟩
    · intro i a stillOut
      exact ((inv.mem_out_erase handedOut i a).mp stillOut).1
    · intro i a handedOut' kept
      refine (inv.mem_out_erase handedOut i a).mpr ⟨handedOut', ?_⟩
      rintro rfl
      have noRef := last.1
      rw [Function.update_self] at noRef
      omega
  case isFalse =>
    cases run
    exact ⟨out, inv₁, { Frame.refl c with }, fun _ _ handedOut => handedOut,
      fun _ _ handedOut _ => handedOut, rfl, rfl, rfl, rfl⟩

end Skeleton

/-! ## Searches -/

namespace Skeleton

/-- A search from the tail is a search of the list from its end. -/
theorem searchTail_eq (inv : Skeleton c lists out) (picks : ℕ → Bool) (tries id : ℕ) :
    LruLists.searchTail c.mem picks tries (c.tails id) =
      ((lists id).reverse.take tries).find? picks :=
  LruLists.searchTail_eq (inv.order.list id).backward

theorem of_searchTail (inv : Skeleton c lists out) {picks : ℕ → Bool} {tries : ℕ}
    (found : LruLists.searchTail c.mem picks tries (c.tails id) = some it) :
    it ∈ lists id ∧ picks it = true := by
  rw [inv.searchTail_eq] at found
  have inList := List.mem_of_mem_take (List.mem_of_find?_eq_some found)
  exact ⟨List.mem_reverse.mp inList, List.find?_some found⟩

theorem of_evict (inv : Skeleton c lists out) (fits : ∀ n, os.realloc n = true → n ≤ userSpace)
    (run : c.evict id os = .ok c') :
    ∃ lists' out', Skeleton c' lists' out' ∧ Trims c c' lists lists' out out' [] := by
  simp only [LruLists.evict] at run
  split at run
  case h_1 search found =>
    have inList := (inv.of_searchTail found).1
    rcases inv.of_doItemUnlink (inv.mem_out_of_mem_list inList) fits run with
      ⟨lists', out', inv', trims, -⟩
    exact ⟨lists', out', inv', trims⟩
  case h_2 =>
    cases run
    exact ⟨lists, out, inv, .refl c lists out⟩

/-- The tail repair unlinks at most one item, and one whose time is long ago. -/
theorem of_tailRepair (inv : Skeleton c lists out) {now : ℕ}
    (fits : ∀ n, os.realloc n = true → n ≤ userSpace) (run : c.tailRepair id now os = .ok c') :
    ∃ lists' out' reset, Skeleton c' lists' out' ∧ Trims c c' lists lists' out out' reset ∧
      ∀ a ∈ reset, a ∈ lists id ∧ LruLists.repairs c.mem now a = true := by
  simp only [LruLists.tailRepair] at run
  split at run
  case h_1 search found =>
    have picked := inv.of_searchTail found
    have zeroed : Skeleton { c with
        mem := { c.mem with refcount := Function.update c.mem.refcount search 0 }
        repaired := search :: c.repaired } lists out :=
      { inv.setMem { c.mem with refcount := Function.update c.mem.refcount search 0 }
          rfl rfl rfl rfl with }
    have resets : Trims c { c with
        mem := { c.mem with refcount := Function.update c.mem.refcount search 0 }
        repaired := search :: c.repaired } lists lists out out [search] :=
      { Trims.refl c lists out with
        out_kept := fun _ _ handedOut _ _ => handedOut
        refcount := by
          intro a notReset
          exact Function.update_of_ne (by simpa using notReset) _ _
        repaired := rfl }
    rcases zeroed.of_doItemUnlink (inv.mem_out_of_mem_list picked.1) fits run with
      ⟨lists', out', inv', trims, -⟩
    refine ⟨lists', out', [search], inv', resets.trans trims, ?_⟩
    intro a isSearch
    rw [List.mem_singleton.mp isSearch]
    exact picked
  case h_2 =>
    cases run
    exact ⟨lists, out, [], inv, .refl c lists out, by simp⟩

end Skeleton

end ChaosCache
