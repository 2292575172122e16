import ChaosCache.DataCache.Initial
import ChaosCache.Lru.Closure
import ChaosCache.Lru.NewItems

/-!
# The item that an allocation unlinks

Whether `do_item_alloc` returns an item, and which item it unlinks for it, can be told from the
state before and from what the system grants. Nothing is asked of the keys but that the table's test
tells the linked items apart.
-/

namespace ChaosCache

open Blocks Links

variable {c c' c'' : LruLists} {lists out : ℕ → List ℕ} {it id : ℕ} {os : Os} {sys : System}

/-- The lists, the flags, the table and the allocator agree, and no linked item passes the table's
test for the key of another. -/
structure LinkedInv (c : LruLists) (lists out : ℕ → List ℕ) : Prop
    extends Skeleton c lists out where
  classes : powerSmallest ≤ c.slabs.powerLargest
  table : ∃ stored chains, AssociativeArray.TableInv c.assoc c.mem stored chains ∧
    ∀ a, a ∈ stored ↔ ∃ i, a ∈ lists i
  unshadowed : ∀ i j, ∀ a ∈ lists i, ∀ b ∈ lists j,
    c.mem.Matches (c.mem.hv a) (c.mem.key a) b → b = a

/-- With keys that the hash separates no linked item passes the test for the key of another. -/
theorem CacheInv.linkedInv {keys : Set (List UInt8)} {v : View} (inv : CacheInv keys c v)
    (keySet : KeySet keys) : LinkedInv c v.lists v.out :=
  { inv.skeleton with
    classes := inv.range.1
    table := ⟨v.stored, v.chains, inv.table, inv.mem_stored⟩
    unshadowed := by
      rintro i j a inList b inList' ⟨sameHash, sameBytes⟩
      have isStored := (inv.mem_stored a).mpr ⟨i, inList⟩
      have isStored' := (inv.mem_stored b).mpr ⟨j, inList'⟩
      rw [inv.hashes a isStored, inv.hashes b isStored'] at sameHash
      have sameLength := keySet.separated _ (inv.keys a isStored) _ (inv.keys b isStored') sameHash
      apply inv.distinct b isStored' a isStored
      rw [← sameBytes]
      simp only [Mem.key, length_readBytes] at sameLength ⊢
      rw [sameLength] }

/-- A part of an allocation that unlinks an item and gives its chunk back, which lies ready for the
next request. -/
structure GivesUp (c c' : LruLists) (lists out : ℕ → List ℕ) (id it : ℕ) : Prop
    extends Frame c c' where
  linkedInv : LinkedInv c' (Function.update lists id ((lists id).erase it))
    (Function.update out id ((out id).erase it))
  slots : (c'.slabs.slabclass id).slots = [it]
  refcount : ∀ a, a ≠ it → c'.mem.refcount a = c.mem.refcount a
  time : c'.mem.time = c.mem.time

namespace LinkedInv

/-- Changing what the table does not read. -/
theorem congr (inv : LinkedInv c lists out) {out' : ℕ → List ℕ}
    (skeleton : Skeleton c' lists out') (classes : c'.slabs.powerLargest = c.slabs.powerLargest)
    (assoc : c'.assoc = c.assoc)
    (kept : ∀ i, ∀ a ∈ lists i, c'.mem.hNext a = c.mem.hNext a ∧ SameContents c.mem c'.mem a) :
    LinkedInv c' lists out' := by
  refine { skeleton with classes := ?_, table := ?_, unshadowed := ?_ }
  · rw [classes]
    exact inv.classes
  · rcases inv.table with ⟨stored, chains, table, mem_stored⟩
    rw [assoc]
    refine ⟨stored, chains, ?_, mem_stored⟩
    apply table.congr
    · intro a isStored
      rcases (mem_stored a).mp isStored with ⟨i, inList⟩
      exact (kept i a inList).1
    · intro a isStored
      rcases (mem_stored a).mp isStored with ⟨i, inList⟩
      exact (kept i a inList).2.hv
  · intro i j a inList b inList' matched
    apply inv.unshadowed i j a inList b inList'
    have same := (kept i a inList).2
    have same' := (kept j b inList').2
    simpa only [Mem.Matches, same.hv, same.key, same'.hv, same'.bytes] using matched

theorem resize (inv : LinkedInv c lists out) {listSize : ℕ}
    (room : (c.slabs.slabclass id).slabList.length ≤ listSize) :
    LinkedInv (c.resize id listSize) lists out := by
  apply inv.congr (inv.toSkeleton.resize room) rfl rfl
  intro i a _
  exact ⟨rfl, .of_item_eq rfl⟩

/-- The table finds a linked item under its key, and drops it. -/
theorem assocDelete_eq (inv : LinkedInv c lists out) (inList : it ∈ lists id) (mem : Mem)
    (same : ∀ a, mem.hNext a = c.mem.hNext a ∧ SameContents c.mem mem a) :
    ∃ assoc hNext, c.assoc.assocDelete mem (mem.hv it) (mem.key it) =
        .ok (assoc, { mem with hNext }) ∧
      ∃ stored chains, AssociativeArray.TableInv assoc { mem with hNext } stored chains ∧
        ∀ a, a ∈ stored ↔ (∃ i, a ∈ lists i) ∧ a ≠ it := by
  rcases inv.table with ⟨stored, chains, table, mem_stored⟩
  have table' : AssociativeArray.TableInv c.assoc mem stored chains :=
    table.congr (fun a _ => (same a).1) fun a _ => (same a).2.hv
  have isStored := (mem_stored it).mpr ⟨id, inList⟩
  have own : mem.Matches (mem.hv it) (mem.key it) it := ⟨rfl, by simp [Mem.key]⟩
  have found : c.assoc.assocFind mem (mem.hv it) (mem.key it) = .ok (some it) := by
    rw [table'.assocFind_eq, Except.ok.injEq]
    cases result : (chains (c.assoc.slot (mem.hv it))).find?
        (mem.Matches (mem.hv it) (mem.key it) ·) with
    | none =>
        rw [List.find?_eq_none] at result
        have inChain := table'.mem_chain_of_matches isStored own
        exact absurd (decide_eq_true own) (result it inChain)
    | some first =>
        have isFirst := ((table'.mem_chain _ first).mp (List.mem_of_find?_eq_some result)).1
        have matched : mem.Matches (mem.hv it) (mem.key it) first := by
          simpa using List.find?_some result
        rcases (mem_stored first).mp isFirst with ⟨j, inList'⟩
        have matched' : c.mem.Matches (c.mem.hv it) (c.mem.key it) first := by
          simpa only [Mem.Matches, (same it).2.hv, (same it).2.key, (same first).2.hv,
            (same first).2.bytes] using matched
        rw [inv.unshadowed id j it inList first inList' matched']
  rcases table'.assocDelete found with ⟨assoc, hNext, deleted, table''⟩
  refine ⟨assoc, hNext, deleted, _, _, table'', ?_⟩
  intro a
  rw [Finset.mem_erase, mem_stored]
  exact and_comm

theorem detach_eq (inv : LinkedInv c lists out) (inList : it ∈ lists id) :
    ∃ c₁, c.detach it = .ok c₁ ∧
      LinkedInv c₁ (Function.update lists id ((lists id).erase it)) out ∧ Effect c c₁ ∧
      c₁.slabs = c.slabs ∧ c₁.mem.time = c.mem.time ∧ c₁.mem.itemLinked it = false := by
  have handedOut := inv.mem_out_of_mem_list inList
  have cls := inv.clsid_of_mem_list inList
  rcases inv.assocDelete_eq inList { c.mem with
      itemLinked := Function.update c.mem.itemLinked it false }
      (fun a => ⟨rfl, rfl, rfl, rfl, rfl⟩) with
    ⟨assoc, hNext, deleted, stored, chains, table, mem_stored⟩
  rcases LruLists.itemUnlinkQ_eq (c := { c with
      assoc
      mem := { c.mem with
        itemLinked := Function.update c.mem.itemLinked it false
        hNext } }) inv.order (cls ▸ inv.inRange handedOut) (cls ▸ inList) with
    ⟨next, prev, heads, tails, sizes, unlinked, -⟩
  have run : c.detach it = .ok { c with
      assoc
      mem := { c.mem with
        itemLinked := Function.update c.mem.itemLinked it false
        hNext
        next
        prev }
      heads
      tails
      sizes } := bind_of_ok deleted unlinked
  rcases inv.of_detach inList run with ⟨skeleton, effect, time, linked⟩
  refine ⟨_, run, { skeleton with classes := inv.classes, table := ?_, unshadowed := ?_ }, effect,
    rfl, time, by rw [linked, Function.update_self]⟩
  · refine ⟨stored, chains, table.congr (fun _ _ => rfl) (fun _ _ => rfl), ?_⟩
    intro a
    simp only [mem_stored, inv.order.mem_erase inList, exists_and_right]
  · intro i j a inList₁ b inList₁' matched
    have wasIn := ((inv.order.mem_erase inList i a).mp inList₁).1
    have wasIn' := ((inv.order.mem_erase inList j b).mp inList₁').1
    exact inv.unshadowed i j a wasIn b wasIn' matched

/-- An item without references is unlinked and freed, and its chunk is the only one on the free
list. -/
theorem doItemUnlink_eq (inv : LinkedInv c lists out) (inList : it ∈ lists id)
    (noRef : c.mem.refcount it = 0) (noSlots : (c.slabs.slabclass id).slots = [])
    (room : c.slabs.FreeRoom id os) (fits : ∀ n, os.realloc n = true → n ≤ userSpace) :
    ∃ c', c.doItemUnlink it os = .ok c' ∧ GivesUp c c' lists out id it := by
  have linked := ((inv.mem_list id it).mp inList).2
  have handedOut := inv.mem_out_of_mem_list inList
  rcases inv.detach_eq inList with ⟨c₁, detached, inv₁, effect, sameSlabs, time, notLinked⟩
  have noRef₁ : c₁.mem.refcount it = 0 := by rw [effect.refcount, noRef]
  have cls := inv₁.clsid id it handedOut
  have gone (i : ℕ) : it ∉ Function.update lists id ((lists id).erase it) i := by
    rw [inv.order.mem_erase inList]
    exact fun still => still.2 rfl
  have notHead := (inv₁.order.not_head (gone (c₁.mem.slabsClsid it))).symm
  have notTail := (inv₁.order.not_tail (gone (c₁.mem.slabsClsid it))).symm
  have inRange : c₁.mem.slabsClsid it < powerLargest := cls ▸ inv.inRange handedOut
  rcases inv₁.slabs with ⟨lost, slabInv⟩
  rcases SlabAllocator.doSlabsFree_eq slabInv handedOut (fun _ _ => grown_gt (inv₁.room id))
    (c₁.mem.itemNtotal it) with ⟨slabs, lost', freed, frees, -, -⟩
  have run : c₁.itemFree it os = .ok { c₁ with
      slabs
      mem := { c₁.mem with
        slabsClsid := Function.update c₁.mem.slabsClsid it 0
        itemSlabbed := Function.update c₁.mem.itemSlabbed it true }
      freed := it :: c₁.freed } := by
    simp only [LruLists.itemFree, LruLists.head, LruLists.tail, if_pos inRange, ok_bind,
      check_eq_ok notLinked, check_eq_ok notHead, check_eq_ok notTail, check_eq_ok noRef₁]
    exact bind_of_ok (cls.symm ▸ freed) rfl
  rcases inv₁.of_itemFree handedOut fits run with ⟨skeleton, effect', -⟩
  have inv₂ := inv₁.congr skeleton frees.table.powerLargest rfl
    fun i a _ => ⟨rfl, .of_frame effect'.toFrame a⟩
  have slots : (slabs.slabclass id).slots = [it] := by
    rw [sameSlabs] at frees
    rcases frees.slots with ⟨slots, -⟩ | ⟨same, full, refused⟩
    · rw [slots, noSlots]
    · have nonempty := frees.slots_ne_nil noSlots room
      rw [same, noSlots] at nonempty
      exact absurd rfl nonempty
  refine ⟨_, ?_, { effect.toFrame.trans effect'.toFrame with
    linkedInv := inv₂
    slots := slots
    refcount := fun a _ => congrFun (effect'.refcount.trans effect.refcount) a
    time := effect'.time.trans time }⟩
  rw [LruLists.doItemUnlink, if_pos linked]
  exact bind_of_ok detached ((if_pos noRef₁).trans run)

/-! ## Requests -/

/-- A request is refused, and gives the slab list of its class room at most, or it is not. -/
theorem slabsAlloc_cases (inv : LinkedInv c lists out) (sane : os.Sane c.slabs)
    (few : (c.slabs.slabclass id).slabList.length < 2 ^ 31) (used : c.slabs.Used id)
    (ntotal : ℕ) :
    (∃ listSize, c.slabsAlloc ntotal id os = .ok (c.resize id listSize, none) ∧
        LinkedInv (c.resize id listSize) lists out ∧ c.slabs.Refuses id listSize os) ∨
      ∃ c' a, c.slabsAlloc ntotal id os = .ok (c', some a) ∧ c.slabs.Offers id [] os := by
  rcases inv.slabs with ⟨lost, slabInv⟩
  have grows := SlabClass.listGrows few os
  rcases SlabAllocator.doSlabsAlloc_cases slabInv sane.fresh grows c.mem ntotal with
    ⟨listSize, room, run, refuses⟩ | ⟨slabs, mem, a, run, -, -, -, -, -, offers⟩
  · exact Or.inl ⟨listSize, bind_of_ok run rfl, inv.resize room, refuses used⟩
  · exact Or.inr ⟨_, a, bind_of_ok run rfl, offers⟩

/-- A chunk that is handed out is filled in, as an item that is not linked. -/
theorem fill (inv : LinkedInv c lists out) (sane : os.Sane c.slabs)
    (few : (c.slabs.slabclass id).slabList.length < 2 ^ 31) (used : c.slabs.Used id)
    {ntotal a : ℕ} (run : c.slabsAlloc ntotal id os = .ok (c', some a)) {key : List UInt8}
    (nbytes : ℤ) (fits : sizeofHashItem + key.length ≤ (c.slabs.slabclass id).size) :
    ∃ c'', c'.initItem a id key nbytes = .ok c'' ∧
      LinkedInv c'' lists (Function.update out id (a :: out id)) ∧
      Fills c c'' out (Function.update out id (a :: out id)) a ∧
      c''.mem = c'.mem.newItem a id key nbytes := by
  have table := LruLists.sameTable_of_slabsAlloc run
  have assoc : c'.assoc = c.assoc := by
    rcases bind_eq_ok.mp run with ⟨⟨slabs, mem, chunk⟩, -, done⟩
    cases done
    rfl
  rcases inv.of_slabsAlloc sane few run with ⟨none, -⟩ | ⟨a', isChunk, hands⟩
  · cases none
  cases isChunk
  rcases hands.slabs with ⟨lost, slabInv⟩
  have isChunk := slabInv.mem_chunks_of_mem_out ((hands.mem_out id a).mpr (Or.inr ⟨rfl, rfl⟩))
  have noClass := (hands.unused id a isChunk (hands.fresh id)).1
  have notListed : a ∉ lists id := fun inList => hands.fresh id ((hands.mem_list id a).mp inList).1
  have notHead := (hands.order.not_head notListed).symm
  have inRange : id < powerLargest := used.2.trans_lt inv.range
  have small : id < 2 ^ 8 := by
    simp only [powerLargest] at inRange
    omega
  have enough : ¬(c'.slabs.slabclass id).size < sizeofHashItem + key.length := by
    rw [table.size]
    omega
  have filled : c'.initItem a id key nbytes =
      .ok { c' with mem := c'.mem.newItem a id key nbytes } := by
    simp only [LruLists.initItem, check_eq_ok noClass, ok_bind, Nat.mod_eq_of_lt small,
      LruLists.head, if_pos inRange, check_eq_ok notHead, if_neg enough, Mem.newItem]
    rfl
  rcases hands.of_initItem small filled with ⟨skeleton, fills⟩
  refine ⟨_, filled, ?_, fills, rfl⟩
  apply inv.congr skeleton table.powerLargest assoc
  intro i b inList
  have same := fills.item i b (inv.mem_out_of_mem_list inList)
  exact ⟨congrArg HashItem.hNext same, .of_item_eq same⟩

end LinkedInv

/-- A request is served from the free list. -/
theorem LruLists.slabsAlloc_of_slots {rest : List ℕ} (used : c.slabs.Used id)
    (slots : (c.slabs.slabclass id).slots = it :: rest) (ntotal : ℕ) (os : Os) :
    ∃ c', c.slabsAlloc ntotal id os = .ok (c', some it) := by
  have accepted : ¬(id < powerSmallest ∨ c.slabs.powerLargest < id) := by
    unfold SlabAllocator.Used at used
    omega
  have nonempty : ¬((c.slabs.slabclass id).endPagePtr = none ∧
      (c.slabs.slabclass id).slots = []) := by
    simp [slots]
  have taken : ∃ slabs, c.slabs.takeChunk ntotal id = .ok (slabs, some it) := by
    simp only [SlabAllocator.takeChunk, slots]
    exact ⟨_, rfl⟩
  rcases taken with ⟨slabs, taken⟩
  have allocated : c.slabs.doSlabsAlloc c.mem ntotal id os = .ok (slabs, c.mem, some it) := by
    simp only [SlabAllocator.doSlabsAlloc, if_neg accepted, if_neg nonempty, pure_eq_ok, ok_bind,
      if_true, taken]
  exact ⟨_, bind_of_ok allocated rfl⟩

/-! ## Searches -/

/-- The items that a search of `do_item_alloc` looks at, in this order. -/
def nearTail (lists : ℕ → List ℕ) (id : ℕ) : List ℕ := (lists id).reverse.take searchItems

theorem mem_list_of_nearTail {picks : ℕ → Bool}
    (found : (nearTail lists id).find? picks = some it) : it ∈ lists id :=
  List.mem_reverse.mp (List.mem_of_mem_take (List.mem_of_find?_eq_some found))

namespace LinkedInv

open LruLists

theorem evict_eq (inv : LinkedInv c lists out) (noSlots : (c.slabs.slabclass id).slots = [])
    (room : c.slabs.FreeRoom id os) (fits : ∀ n, os.realloc n = true → n ≤ userSpace) :
    ((nearTail lists id).find? (evicts c.mem) = none ∧ c.evict id os = .ok c) ∨
      ∃ x c', (nearTail lists id).find? (evicts c.mem) = some x ∧ c.evict id os = .ok c' ∧
        GivesUp c c' lists out id x := by
  have search := inv.searchTail_eq (evicts c.mem) searchItems id
  cases found : (nearTail lists id).find? (evicts c.mem) with
  | none =>
      refine Or.inl ⟨rfl, ?_⟩
      rw [evict, search.trans found]
  | some x =>
      have noRef : c.mem.refcount x = 0 := by simpa [evicts] using List.find?_some found
      rcases inv.doItemUnlink_eq (mem_list_of_nearTail found) noRef noSlots room fits with
        ⟨c', run, gives⟩
      refine Or.inr ⟨x, c', rfl, ?_, gives⟩
      rw [evict, search.trans found]
      exact run

theorem tailRepair_eq (inv : LinkedInv c lists out) (noSlots : (c.slabs.slabclass id).slots = [])
    (room : c.slabs.FreeRoom id os) (fits : ∀ n, os.realloc n = true → n ≤ userSpace) (now : ℕ) :
    ((nearTail lists id).find? (repairs c.mem now) = none ∧ c.tailRepair id now os = .ok c) ∨
      ∃ x c', (nearTail lists id).find? (repairs c.mem now) = some x ∧
        c.tailRepair id now os = .ok c' ∧ GivesUp c c' lists out id x := by
  have search := inv.searchTail_eq (repairs c.mem now) searchItems id
  cases found : (nearTail lists id).find? (repairs c.mem now) with
  | none =>
      refine Or.inl ⟨rfl, ?_⟩
      rw [tailRepair, search.trans found]
  | some x =>
      have skeleton : Skeleton { c with
          mem := { c.mem with refcount := Function.update c.mem.refcount x 0 }
          repaired := x :: c.repaired } lists out :=
        { inv.setMem { c.mem with refcount := Function.update c.mem.refcount x 0 }
          rfl rfl rfl rfl with }
      have zeroed := inv.congr skeleton rfl rfl fun i a _ => ⟨rfl, rfl, rfl, rfl, rfl⟩
      rcases zeroed.doItemUnlink_eq (mem_list_of_nearTail found) (Function.update_self ..) noSlots
        room fits with ⟨c', run, gives⟩
      refine Or.inr ⟨x, c', rfl, ?_, { gives with refcount := ?_ }⟩
      · rw [tailRepair, search.trans found]
        exact run
      · intro a other
        rw [gives.refcount a other]
        exact Function.update_of_ne other _ _

end LinkedInv

/-! ## The attempts -/

/-- The item that an allocation unlinks. The class is used up and gets no page at the attempt
before: the first one for the item next to the tail that nobody refers to, and the second one, if
there is no such item, for the item next to the tail whose references are old. -/
structure Victim (c : LruLists) (lists : ℕ → List ℕ) (id : ℕ) (sys : System) (it : ℕ) : Prop where
  drained : c.slabs.Drained id
  noPage : ¬c.slabs.PageGranted id [] (sys.os 0)
  search : (nearTail lists id).find? (LruLists.evicts c.mem) = some it ∨
    (nearTail lists id).find? (LruLists.evicts c.mem) = none ∧
      ¬c.slabs.PageGranted id [sys.os 0] (sys.os 2) ∧
        (nearTail lists id).find? (LruLists.repairs c.mem (sys.now 0)) = some it

/-- The class is used up, no attempt that is made gets a page, and both searches fail. Without a
list there are no further attempts. Times are compared as the code compares them, in 32 bits. -/
structure Exhausted (c : LruLists) (lists : ℕ → List ℕ) (id : ℕ) (sys : System) : Prop where
  drained : c.slabs.Drained id
  noPage : ¬c.slabs.PageGranted id [] (sys.os 0)
  noPageLater : lists id ≠ [] → ¬c.slabs.PageGranted id [sys.os 0] (sys.os 2) ∧
    ¬c.slabs.PageGranted id [sys.os 2, sys.os 0] (sys.os 4)
  referred : ∀ a ∈ nearTail lists id, c.mem.refcount a ≠ 0
  recent : ∀ a ∈ nearTail lists id, ¬(0 < c.mem.refcount a ∧
    (c.mem.time a + tailRepairTime) % 2 ^ 32 < sys.now 0 % 2 ^ 32)

/-- How the attempts to get a chunk end. -/
inductive Ends (c : LruLists) (lists out : ℕ → List ℕ) (id : ℕ) (sys : System) (ntotal : ℕ) :
    Result (LruLists × Option ℕ) → Prop
  | exhausted (listSize : ℕ) (inv : LinkedInv (c.resize id listSize) lists out)
      (exhausted : Exhausted c lists id sys) :
      Ends c lists out id sys ntotal (.ok (c.resize id listSize, none))
  | offered (listSize : ℕ) (os : Os) (c' : LruLists) (a : ℕ)
      (inv : LinkedInv (c.resize id listSize) lists out)
      (sane : os.Sane (c.resize id listSize).slabs)
      (run : (c.resize id listSize).slabsAlloc ntotal id os = .ok (c', some a))
      (notExhausted : ¬Exhausted c lists id sys) (noVictim : ∀ x, ¬Victim c lists id sys x) :
      Ends c lists out id sys ntotal (.ok (c', some a))
  | evicted (c₁ : LruLists) (os : Os) (c' : LruLists) (a : ℕ) (gives : GivesUp c c₁ lists out id a)
      (sane : os.Sane c₁.slabs) (run : c₁.slabsAlloc ntotal id os = .ok (c', some a))
      (victim : Victim c lists id sys a) : Ends c lists out id sys ntotal (.ok (c', some a))

theorem Victim.not_exhausted (victim : Victim c lists id sys it) : ¬Exhausted c lists id sys := by
  intro exhausted
  rcases victim.search with found | ⟨-, -, found⟩
  · have noRef : c.mem.refcount it = 0 := by simpa [LruLists.evicts] using List.find?_some found
    exact exhausted.referred it (List.mem_of_find?_eq_some found) noRef
  · have old : c.mem.refcount it ≠ 0 ∧
        (c.mem.time it + tailRepairTime) % 2 ^ 32 < sys.now 0 % 2 ^ 32 := by
      simpa [LruLists.repairs] using List.find?_some found
    exact exhausted.recent it (List.mem_of_find?_eq_some found)
      ⟨Nat.pos_of_ne_zero old.1, old.2⟩

theorem Victim.unique {it' : ℕ} (victim : Victim c lists id sys it)
    (victim' : Victim c lists id sys it') : it = it' := by
  rcases victim.search with found | ⟨none, -, found⟩
  · rcases victim'.search with found' | ⟨none', -, -⟩
    · exact Option.some.inj (found.symm.trans found')
    · exact absurd (none'.symm.trans found) (Option.some_ne_none it).symm
  · rcases victim'.search with found' | ⟨-, -, found'⟩
    · exact absurd (none.symm.trans found') (Option.some_ne_none it').symm
    · exact Option.some.inj (found.symm.trans found')

theorem resize_resize (listSize listSize' : ℕ) :
    (c.resize id listSize).resize id listSize' = c.resize id listSize' := by
  simp [LruLists.resize]

theorem resize_self : c.resize id (c.slabs.slabclass id).listSize = c :=
  congrArg (fun slabs => { c with slabs }) (SlabAllocator.setClass_self c.slabs id)

theorem untouched_resize (c : LruLists) (id listSize : ℕ) :
    c.slabs.Untouched (c.resize id listSize).slabs := by
  have same (i : ℕ) : i ≠ id →
      (c.resize id listSize).slabs.slabclass i = c.slabs.slabclass i :=
    fun other => SlabAllocator.slabclass_setClass_of_ne other _
  refine ⟨rfl, ?_, ?_, ?_, ?_⟩
  all_goals
    intro i
    by_cases isId : i = id
    · subst isId
      simp [LruLists.resize]
    · rw [same i isId]

theorem GivesUp.of_resize {listSize : ℕ}
    (gives : GivesUp (c.resize id listSize) c' lists out id it) :
    GivesUp c c' lists out id it :=
  { (Effect.resize c id listSize).toFrame.trans gives.toFrame with
    linkedInv := gives.linkedInv
    slots := gives.slots
    refcount := gives.refcount
    time := gives.time }

/-- The chunk of the item that was given up is the next one to be had. -/
theorem GivesUp.request (gives : GivesUp c c' lists out id it) (used : c.slabs.Used id)
    (ntotal : ℕ) (os : Os) : ∃ c'', c'.slabsAlloc ntotal id os = .ok (c'', some it) := by
  apply LruLists.slabsAlloc_of_slots _ gives.slots
  rwa [SlabAllocator.Used, gives.table.powerLargest]

namespace LinkedInv

open LruLists

variable {ntotal listSize : ℕ}

/-- The last attempt, after the second search. -/
theorem ends_of_tailRepair (inv : LinkedInv (c.resize id listSize) lists out)
    (sane : ∀ i, (sys.os i).Sane c.slabs) (starts : sys.FreeListsStart)
    (few : (c.slabs.slabclass id).slabList.length < 2 ^ 31) (used : c.slabs.Used id)
    (drained : c.slabs.Drained id) (noPage : ¬c.slabs.PageGranted id [] (sys.os 0))
    (noPage' : ¬c.slabs.PageGranted id [sys.os 0] (sys.os 2)) (nonempty : lists id ≠ [])
    (referred : (nearTail lists id).find? (evicts c.mem) = none)
    (granted : ∀ os, (c.resize id listSize).slabs.PageGranted id [] os ↔
      c.slabs.PageGranted id [sys.os 2, sys.os 0] os) :
    Ends c lists out id sys ntotal (do
      let c ← (c.resize id listSize).tailRepair id (sys.now 0) (sys.os 3)
      c.slabsAlloc ntotal id (sys.os 4)) := by
  have effect := Effect.resize c id listSize
  have few' := (effect.slabList id).symm ▸ few
  have drained' := drained_resize drained listSize
  rcases inv.tailRepair_eq drained'.slots (Or.inr starts.2) (sane 3).fits (sys.now 0) with
    ⟨recent, run⟩ | ⟨x, c₁, found, run, gives⟩
  · rw [run, ok_bind]
    have noVictim (x : ℕ) : ¬Victim c lists id sys x := by
      intro victim
      rcases victim.search with found | ⟨-, -, found⟩
      · exact absurd (referred.symm.trans found) (Option.some_ne_none x).symm
      · exact absurd (recent.symm.trans found) (Option.some_ne_none x).symm
    rcases inv.slabsAlloc_cases (effect.sane (sane 4)) few' used ntotal with
      ⟨listSize', run, inv', refuses⟩ | ⟨c', a, run, offers⟩
    · rw [run, resize_resize]
      rw [resize_resize] at inv'
      apply Ends.exhausted listSize' inv'
      refine ⟨drained, noPage, fun _ => ⟨noPage', ?_⟩, ?_, ?_⟩
      · exact fun page => refuses.page ((granted _).mpr page)
      · intro a isNear
        simpa [evicts] using List.find?_eq_none.mp referred a isNear
      · intro a isNear old
        apply List.find?_eq_none.mp recent a isNear
        exact decide_eq_true ⟨old.1.ne', old.2⟩
    · have page := (granted _).mp (drained'.pageGranted offers)
      rw [run]
      apply Ends.offered listSize _ c' a inv (effect.sane (sane 4)) run _ noVictim
      exact fun exhausted => (exhausted.noPageLater nonempty).2 page
  · rw [run, ok_bind]
    rcases gives.of_resize.request used ntotal (sys.os 4) with ⟨c', run⟩
    rw [run]
    apply Ends.evicted c₁ _ c' x gives.of_resize (gives.of_resize.sane (sane 4)) run
    exact ⟨drained, noPage, Or.inr ⟨referred, noPage', found⟩⟩

/-- The attempts end with a chunk, or without, as the state before tells. -/
theorem obtainChunk_ends (inv : LinkedInv c lists out) (sane : ∀ i, (sys.os i).Sane c.slabs)
    (starts : sys.FreeListsStart) (few : (c.slabs.slabclass id).slabList.length < 2 ^ 31)
    (used : c.slabs.Used id) : Ends c lists out id sys ntotal (c.obtainChunk ntotal id sys) := by
  rcases inv.slabsAlloc_cases (sane 0) few used ntotal with
    ⟨listSize, first, inv₀, refuses⟩ | ⟨c', a, first, offers⟩
  · have drained := refuses.drained
    have noPage := refuses.page
    have effect := Effect.resize c id listSize
    have tail : (c.resize id listSize).tail id = .ok (c.tails id) :=
      if_pos (used.2.trans_lt inv.range)
    have isLast := (inv.order.list id).tail_eq
    cases last : c.tails id with
    | none =>
        have empty : lists id = [] := List.getLast?_eq_none_iff.mp (isLast.symm.trans last)
        have run : c.obtainChunk ntotal id sys = .ok (c.resize id listSize, none) := by
          rw [last] at tail
          exact bind_of_ok first (bind_of_ok tail rfl)
        rw [run]
        apply Ends.exhausted listSize inv₀
        refine ⟨drained, noPage, fun nonempty => absurd empty nonempty, ?_, ?_⟩
        · simp [nearTail, empty]
        · simp [nearTail, empty]
    | some t =>
        have nonempty : lists id ≠ [] := by
          intro empty
          simp [isLast, empty] at last
        rw [last] at tail
        have few₀ := (effect.slabList id).symm ▸ few
        have drained₀ := drained_resize drained listSize
        have granted := refuses.pageGranted_iff
        rcases inv₀.evict_eq drained₀.slots (Or.inr starts.1) (sane 1).fits with
          ⟨referred, evicted⟩ | ⟨x, c₁, found, evicted, gives⟩
        · rcases inv₀.slabsAlloc_cases (effect.sane (sane 2)) few₀ used ntotal with
            ⟨listSize', second, inv₁, refuses'⟩ | ⟨c', a, second, offers⟩
          · have run : c.obtainChunk ntotal id sys = (do
                let c ← (c.resize id listSize').tailRepair id (sys.now 0) (sys.os 3)
                c.slabsAlloc ntotal id (sys.os 4)) := by
              simp only [obtainChunk, first, tail, evicted, second, ok_bind, resize_resize]
            rw [run]
            rw [resize_resize] at inv₁
            apply inv₁.ends_of_tailRepair sane starts few used drained noPage _ nonempty referred
            · intro os
              rw [← resize_resize listSize listSize']
              exact (refuses'.pageGranted_iff [] os).trans (granted [sys.os 2] os)
            · exact fun page => refuses'.page ((granted [] (sys.os 2)).mpr page)
          · have page := (granted [] (sys.os 2)).mp (drained₀.pageGranted offers)
            have run : c.obtainChunk ntotal id sys = .ok (c', some a) :=
              bind_of_ok first (bind_of_ok tail (bind_of_ok evicted (bind_of_ok second rfl)))
            rw [run]
            apply Ends.offered listSize _ c' a inv₀ (effect.sane (sane 2)) second
            · exact fun exhausted => (exhausted.noPageLater nonempty).1 page
            · intro x victim
              rcases victim.search with found | ⟨-, noPage', -⟩
              · exact absurd (referred.symm.trans found) (Option.some_ne_none x).symm
              · exact noPage' page
        · have gives := gives.of_resize
          rcases gives.request used ntotal (sys.os 2) with ⟨c', second⟩
          have run : c.obtainChunk ntotal id sys = .ok (c', some x) :=
            bind_of_ok first (bind_of_ok tail (bind_of_ok evicted (bind_of_ok second rfl)))
          rw [run]
          apply Ends.evicted c₁ _ c' x gives (gives.sane (sane 2)) second
          exact ⟨drained, noPage, Or.inl found⟩
  · have run : c.obtainChunk ntotal id sys = .ok (c', some a) := bind_of_ok first rfl
    rw [run]
    have same : c.resize id (c.slabs.slabclass id).listSize = c := resize_self
    apply Ends.offered (c.slabs.slabclass id).listSize (sys.os 0) c' a
    · rwa [same]
    · rw [same]
      exact sane 0
    · rwa [same]
    · exact fun exhausted => exhausted.noPage (exhausted.drained.pageGranted offers)
    · exact fun x victim => victim.noPage (victim.drained.pageGranted offers)

end LinkedInv

/-! ## Allocation -/

/-- The class for an item. -/
def LruLists.classFor (c : LruLists) (key : List UInt8) (nbytes : ℤ) : ℕ :=
  c.slabs.slabsClsid (ntotal key.length nbytes)

/-- All lists but one as they are, and that one without an element, if there is one to go. -/
def without (lists : ℕ → List ℕ) (id : ℕ) : Option ℕ → ℕ → List ℕ
  | none => lists
  | some it => Function.update lists id ((lists id).erase it)

/-- What an allocation does that returns `a`, after it has unlinked the item `gone`, if any. -/
structure Takes (c c' : LruLists) (lists out : ℕ → List ℕ) (id : ℕ) (sys : System) (a : ℕ)
    (gone : Option ℕ) : Prop where
  victim : ∀ x, gone = some x ↔ Victim c lists id sys x
  chunk : ∀ x, gone = some x → x = a
  linkedInv : LinkedInv c' (without lists id gone)
    (Function.update (without out id gone) id (a :: without out id gone id))
  fresh : ∀ i, a ∉ without out id gone i
  contents : ∀ i, ∀ b ∈ out i, b ≠ a → SameContents c.mem c'.mem b
  refcount : ∀ i, ∀ b ∈ out i, b ≠ a → c'.mem.refcount b = c.mem.refcount b
  time : ∀ i, ∀ b ∈ out i, b ≠ a → c'.mem.time b = c.mem.time b
  refcount_new : c'.mem.refcount a = 1
  notLinked_new : c'.mem.itemLinked a = false

namespace Takes

variable {a : ℕ}

/-- A chunk that the class offers costs no item. -/
theorem of_offered {listSize : ℕ}
    (inv : LinkedInv c' lists (Function.update out id (a :: out id)))
    (fills : Fills (c.resize id listSize) c' out (Function.update out id (a :: out id)) a)
    (noVictim : ∀ x, ¬Victim c lists id sys x) : Takes c c' lists out id sys a none where
  victim := by simpa using noVictim
  chunk := by simp
  linkedInv := inv
  fresh := fills.fresh
  contents i b handedOut _ := .of_item_eq (fills.item i b handedOut)
  refcount i b handedOut _ := congrArg HashItem.refcount (fills.item i b handedOut)
  time i b handedOut _ := congrArg HashItem.time (fills.item i b handedOut)
  refcount_new := fills.refcount
  notLinked_new := fills.notLinked

/-- The chunk of the victim is filled in anew. -/
theorem of_evicted {c₁ : LruLists} {lists' out' : ℕ → List ℕ}
    (without_lists : without lists id (some a) = lists')
    (without_out : without out id (some a) = out') (gives : GivesUp c c₁ lists out id a)
    (inv : LinkedInv c' lists' (Function.update out' id (a :: out' id)))
    (fills : Fills c₁ c' out' (Function.update out' id (a :: out' id)) a)
    (victim : Victim c lists id sys a) : Takes c c' lists out id sys a (some a) := by
  subst without_lists without_out
  have item {i b : ℕ} (handedOut : b ∈ out i) (other : b ≠ a) :
      c'.mem.item b = c₁.mem.item b := by
    apply fills.item i b
    by_cases isId : i = id
    · subst isId
      simpa [without] using (List.mem_erase_of_ne other).mpr handedOut
    · simpa [without, isId] using handedOut
  refine
    { victim := ?_
      chunk := fun x same => (Option.some.inj same).symm
      linkedInv := inv
      fresh := fills.fresh
      contents := ?_
      refcount := ?_
      time := ?_
      refcount_new := fills.refcount
      notLinked_new := fills.notLinked }
  · intro x
    constructor
    · intro same
      rwa [← Option.some.inj same]
    · exact fun victim' => congrArg some (victim.unique victim')
  · intro i b handedOut other
    exact (SameContents.of_frame gives.toFrame b).trans (.of_item_eq (item handedOut other))
  · intro i b handedOut other
    exact (congrArg HashItem.refcount (item handedOut other)).trans (gives.refcount b other)
  · intro i b handedOut other
    exact (congrArg HashItem.time (item handedOut other)).trans (congrFun gives.time b)

end Takes

namespace LinkedInv

open LruLists

/-- `do_item_alloc` returns `NULL` if and only if no class is large enough or its class is
exhausted, and then leaves the items alone. Otherwise it unlinks the victim, if there is one, and
returns its chunk. -/
theorem doItemAlloc_exact (inv : LinkedInv c lists out) (sane : ∀ i, (sys.os i).Sane c.slabs)
    (starts : sys.FreeListsStart) {key : List UInt8} {nbytes : ℤ} (short : key.length < 2 ^ 16)
    (positive : 0 ≤ nbytes) (bound : nbytes < 2 ^ 31)
    (few : (c.slabs.slabclass (c.classFor key nbytes)).slabList.length < 2 ^ 31) :
    ∃ c' found, c.doItemAlloc key nbytes sys = .ok (c', found) ∧
      (found = none ↔
        (c.slabs.slabclass c.slabs.powerLargest).size < sizeofHashItem + key.length + nbytes ∨
          Exhausted c lists (c.classFor key nbytes) sys) ∧
      (found = none → c' = { c with slabs := c'.slabs } ∧ c.slabs.Untouched c'.slabs ∧
        LinkedInv c' lists out) ∧
      ∀ a, found = some a → c'.mem.key a = key ∧ (c'.mem.nbytes a : ℤ) = nbytes ∧
        ∃ gone, Takes c c' lists out (c.classFor key nbytes) sys a gone := by
  have total := ntotal_eq short positive bound
  have tooLong : c.classFor key nbytes = 0 ↔
      (c.slabs.slabclass c.slabs.powerLargest).size < sizeofHashItem + key.length + nbytes := by
    rw [classFor, SlabAllocator.slabsClsid_eq_zero inv.classes, total]
    simp only [sizeofHashItem]
    omega
  by_cases noClass : c.classFor key nbytes = 0
  · refine ⟨c, none, if_pos noClass, ?_, ?_, by simp⟩
    · simp [tooLong.mp noClass]
    · exact fun _ => ⟨rfl, ⟨rfl, fun _ => rfl, fun _ => rfl, fun _ => rfl, fun _ => rfl⟩, inv⟩
  · rcases SlabAllocator.of_slabsClsid inv.classes noClass with ⟨used, enough, -⟩
    change c.slabs.Used (c.classFor key nbytes) at used
    change ntotal key.length nbytes ≤ (c.slabs.slabclass (c.classFor key nbytes)).size at enough
    rw [total] at enough
    have fits := (Nat.le_add_right _ _).trans enough
    have ends : Ends c lists out (c.classFor key nbytes) sys (ntotal key.length nbytes)
        (c.obtainChunk (ntotal key.length nbytes) (c.classFor key nbytes) sys) :=
      inv.obtainChunk_ends sane starts few used
    generalize obtained : c.obtainChunk (ntotal key.length nbytes) (c.classFor key nbytes) sys =
      result at ends
    have recorded {c₁ c' : LruLists} {a : ℕ}
        (mem : c'.mem = c₁.mem.newItem a (c.classFor key nbytes) key nbytes) :
        c'.mem.key a = key ∧ (c'.mem.nbytes a : ℤ) = nbytes := by
      rw [mem, Mem.key_newItem short, Mem.nbytes_newItem positive bound]
      exact ⟨rfl, Int.toNat_of_nonneg positive⟩
    cases ends with
    | exhausted listSize inv' exhausted =>
        refine ⟨_, none, (if_neg noClass).trans (bind_of_ok obtained rfl), ?_, ?_, by simp⟩
        · simp [exhausted]
        · exact fun _ => ⟨rfl, untouched_resize c _ listSize, inv'⟩
    | offered listSize os c₁ a inv' sane' run notExhausted noVictim =>
        have effect := Effect.resize c (c.classFor key nbytes) listSize
        have few' := (effect.slabList (c.classFor key nbytes)).symm ▸ few
        rcases inv'.fill sane' few' used run nbytes (by rwa [effect.table.size]) with
          ⟨c', filled, inv'', fills, mem⟩
        have returns : c.doItemAlloc key nbytes sys = .ok (c', some a) :=
          (if_neg noClass).trans (bind_of_ok obtained (bind_of_ok filled rfl))
        refine ⟨c', some a, returns, ?_, by simp, ?_⟩
        · simp [notExhausted, ← tooLong, noClass]
        · rintro _ ⟨⟩
          rcases recorded mem with ⟨key_new, nbytes_new⟩
          exact ⟨key_new, nbytes_new, none, .of_offered inv'' fills noVictim⟩
    | evicted c₀ os c₁ a gives sane' run victim =>
        have used' : c₀.slabs.Used (c.classFor key nbytes) := by
          rwa [SlabAllocator.Used, gives.table.powerLargest]
        have few' := (gives.slabList (c.classFor key nbytes)).symm ▸ few
        rcases gives.linkedInv.fill sane' few' used' run nbytes (by rwa [gives.table.size]) with
          ⟨c', filled, inv'', fills, mem⟩
        have returns : c.doItemAlloc key nbytes sys = .ok (c', some a) :=
          (if_neg noClass).trans (bind_of_ok obtained (bind_of_ok filled rfl))
        refine ⟨c', some a, returns, ?_, by simp, ?_⟩
        · simp [victim.not_exhausted, ← tooLong, noClass]
        · rintro _ ⟨⟩
          rcases recorded mem with ⟨key_new, nbytes_new⟩
          exact ⟨key_new, nbytes_new, some a, .of_evicted rfl rfl gives inv'' fills victim⟩

end LinkedInv

open DataCache LruLists in
/-- An item that takes a page of its own is stored under the key `k`. Long after that, and without
memory for another page, the next item of that size takes its place. -/
theorem doItemAlloc_exact_k : ∃ c lists out c', LinkedInv c lists out ∧
    4096 ∈ lists (c.classFor [108] 1000000) ∧
      c.doItemAlloc [108] 1000000 (outOfMemory 20000) = .ok (c', some 4096) ∧
        Victim c lists (c.classFor [108] 1000000) (outOfMemory 20000) 4096 := by
  have keySet : KeySet {[107]} := ⟨by simp, by simp, by simp⟩
  have decided : ((new .zero 64 0).doItemAlloc [107] 1000000 (onePage (2 ^ 20) 4096 0)).toOption.any
      (fun r => r.2 = some 4096 ∧ (r.1.storeItem 4096 (outOfMemory 0)).toOption.any fun c =>
        c.heads (c.classFor [108] 1000000) = some 4096 ∧
          (c.doItemAlloc [108] 1000000 (outOfMemory 20000)).toOption.any fun r =>
            r.2 = some 4096) = true := by
    decide +kernel
  rcases (Option.any_eq_true _ _).mp decided with ⟨⟨c₁, found₁⟩, allocated, facts⟩
  rw [decide_eq_true_eq] at facts
  rcases facts with ⟨rfl, facts⟩
  rcases (Option.any_eq_true _ _).mp facts with ⟨c, stored, facts⟩
  rw [decide_eq_true_eq] at facts
  rcases facts with ⟨isHead, facts⟩
  rcases (Option.any_eq_true _ _).mp facts with ⟨⟨c', found⟩, taken, isFound⟩
  obtain rfl : found = some 4096 := by simpa using isFound
  have run₁ := toOption_eq_some.mp allocated
  have run₂ := toOption_eq_some.mp stored
  have run₃ := toOption_eq_some.mp taken
  -- the item is stored, so that the cache keeps its invariant
  have reached : ∃ v, CacheInv {[107]} c v := by
    have saneFirst (i : ℕ) : ((onePage (2 ^ 20) 4096 0).os i).Sane (newSlabs 64 0) :=
      sane_onePage (noSlabs_new 64 0) (by decide) 0 i
    have shortFirst : [(107 : UInt8)].length < 2 ^ 16 := by decide
    rcases doItemAlloc_eq (cacheInv_new {[107]} .zero 64 0) keySet saneFirst shortFirst
      (by decide : (0 : ℤ) ≤ 1000000) (by decide) with
      ⟨c₂, v, gone, reset, run, -⟩ | ⟨c₂, v, gone, reset, a, run, inv, does, -⟩
    · cases run.symm.trans run₁
    · cases run.symm.trans run₁
      have live : v.Live 4096 := (does.live 4096).mpr (Or.inr rfl)
      have notStored : 4096 ∉ v.stored := by
        intro isStored
        have wasStored := ((does.stored 4096).mp isStored).1
        simp [View.empty] at wasStored
      have few : v.stored.card < 2 ^ 30 := by
        have empty : v.stored = ∅ := by
          ext b
          simp [does.stored, View.empty]
        simp [empty]
      rcases storeItem_eq inv keySet live notStored (by simp [does.key_new]) few (outOfMemory 0)
        (fun i => (sane_outOfMemory c₁.slabs 0 i).fits) with ⟨c₃, v', gone', run, inv', -⟩
      cases run.symm.trans run₂
      exact ⟨v', inv'⟩
  rcases reached with ⟨v, inv⟩
  have linkedInv := inv.linkedInv keySet
  have inList : 4096 ∈ v.lists (c.classFor [108] 1000000) := by
    apply List.mem_of_head?
    rw [← isHead]
    exact (inv.lists.list _).head_eq.symm
  have sane (i : ℕ) : ((outOfMemory 20000).os i).Sane c.slabs := sane_outOfMemory c.slabs 20000 i
  have starts : (outOfMemory 20000).FreeListsStart := ⟨by decide, by decide⟩
  have short : [(108 : UInt8)].length < 2 ^ 16 := by decide
  rcases linkedInv.doItemAlloc_exact sane starts short (by decide : (0 : ℤ) ≤ 1000000) (by decide)
    (inv.few _) with ⟨c'', found, run, -, -, takes⟩
  cases run.symm.trans run₃
  rcases takes 4096 rfl with ⟨-, -, gone, takes⟩
  have isGone : gone = some 4096 := by
    cases gone with
    | none => exact absurd (linkedInv.mem_out_of_mem_list inList) (takes.fresh _)
    | some x => rw [takes.chunk x rfl]
  exact ⟨c, v.lists, v.out, c', linkedInv, inList, run₃, (takes.victim 4096).mp isGone⟩

end ChaosCache
