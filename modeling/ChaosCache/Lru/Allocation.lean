import ChaosCache.Lru.Reclaiming
import ChaosCache.Slabs.Classes

/-!
# What an allocation does

The chunk that `do_item_alloc` returns may be one that it has just given back, or come from
the free list, or from a page. Whether it gets one can be told from the state before.
-/

namespace ChaosCache

open Hash Links

variable {keys : Set (List UInt8)} {c : LruLists} {v : View} {it id : ℕ}

/-! ## The attempts -/

/-- Taking an item that a search skips out of a list gives the search one more item. -/
theorem find_take_erase {α : Type} [DecidableEq α] {p q : α → Bool} {x : α} (skipped : p x = false)
    {n : ℕ} {list : List α} (found : (list.take n).find? q = some x) :
    ((list.erase x).take n).find? p = (list.take (n + 1)).find? p := by
  induction list generalizing n with
  | nil => simp at found
  | cons a rest ih =>
      cases n with
      | zero => simp at found
      | succ n =>
          by_cases same : a = x
          · subst same
            simp [skipped]
          · rw [List.take_succ_cons] at found ⊢
            rw [List.erase_cons_tail (by simpa using same), List.take_succ_cons]
            have foundRest : (rest.take n).find? q = some x := by
              rw [List.find?_cons] at found
              cases picked : q a with
              | true => exact absurd (by simpa [picked] using found) same
              | false => simpa [picked] using found
            rw [List.find?_cons, List.find?_cons, ih foundRest]

namespace LruLists

/-- The search that the tail repair makes, on the lists as they are before the allocation. The
item that the first search has unlinked does not count. -/
def repairSearch (c : LruLists) (id now : ℕ) : Option ℕ :=
  searchTail c.mem (repairs c.mem now)
    (if (searchTail c.mem (evicts c.mem) searchItems (c.tails id)).isSome then searchItems + 1
      else searchItems) (c.tails id)

/-- Whether an allocation in a class gets a chunk. -/
def Obtainable (c : LruLists) (id : ℕ) (sys : System) : Prop :=
  c.slabs.Offers id [] (sys.os 0) ∨
    c.tails id ≠ none ∧
      (((searchTail c.mem (evicts c.mem) searchItems (c.tails id)).isSome = true ∧
          c.slabs.FreeRoom id (sys.os 1)) ∨
        c.slabs.PageGranted id [sys.os 0] (sys.os 2) ∨
        ((c.repairSearch id (sys.now 0)).isSome = true ∧ c.slabs.FreeRoom id (sys.os 3)) ∨
        c.slabs.PageGranted id [sys.os 2, sys.os 0] (sys.os 4))

theorem repairSearch_eq (inv : CacheInv keys c v) {c' : LruLists} {v' : View} {os : Os}
    (room : MakesRoom keys c c' v v' id
      (searchTail c.mem (evicts c.mem) searchItems (c.tails id)) [] os) (now : ℕ) :
    searchTail c'.mem (repairs c'.mem now) searchItems (c'.tails id) = c.repairSearch id now := by
  unfold repairSearch
  cases found : searchTail c.mem (evicts c.mem) searchItems (c.tails id) with
  | none =>
      rw [room.unchanged found]
      rfl
  | some x =>
      rcases of_searchTail inv found with ⟨inList, picked⟩
      have skipped : repairs c.mem now x = false := by
        have noRef : c.mem.refcount x = 0 := by simpa [evicts] using picked
        simp [repairs, noRef]
      have samePicks : repairs c'.mem now = repairs c.mem now := by
        funext a
        simp only [repairs, room.refcount a List.not_mem_nil, room.time]
      have list := (inv.lists.list id).backward
      have erased : (v'.lists id).reverse = (v.lists id).reverse.erase x := by
        rw [room.lists x found, (inv.lists.nodup id).erase_eq_filter,
          (List.nodup_reverse.mpr (inv.lists.nodup id)).erase_eq_filter, List.filter_reverse]
      rw [searchTail_eq list] at found ⊢
      rw [searchTail_eq (room.inv.lists.list id).backward, samePicks, erased]
      exact find_take_erase skipped found

end LruLists

/-- A free list that has no room yet gets its first elements when an allocation gives a chunk
back. -/
def System.FreeListsStart (sys : System) : Prop :=
  (sys.os 1).realloc (grown 0 * sizeofPointer) = true ∧
    (sys.os 3).realloc (grown 0 * sizeofPointer) = true

namespace LruLists

/-- The attempts to get a chunk end with one, or without. They unlink nothing in vain, if free
lists grow. -/
theorem obtainChunk_eq (inv : CacheInv keys c v) (keySet : KeySet keys) {sys : System}
    (sane : ∀ i, (sys.os i).Sane c.slabs) (used : c.slabs.Used id) (ntotal : ℕ) :
    ∃ c₁ v₁ gone reset c₂ found, c.obtainChunk ntotal id sys = .ok (c₂, found) ∧
      CacheInv keys c₁ v₁ ∧ Reclaims c c₁ v v₁ gone reset ∧
      ((found = none ∧ c₂ = c₁ ∧ ¬c.Obtainable id sys ∧ (sys.FreeListsStart → gone = [])) ∨
        ∃ a, found = some a ∧ Obtains keys c₁ c₂ v₁ id a ∧ c.Obtainable id sys) := by
  rcases slabsAlloc_cases inv (sane 0) ntotal id with
    ⟨listSize, first, inv₀, refuses⟩ | ⟨c', a, first, obtains, offers⟩
  · have refuses₀ := refuses used
    have reclaims₀ := Reclaims.of_effect (v := v) (Effect.resize c id listSize)
    have tail : (c.resize id listSize).tail id = .ok (c.tails id) :=
      if_pos (used.2.trans_lt inv.range.2)
    cases last : c.tails id with
    | none =>
        rw [last] at tail
        refine ⟨_, v, [], [], _, none, ?_, inv₀, reclaims₀, Or.inl ⟨rfl, rfl, ?_, fun _ => rfl⟩⟩
        · exact bind_of_ok first (bind_of_ok tail rfl)
        · rintro (offers | ⟨nonempty, -⟩)
          · exact refuses₀.not_offers offers
          · exact nonempty last
    | some t =>
        rw [last] at tail
        have nonempty : c.tails id ≠ none := by simp [last]
        have drained₀ := drained_resize refuses₀.drained listSize
        rcases evict_eq inv₀ keySet drained₀.slots (sane 1).fits with ⟨c₁, v₁, evicted, room₁⟩
        have reclaims₁ := reclaims₀.trans room₁.toReclaims
        have used₁ : c₁.slabs.Used id := by
          rwa [SlabAllocator.Used, reclaims₁.table.powerLargest]
        rcases room₁.request used drained₀ (reclaims₀.sane (sane 2)) ntotal with
          ⟨listSize₁, second, inv₁, sameSlabs₁, refuses₁, notFreed₁⟩ |
            ⟨c', a, second, obtains, found⟩
        · have drained₁ := drained_resize (sameSlabs₁ ▸ drained₀) listSize₁
          have freeRoom₁ (os : Os) : (c₁.resize id listSize₁).slabs.FreeRoom id os ↔
              c.slabs.FreeRoom id os := by
            rw [freeRoom_resize, sameSlabs₁, freeRoom_resize]
          have granted₁ (os : Os) : (c₁.resize id listSize₁).slabs.PageGranted id [] os ↔
              c.slabs.PageGranted id [sys.os 2, sys.os 0] os := by
            have resized : (c₁.resize id listSize₁).slabs =
                ((c.resize id listSize).resize id listSize₁).slabs := by
              simp only [resize, sameSlabs₁]
            rw [resized]
            exact (refuses₁.pageGranted_iff [] os).trans
              (refuses₀.pageGranted_iff [sys.os 2] os)
          rcases tailRepair_eq inv₁ keySet drained₁.slots (sys.now 0) (sane 3).fits with
            ⟨c₂, v₂, reset, repaired, room₂⟩
          have search₂ : searchTail (c₁.resize id listSize₁).mem
              (repairs (c₁.resize id listSize₁).mem (sys.now 0)) searchItems
              ((c₁.resize id listSize₁).tails id) = c.repairSearch id (sys.now 0) :=
            repairSearch_eq inv₀ room₁ (sys.now 0)
          rw [search₂] at room₂
          have resized₁ := reclaims₁.trans (.of_effect (Effect.resize c₁ id listSize₁))
          have reclaims₂ := resized₁.trans room₂.toReclaims
          have run {result : LruLists × Option ℕ}
              (third : c₂.slabsAlloc ntotal id (sys.os 4) = .ok result) :
              c.obtainChunk ntotal id sys = .ok result :=
            bind_of_ok first (bind_of_ok tail (bind_of_ok evicted (bind_of_ok second
              (bind_of_ok repaired third))))
          rcases room₂.request used₁ drained₁ (resized₁.sane (sane 4)) ntotal with
            ⟨listSize₂, third, inv₂, -, refuses₂, notFreed₂⟩ | ⟨c', a, third, obtains, found⟩
          · rw [freeRoom₁] at notFreed₂
            refine ⟨_, v₂, _, _, _, none, run third, inv₂,
              reclaims₂.trans (.of_effect (Effect.resize c₂ id listSize₂)),
              Or.inl ⟨rfl, rfl, ?_, fun starts => ?_⟩⟩
            · rintro (offers | ⟨-, found | granted | found | granted⟩)
              · exact refuses₀.not_offers offers
              · exact notFreed₁ ⟨found.1, freeRoom_resize.mpr found.2⟩
              · exact refuses₁.page ((refuses₀.pageGranted_iff [] _).mpr granted)
              · exact notFreed₂ found
              · exact refuses₂.page ((granted₁ _).mpr granted)
            · have none₁ : searchTail c.mem (evicts c.mem) searchItems (c.tails id) = none := by
                by_contra some₁
                exact notFreed₁ ⟨Option.isSome_iff_ne_none.mpr some₁, Or.inr starts.1⟩
              have none₂ : c.repairSearch id (sys.now 0) = none := by
                by_contra some₂
                exact notFreed₂ ⟨Option.isSome_iff_ne_none.mpr some₂, Or.inr starts.2⟩
              have none₁' : searchTail (c.resize id listSize).mem
                (evicts (c.resize id listSize).mem) searchItems ((c.resize id listSize).tails id) =
                  none := none₁
              simp [none₁', none₂]
          · rw [freeRoom₁, granted₁] at found
            exact ⟨c₂, v₂, _, _, c', some a, run third, room₂.inv, reclaims₂,
              Or.inr ⟨a, rfl, obtains, Or.inr ⟨nonempty, Or.inr (Or.inr found)⟩⟩⟩
        · refine ⟨c₁, v₁, _, _, c', some a, ?_, room₁.inv, reclaims₁,
            Or.inr ⟨a, rfl, obtains, Or.inr ⟨nonempty, ?_⟩⟩⟩
          · exact bind_of_ok first (bind_of_ok tail (bind_of_ok evicted (bind_of_ok second rfl)))
          · rcases found with ⟨found, freeRoom⟩ | granted
            · exact Or.inl ⟨found, freeRoom_resize.mp freeRoom⟩
            · exact Or.inr (Or.inl ((refuses₀.pageGranted_iff [] _).mp granted))
  · exact ⟨c, v, [], [], c', some a, bind_of_ok first rfl, inv, .refl c v,
      Or.inr ⟨a, rfl, obtains, Or.inl offers⟩⟩

end LruLists

/-! ## The new item -/

namespace LruLists

theorem ntotal_eq {nkey : ℕ} {nbytes : ℤ} (short : nkey < 2 ^ 16) (positive : 0 ≤ nbytes)
    (bound : nbytes < 2 ^ 31) : ntotal nkey nbytes = sizeofHashItem + nkey + nbytes.toNat := by
  simp only [ntotal, sizeofHashItem]
  omega

end LruLists

namespace Obtains

variable {c' : LruLists} {a : ℕ}

theorem mem_out (obtains : Obtains keys c c' v id a) (i b : ℕ) :
    b ∈ Function.update v.out id (a :: v.out id) i ↔ b ∈ v.out i ∨ (b = a ∧ i = id) := by
  by_cases same : i = id
  · subst same
    simp [or_comm]
  · simp [same]

theorem notStored (obtains : Obtains keys c c' v id a) : a ∉ v.stored := fun isStored =>
  obtains.fresh (obtains.items.live_of_stored isStored)

end Obtains

/-- Memory after an item has been filled in. -/
def Mem.newItem (mem : Mem) (a id : ℕ) (key : List UInt8) (nbytes : ℤ) : Mem :=
  { mem with
    next := Function.update mem.next a none
    prev := Function.update mem.prev a none
    hNext := Function.update mem.hNext a none
    nbytes := Function.update mem.nbytes a (nbytes % 2 ^ 32).toNat
    nkey := Function.update mem.nkey a (key.length % 2 ^ 16)
    refcount := Function.update mem.refcount a 1
    itemLinked := Function.update mem.itemLinked a false
    itemSlabbed := Function.update mem.itemSlabbed a false
    slabsClsid := Function.update mem.slabsClsid a (id % 2 ^ 8)
    bytes := Function.update mem.bytes a (writeBytes (mem.bytes a) 0 key) }

namespace Mem

variable {mem : Mem} {a id : ℕ} {key : List UInt8} {nbytes : ℤ}

theorem item_newItem_of_ne {b : ℕ} (differs : b ≠ a) :
    (mem.newItem a id key nbytes).item b = mem.item b := by
  simp only [item, newItem, Function.update_of_ne differs]

theorem nkey_newItem (short : key.length < 2 ^ 16) :
    (mem.newItem a id key nbytes).nkey a = key.length := by
  simp only [newItem, Function.update_self]
  omega

theorem nbytes_newItem (positive : 0 ≤ nbytes) (bound : nbytes < 2 ^ 31) :
    (mem.newItem a id key nbytes).nbytes a = nbytes.toNat := by
  simp only [newItem, Function.update_self]
  omega

theorem key_newItem (short : key.length < 2 ^ 16) :
    (mem.newItem a id key nbytes).key a = key := by
  rw [Mem.key, nkey_newItem short]
  simp only [newItem, Function.update_self]
  exact readBytes_writeBytes_zero _ _

end Mem

namespace LruLists

variable {c' : LruLists} {a : ℕ}

/-- Filling in a chunk that was obtained hands out an item that is not stored. -/
theorem initItem_eq (obtains : Obtains keys c c' v id a) {key : List UInt8} {nbytes : ℤ}
    (short : key.length < 2 ^ 16) (positive : 0 ≤ nbytes) (bound : nbytes < 2 ^ 31)
    (fits : sizeofHashItem + key.length + nbytes.toNat ≤ (c'.slabs.slabclass id).size) :
    c'.initItem a id key nbytes =
        .ok { c' with mem := c'.mem.newItem a id key nbytes } ∧
      CacheInv keys { c' with mem := c'.mem.newItem a id key nbytes }
        { v with out := Function.update v.out id (a :: v.out id) } := by
  have items := obtains.items
  have inRange : id < powerLargest := obtains.used.2.trans_lt items.range.2
  have sameId : id % 2 ^ 8 = id := by
    simp only [powerLargest] at inRange
    omega
  have isChunk :=
    obtains.slabs.mem_chunks_of_mem_out ((obtains.mem_out id a).mpr (Or.inr ⟨rfl, rfl⟩))
  have notOut : a ∉ v.out id := fun handedOut => obtains.fresh ⟨id, handedOut⟩
  have noClass := (items.unused id a isChunk notOut).1
  have notHead : some a ≠ c'.heads id :=
    (items.lists.not_head (items.not_mem_list obtains.notStored id)).symm
  have large : ¬(c'.slabs.slabclass id).size < sizeofHashItem + key.length := by omega
  constructor
  · simp only [initItem, check_eq_ok noClass, ok_bind, sameId, head, if_pos inRange,
      check_eq_ok notHead, if_neg large, Mem.newItem]
    rfl
  have differs {i b : ℕ} (handedOut : b ∈ v.out i) : b ≠ a := by
    rintro rfl
    exact obtains.fresh ⟨i, handedOut⟩
  have listed {i b : ℕ} (inList : b ∈ v.lists i) : b ≠ a :=
    differs ((items.mem_list i b).mp inList).1
  have kept {b : ℕ} (isStored : b ∈ v.stored) :
      (c'.mem.newItem a id key nbytes).item b = c'.mem.item b :=
    Mem.item_newItem_of_ne (differs (items.mem_out_of_stored isStored))
  have keptKey {b : ℕ} (isStored : b ∈ v.stored) :
      (c'.mem.newItem a id key nbytes).key b = c'.mem.key b :=
    (SameContents.of_item_eq (kept isStored)).key
  refine
    { slabs := obtains.slabs
      table := items.table.congr (fun b isStored => congrArg HashItem.hNext (kept isStored))
        fun b isStored => congrArg HashItem.hv (kept isStored)
      lists := items.lists.congr (fun i b inList => Function.update_of_ne (listed inList) _ _)
        fun i b inList => Function.update_of_ne (listed inList) _ _
      mem_list := fun i b => ?_
      mem_stored := items.mem_stored
      clsid := fun i b handedOut => ?_
      unused := fun i b isChunk notOut => ?_
      slabbed := fun i b handedOut => ?_
      fits := fun i b handedOut => ?_
      hashes := fun b isStored => ?_
      keys := fun b isStored => (keptKey isStored).symm ▸ items.keys b isStored
      distinct := fun b isStored b' isStored' sameKey =>
        items.distinct b isStored b' isStored'
          ((keptKey isStored).symm.trans (sameKey.trans (keptKey isStored')))
      range := items.range
      sizeMax := items.sizeMax
      small := items.small
      pages := items.pages
      room := items.room }
  · change b ∈ v.lists i ↔ b ∈ Function.update v.out id (a :: v.out id) i ∧
      Function.update c'.mem.itemLinked a false b = true
    rw [obtains.mem_out]
    by_cases same : b = a
    · subst same
      simp only [Function.update_self, Bool.false_eq_true, and_false, iff_false]
      exact fun inList => listed inList rfl
    · rw [items.mem_list, Function.update_of_ne same]
      simp [same]
  · rcases (obtains.mem_out i b).mp handedOut with handedOut | ⟨rfl, rfl⟩
    · exact (Function.update_of_ne (differs handedOut) _ _).trans (items.clsid i b handedOut)
    · exact (Function.update_self ..).trans sameId
  · have notOut' : b ∉ v.out i := fun handedOut =>
      notOut ((obtains.mem_out i b).mpr (Or.inl handedOut))
    have other : b ≠ a := by
      rintro rfl
      have same := obtains.slabs.class_unique isChunk ‹b ∈ (c'.slabs.slabclass id).chunks›
      exact notOut ((obtains.mem_out i b).mpr (Or.inr ⟨rfl, same⟩))
    rcases items.unused i b isChunk notOut' with ⟨noClass', unlinked⟩
    exact ⟨(Function.update_of_ne other _ _).trans noClass',
      (Function.update_of_ne other _ _).trans unlinked⟩
  · rcases (obtains.mem_out i b).mp handedOut with handedOut | ⟨rfl, rfl⟩
    · exact (Function.update_of_ne (differs handedOut) _ _).trans (items.slabbed i b handedOut)
    · exact Function.update_self ..
  · change sizeofHashItem + (c'.mem.newItem a id key nbytes).nkey b +
      (c'.mem.newItem a id key nbytes).nbytes b ≤ (c'.slabs.slabclass i).size
    rcases (obtains.mem_out i b).mp handedOut with handedOut | ⟨rfl, rfl⟩
    · have kept : (c'.mem.newItem a id key nbytes).item b = c'.mem.item b :=
        Mem.item_newItem_of_ne (differs handedOut)
      rw [(SameContents.of_item_eq kept).nkey, (SameContents.of_item_eq kept).nbytes]
      exact items.fits i b handedOut
    · rwa [Mem.nkey_newItem short, Mem.nbytes_newItem positive bound]
  · change (c'.mem.newItem a id key nbytes).hv b = hashKey ((c'.mem.newItem a id key nbytes).key b)
    rw [keptKey isStored]
    exact items.hashes b isStored

end LruLists

theorem LruLists.slabs_of_initItem {c' : LruLists} {key : List UInt8} {nbytes : ℤ}
    (run : c.initItem it id key nbytes = .ok c') : c'.slabs = c.slabs := by
  rcases bind_eq_ok.mp run with ⟨-, -, run⟩
  rcases bind_eq_ok.mp run with ⟨head, -, run⟩
  rcases bind_eq_ok.mp run with ⟨-, -, run⟩
  split at run
  · cases run
  · cases run
    rfl

/-- What an allocation that succeeds does: it gives back the chunks in `gone`, and hands out
`a`, which may be one of them. -/
structure Allocates (c c' : LruLists) (v v' : View) (gone reset : List ℕ) (a : ℕ)
    (key : List UInt8) (nbytes : ℤ) : Prop where
  live : ∀ b, v'.Live b ↔ v.Live b ∧ b ∉ gone ∨ b = a
  fresh : ¬(v.Live a ∧ a ∉ gone)
  stored : ∀ b, b ∈ v'.stored ↔ b ∈ v.stored ∧ b ∉ gone
  wasStored : ∀ b ∈ gone, b ∈ v.stored
  noRef : ∀ b ∈ gone, c.mem.refcount b = 0 ∨ b ∈ reset
  resetGone : ∀ b ∈ reset, b ∈ gone
  contents : ∀ b, v.Live b → b ≠ a → SameContents c.mem c'.mem b
  refcount : ∀ b, v.Live b → b ∉ reset → b ≠ a → c'.mem.refcount b = c.mem.refcount b
  refcount_new : c'.mem.refcount a = 1
  key_new : c'.mem.key a = key
  nkey_new : c'.mem.nkey a = key.length
  nbytes_new : c'.mem.nbytes a = nbytes.toNat
  chunks : ∀ i, ∀ b ∈ (c.slabs.slabclass i).chunks, b ∈ (c'.slabs.slabclass i).chunks
  freed : c'.freed = gone ++ c.freed
  repaired : c'.repaired = reset ++ c.repaired

namespace LruLists

/-- Whether an allocation for these lengths succeeds. -/
def Allocatable (c : LruLists) (nkey : ℕ) (nbytes : ℤ) (sys : System) : Prop :=
  c.slabs.slabsClsid (ntotal nkey nbytes) ≠ 0 ∧
    c.Obtainable (c.slabs.slabsClsid (ntotal nkey nbytes)) sys

/-- Whatever the length, an allocation that returns keeps the class sizes. If it fails it has
unlinked some items and nothing else; if it succeeds it could. -/
theorem of_doItemAlloc (inv : CacheInv keys c v) (keySet : KeySet keys) {sys : System}
    (sane : ∀ i, (sys.os i).Sane c.slabs) {key : List UInt8} {nbytes : ℤ} {c' : LruLists}
    {found : Option ℕ} (run : c.doItemAlloc key nbytes sys = .ok (c', found)) :
    SlabAllocator.SameTable c.slabs c'.slabs ∧
      (found = none → ∃ v' gone reset, CacheInv keys c' v' ∧ Reclaims c c' v v' gone reset) ∧
      (found ≠ none → c.Allocatable key.length nbytes sys) := by
  by_cases noClass : c.slabs.slabsClsid (ntotal key.length nbytes) = 0
  · cases (if_pos noClass).symm.trans run
    exact ⟨⟨rfl, fun _ => rfl, fun _ => rfl⟩, fun _ => ⟨v, [], [], inv, .refl c v⟩,
      fun obtained => absurd rfl obtained⟩
  · rcases SlabAllocator.of_slabsClsid inv.range.1 noClass with ⟨used, -⟩
    rcases obtainChunk_eq inv keySet sane used (ntotal key.length nbytes) with
      ⟨c₁, v₁, gone, reset, c₂, found₂, obtained, inv₁, reclaims, result⟩
    rcases bind_eq_ok.mp ((if_neg noClass).symm.trans run) with ⟨⟨_, _⟩, obtained', rest⟩
    cases obtained.symm.trans obtained'
    rcases result with ⟨rfl, rfl, -⟩ | ⟨a, rfl, obtains, obtainable⟩
    · cases rest
      exact ⟨reclaims.table, fun _ => ⟨v₁, gone, reset, inv₁, reclaims⟩,
        fun obtained => absurd rfl obtained⟩
    · rcases bind_eq_ok.mp rest with ⟨c₃, filled, rest⟩
      cases rest
      have sameSlabs := slabs_of_initItem filled
      rw [sameSlabs]
      exact ⟨reclaims.table.trans obtains.table, by simp, fun _ => ⟨noClass, obtainable⟩⟩

/-- An allocation fails, and then keeps all items if free lists grow, or returns a new item. -/
theorem doItemAlloc_eq (inv : CacheInv keys c v) (keySet : KeySet keys) {sys : System}
    (sane : ∀ i, (sys.os i).Sane c.slabs) {key : List UInt8} {nbytes : ℤ}
    (short : key.length < 2 ^ 16) (positive : 0 ≤ nbytes) (bound : nbytes < 2 ^ 31) :
    (∃ c' v' gone reset, c.doItemAlloc key nbytes sys = .ok (c', none) ∧ CacheInv keys c' v' ∧
        Reclaims c c' v v' gone reset ∧ ¬c.Allocatable key.length nbytes sys ∧
        (sys.FreeListsStart → gone = [])) ∨
      ∃ c' v' gone reset a, c.doItemAlloc key nbytes sys = .ok (c', some a) ∧
        CacheInv keys c' v' ∧ Allocates c c' v v' gone reset a key nbytes ∧
        c.Allocatable key.length nbytes sys := by
  by_cases noClass : c.slabs.slabsClsid (ntotal key.length nbytes) = 0
  · refine Or.inl ⟨c, v, [], [], ?_, inv, .refl c v, fun ⟨hasClass, _⟩ => hasClass noClass,
      fun _ => rfl⟩
    simp only [doItemAlloc, if_pos noClass, pure_eq_ok]
  · rcases SlabAllocator.of_slabsClsid inv.range.1 noClass with ⟨used, fits, -⟩
    rcases obtainChunk_eq inv keySet sane used (ntotal key.length nbytes) with
      ⟨c₁, v₁, gone, reset, c₂, found, run, inv₁, reclaims, result⟩
    rcases result with ⟨rfl, rfl, notObtainable, keeps⟩ | ⟨a, rfl, obtains, obtainable⟩
    · exact Or.inl ⟨c₂, v₁, gone, reset, (if_neg noClass).trans (bind_of_ok run rfl), inv₁,
        reclaims, fun ⟨_, obtainable⟩ => notObtainable obtainable, keeps⟩
    · rw [← reclaims.table.size, ← obtains.table.size] at fits
      rcases initItem_eq obtains short positive bound
        ((ntotal_eq short positive bound).symm.le.trans fits) with ⟨filled, inv₂⟩
      refine Or.inr ⟨_, _, gone, reset, a,
        (if_neg noClass).trans (bind_of_ok run (bind_of_ok filled rfl)), inv₂, ?_,
        noClass, obtainable⟩
      have kept {b : ℕ} (live : v.Live b) : ∃ i, b ∈ (c₁.slabs.slabclass i).chunks := by
        rcases live with ⟨i, handedOut⟩
        exact ⟨i, reclaims.chunks i ▸ inv.slabs.mem_chunks_of_mem_out handedOut⟩
      have item {b : ℕ} (live : v.Live b) (other : b ≠ a) :
          (c₂.mem.newItem a (c.slabs.slabsClsid (ntotal key.length nbytes)) key nbytes).item b =
            c₁.mem.item b := by
        rcases kept live with ⟨i, isChunk⟩
        rw [Mem.item_newItem_of_ne other]
        exact obtains.item i b isChunk
      refine
        { live := fun b => ?_
          fresh := fun live => obtains.fresh ((reclaims.live a).mpr live)
          stored := reclaims.stored
          wasStored := reclaims.wasStored
          noRef := reclaims.noRef
          resetGone := reclaims.resetGone
          contents := fun b live other =>
            (SameContents.of_frame reclaims.toFrame b).trans (.of_item_eq (item live other))
          refcount := fun b live notReset other =>
            (congrArg HashItem.refcount (item live other)).trans (reclaims.refcount b notReset)
          refcount_new := Function.update_self ..
          key_new := Mem.key_newItem short
          nkey_new := Mem.nkey_newItem short
          nbytes_new := Mem.nbytes_newItem positive bound
          chunks := fun i b isChunk => obtains.chunks i b (reclaims.chunks i ▸ isChunk)
          freed := obtains.freed.trans reclaims.freed
          repaired := obtains.repaired.trans reclaims.repaired }
      rw [← reclaims.live]
      simp only [View.Live, obtains.mem_out, exists_or, exists_and_left, exists_eq, and_true]

end LruLists

end ChaosCache
