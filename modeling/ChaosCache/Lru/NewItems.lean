import ChaosCache.Lru.Allocation
import ChaosCache.Lru.Skeleton

/-!
# New items and the lists

An allocation that returns has taken items out of lists, by the first search and by the tail repair,
and may have handed out a chunk that no item had.
-/

namespace ChaosCache

open Blocks Links

variable {c c' c'' : LruLists} {lists lists' out out' : ℕ → List ℕ} {it id : ℕ} {os : Os}

/-- The allocator has handed out the chunk `a`, which is not filled in yet. -/
structure Hands (c c' : LruLists) (lists out : ℕ → List ℕ) (id a : ℕ) : Prop where
  order : ListsInv c'.mem.next c'.mem.prev c'.heads c'.tails c'.sizes lists
  slabs : ∃ lost, SlabInv c'.slabs (Function.update out id (a :: out id)) lost
  mem_list : ∀ i b, b ∈ lists i ↔ b ∈ out i ∧ c'.mem.itemLinked b = true
  clsid : ∀ i, ∀ b ∈ out i, c'.mem.slabsClsid b = i
  unused : ∀ i, ∀ b ∈ (c'.slabs.slabclass i).chunks, b ∉ out i →
    c'.mem.slabsClsid b = 0 ∧ c'.mem.itemLinked b = false
  range : c'.slabs.powerLargest < powerLargest
  room : ∀ i, (c'.slabs.slabclass i).slTotal < 2 ^ 31
  fresh : ∀ i, a ∉ out i
  item : ∀ i, ∀ b ∈ out i, c'.mem.item b = c.mem.item b
  table : SlabAllocator.SameTable c.slabs c'.slabs
  repaired : c'.repaired = c.repaired

theorem Trims.resize (c : LruLists) (lists out : ℕ → List ℕ) (id listSize : ℕ) :
    Trims c (c.resize id listSize) lists lists out out [] :=
  { (Effect.resize c id listSize).toFrame with
    sublist := fun i => List.Sublist.refl (lists i)
    out_subset := fun _ _ handedOut => handedOut
    out_kept := fun _ _ handedOut _ _ => handedOut
    linked := fun _ isLinked => isLinked
    refcount := fun _ _ => rfl
    time := rfl
    repaired := rfl }

namespace Skeleton

theorem resize (inv : Skeleton c lists out) {listSize : ℕ}
    (room : (c.slabs.slabclass id).slabList.length ≤ listSize) :
    Skeleton (c.resize id listSize) lists out := by
  have effect := Effect.resize c id listSize
  rcases inv.slabs with ⟨lost, slabs⟩
  exact
    { inv with
      slabs := ⟨lost, slabs.resize room⟩
      unused := by
        intro i a isChunk
        exact inv.unused i a (effect.chunks i ▸ isChunk)
      room := by
        intro i
        by_cases same : i = id
        · subst same
          simpa [LruLists.resize] using inv.room i
        · have kept := SlabAllocator.slabclass_setClass_of_ne (s := c.slabs) same
            { c.slabs.slabclass id with listSize }
          exact (congrArg SlabClass.slTotal kept).trans_lt (inv.room i) }

/-- A request is refused, or hands out a chunk and clears at most memory that held none. -/
theorem of_slabsAlloc (inv : Skeleton c lists out) (sane : os.Sane c.slabs)
    (few : (c.slabs.slabclass id).slabList.length < 2 ^ 31) {ntotal : ℕ} {found : Option ℕ}
    (run : c.slabsAlloc ntotal id os = .ok (c', found)) :
    (found = none ∧ ∃ listSize, c' = c.resize id listSize ∧ Skeleton c' lists out) ∨
      ∃ a, found = some a ∧ Hands c c' lists out id a := by
  rcases inv.slabs with ⟨lost, slabInv⟩
  have grows := SlabClass.listGrows few os
  rcases SlabAllocator.doSlabsAlloc_cases slabInv sane.fresh grows c.mem ntotal with
    ⟨listSize, room, alloc, -⟩ | ⟨slabs, mem, a, alloc, -, table, pages, totals, slabInv', -⟩
  · cases (bind_of_ok alloc rfl).symm.trans run
    exact Or.inl ⟨rfl, listSize, rfl, inv.resize room⟩
  · cases (bind_of_ok alloc rfl).symm.trans run
    have item {i b : ℕ} (isChunk : b ∈ (c.slabs.slabclass i).chunks) :
        mem.item b = c.mem.item b := pages.item_eq slabInv isChunk
    have itemOut {i b : ℕ} (handedOut : b ∈ out i) : mem.item b = c.mem.item b :=
      item (inv.isChunk handedOut)
    refine Or.inr ⟨a, rfl,
      { order := ?_
        slabs := ⟨lost, slabInv'⟩
        mem_list := ?_
        clsid := ?_
        unused := ?_
        range := table.powerLargest.symm ▸ inv.range
        room := fun i => (totals i).symm ▸ inv.room i
        fresh := ?_
        item := fun i b handedOut => itemOut handedOut
        table := table
        repaired := rfl }⟩
    · apply inv.order.congr
      · intro i b inList
        exact congrArg HashItem.next (itemOut (inv.mem_out_of_mem_list inList))
      · intro i b inList
        exact congrArg HashItem.prev (itemOut (inv.mem_out_of_mem_list inList))
    · intro i b
      rw [inv.mem_list]
      apply and_congr_right
      intro handedOut
      rw [show mem.itemLinked b = c.mem.itemLinked b from
        congrArg HashItem.itemLinked (itemOut handedOut)]
    · intro i b handedOut
      exact (congrArg HashItem.slabsClsid (itemOut handedOut)).trans (inv.clsid i b handedOut)
    · intro i b isChunk notOut
      by_cases isOld : b ∈ (c.slabs.slabclass i).chunks
      · rcases inv.unused i b isOld notOut with ⟨noClass, notLinked⟩
        exact ⟨(congrArg HashItem.slabsClsid (item isOld)).trans noClass,
          (congrArg HashItem.itemLinked (item isOld)).trans notLinked⟩
      · have same := pages.item_eq_zero table slabInv' isChunk isOld
        exact ⟨congrArg HashItem.slabsClsid same, congrArg HashItem.itemLinked same⟩
    · intro i handedOut
      have distinct := slabInv'.nodup_out id
      rw [Function.update_self, List.nodup_cons] at distinct
      have isChunk := pages.mem_chunks table (inv.isChunk handedOut)
      have isChunk' : a ∈ (slabs.slabclass id).chunks :=
        slabInv'.mem_chunks_of_mem_out (by simp)
      exact distinct.1 (slabInv'.class_unique isChunk isChunk' ▸ handedOut)

/-- The attempts to get a chunk take items out of lists, and may end with a chunk. The tail repair
resets the counters of items with old times only. -/
theorem of_obtainChunk (inv : Skeleton c lists out) {sys : System}
    (sane : ∀ i, (sys.os i).Sane c.slabs)
    (few : (c.slabs.slabclass id).slabList.length < 2 ^ 31) {ntotal : ℕ} {found : Option ℕ}
    (run : c.obtainChunk ntotal id sys = .ok (c', found)) :
    ∃ c₁ lists' out' reset, Skeleton c₁ lists' out' ∧ Trims c c₁ lists lists' out out' reset ∧
      (∀ a ∈ reset, a ∈ lists id ∧
        (c.mem.time a + tailRepairTime) % 2 ^ 32 < sys.now 0 % 2 ^ 32) ∧
      ((found = none ∧ c' = c₁) ∨ ∃ a, found = some a ∧ Hands c₁ c' lists' out' id a) := by
  rcases bind_eq_ok.mp run with ⟨⟨c₁, first⟩, allocated, rest⟩
  rcases inv.of_slabsAlloc (sane 0) few allocated with ⟨rfl, listSize, rfl, inv₁⟩ | ⟨a, rfl, hands⟩
  case inr =>
    cases rest
    exact ⟨c, lists, out, [], inv, .refl c lists out, by simp, Or.inr ⟨a, rfl, hands⟩⟩
  have trims₁ := Trims.resize c lists out id listSize
  rcases bind_eq_ok.mp rest with ⟨tail, -, rest⟩
  cases tail with
  | none =>
      cases rest
      exact ⟨_, lists, out, [], inv₁, trims₁, by simp, Or.inl ⟨rfl, rfl⟩⟩
  | some tail =>
      rcases bind_eq_ok.mp rest with ⟨c₂, evicted, rest⟩
      rcases inv₁.of_evict (sane 1).fits evicted with ⟨lists₂, out₂, inv₂, evicts₂⟩
      have trims₂ := trims₁.trans evicts₂
      rcases bind_eq_ok.mp rest with ⟨⟨c₃, second⟩, allocated, rest⟩
      have few₂ := (trims₂.slabList id).symm ▸ few
      rcases inv₂.of_slabsAlloc (trims₂.sane (sane 2)) few₂ allocated with
        ⟨rfl, listSize₃, rfl, inv₃⟩ | ⟨a, rfl, hands⟩
      case inr =>
        cases rest
        exact ⟨c₂, lists₂, out₂, [], inv₂, trims₂, by simp, Or.inr ⟨a, rfl, hands⟩⟩
      have trims₃ := trims₂.trans (Trims.resize c₂ lists₂ out₂ id listSize₃)
      rcases bind_eq_ok.mp rest with ⟨c₄, repaired, rest⟩
      rcases inv₃.of_tailRepair (sane 3).fits repaired with
        ⟨lists₄, out₄, reset, inv₄, repairs₄, old⟩
      have trims₄ := trims₃.trans repairs₄
      rw [show reset ++ ([] ++ ([] ++ [])) = reset by simp] at trims₄
      have longAgo : ∀ a ∈ reset, a ∈ lists id ∧
          (c.mem.time a + tailRepairTime) % 2 ^ 32 < sys.now 0 % 2 ^ 32 := by
        intro a isReset
        rcases old a isReset with ⟨inList, picked⟩
        simp only [LruLists.repairs, decide_eq_true_eq, trims₃.time] at picked
        exact ⟨(trims₃.sublist id).subset inList, picked.2⟩
      have few₄ := (trims₄.slabList id).symm ▸ few
      rcases inv₄.of_slabsAlloc (trims₄.sane (sane 4)) few₄ rest with
        ⟨rfl, listSize₅, rfl, inv₅⟩ | ⟨a, rfl, hands⟩
      case inr =>
        exact ⟨c₄, lists₄, out₄, reset, inv₄, trims₄, longAgo, Or.inr ⟨a, rfl, hands⟩⟩
      have trims₅ := trims₄.trans (Trims.resize c₄ lists₄ out₄ id listSize₅)
      rw [List.nil_append] at trims₅
      exact ⟨_, lists₄, out₄, reset, inv₅, trims₅, longAgo, Or.inl ⟨rfl, rfl⟩⟩

end Skeleton

/-- What an allocation that succeeds does with its chunk: it hands out the item `a`, not linked and
with one reference. -/
structure Fills (c c' : LruLists) (out out' : ℕ → List ℕ) (a : ℕ) : Prop where
  fresh : ∀ i, a ∉ out i
  mem_out : ∀ i b, b ∈ out' i → b ∈ out i ∨ b = a
  out_kept : ∀ i b, b ∈ out i → b ∈ out' i
  handedOut : ∃ i, a ∈ out' i
  item : ∀ i, ∀ b ∈ out i, c'.mem.item b = c.mem.item b
  table : SlabAllocator.SameTable c.slabs c'.slabs
  notLinked : c'.mem.itemLinked a = false
  refcount : c'.mem.refcount a = 1
  repaired : c'.repaired = c.repaired

theorem Hands.mem_out {a : ℕ} (_hands : Hands c c' lists out id a) (i b : ℕ) :
    b ∈ Function.update out id (a :: out id) i ↔ b ∈ out i ∨ (b = a ∧ i = id) :=
  ListsInv.mem_push i b

theorem Hands.of_initItem {a : ℕ} (hands : Hands c c' lists out id a) (used : id < 2 ^ 8)
    {key : List UInt8} {nbytes : ℤ} (run : c'.initItem a id key nbytes = .ok c'') :
    Skeleton c'' lists (Function.update out id (a :: out id)) ∧
      Fills c c'' out (Function.update out id (a :: out id)) a := by
  rcases bind_eq_ok.mp run with ⟨_, -, rest⟩
  rcases bind_eq_ok.mp rest with ⟨head, -, rest⟩
  rcases bind_eq_ok.mp rest with ⟨_, -, rest⟩
  split at rest
  · cases rest
  cases rest
  have sameId : id % 2 ^ 8 = id := Nat.mod_eq_of_lt used
  have differs {i b : ℕ} (handedOut : b ∈ out i) : b ≠ a := by
    rintro rfl
    exact hands.fresh i handedOut
  have listed {i b : ℕ} (inList : b ∈ lists i) : b ≠ a :=
    differs ((hands.mem_list i b).mp inList).1
  rcases hands.slabs with ⟨lost, slabs⟩
  have isChunk : a ∈ (c'.slabs.slabclass id).chunks := slabs.mem_chunks_of_mem_out (by simp)
  constructor
  · refine
      { order := ?_
        slabs := hands.slabs
        mem_list := ?_
        clsid := ?_
        unused := ?_
        range := hands.range
        room := hands.room }
    · apply hands.order.congr
      · intro i b inList
        exact Function.update_of_ne (listed inList) _ _
      · intro i b inList
        exact Function.update_of_ne (listed inList) _ _
    · intro i b
      change b ∈ lists i ↔ _ ∧ Function.update c'.mem.itemLinked a false b = true
      rw [hands.mem_out]
      by_cases same : b = a
      · subst same
        simp only [Function.update_self, Bool.false_eq_true, and_false, iff_false]
        exact fun inList => listed inList rfl
      · rw [hands.mem_list, Function.update_of_ne same]
        simp [same]
    · intro i b handedOut
      rcases (hands.mem_out i b).mp handedOut with handedOut | ⟨rfl, rfl⟩
      · exact (Function.update_of_ne (differs handedOut) _ _).trans (hands.clsid i b handedOut)
      · exact (Function.update_self ..).trans sameId
    · intro i b isChunk' notOut
      rw [hands.mem_out, not_or] at notOut
      have other : b ≠ a := by
        rintro rfl
        exact notOut.2 ⟨rfl, slabs.class_unique isChunk' isChunk⟩
      rcases hands.unused i b isChunk' notOut.1 with ⟨noClass, notLinked⟩
      exact ⟨(Function.update_of_ne other _ _).trans noClass,
        (Function.update_of_ne other _ _).trans notLinked⟩
  · exact
      { fresh := hands.fresh
        mem_out := by
          intro i b handedOut
          exact ((hands.mem_out i b).mp handedOut).imp_right And.left
        out_kept := by
          intro i b handedOut
          exact (hands.mem_out i b).mpr (Or.inl handedOut)
        handedOut := ⟨id, by simp⟩
        item := by
          intro i b handedOut
          exact (Mem.item_newItem_of_ne (differs handedOut)).trans (hands.item i b handedOut)
        table := hands.table
        notLinked := Function.update_self ..
        refcount := Function.update_self ..
        repaired := hands.repaired }

/-- An allocation that returns has taken items out of lists, and may have handed out a new item. -/
theorem Skeleton.of_itemAlloc (inv : Skeleton c lists out) {sys : System}
    (sane : ∀ i, (sys.os i).Sane c.slabs)
    (few : ∀ id, (c.slabs.slabclass id).slabList.length < 2 ^ 31) {key : List UInt8} {nbytes : ℤ}
    {found : Option ℕ} (run : c.itemAlloc key nbytes sys = .ok (c', found)) :
    ∃ c₁ lists' out₁ reset, Trims c c₁ lists lists' out out₁ reset ∧
      (∀ a ∈ reset, ∃ i, a ∈ lists i ∧
        (c.mem.time a + tailRepairTime) % 2 ^ 32 < sys.now 0 % 2 ^ 32) ∧
      ((found = none ∧ c' = c₁ ∧ Skeleton c' lists' out₁) ∨
        ∃ a out', found = some a ∧ Skeleton c' lists' out' ∧ Fills c₁ c' out₁ out' a) := by
  simp only [LruLists.itemAlloc, LruLists.doItemAlloc] at run
  split at run
  · cases run
    exact ⟨c, lists, out, [], .refl c lists out, by simp, Or.inl ⟨rfl, rfl, inv⟩⟩
  · rcases bind_eq_ok.mp run with ⟨⟨c₂, chunk⟩, obtained, rest⟩
    rcases inv.of_obtainChunk sane (few _) obtained with
      ⟨c₁, lists', out₁, reset, inv₁, trims, old, ⟨rfl, rfl⟩ | ⟨a, rfl, hands⟩⟩
    · cases rest
      exact ⟨c₂, lists', out₁, reset, trims, fun a isReset => ⟨_, old a isReset⟩,
        Or.inl ⟨rfl, rfl, inv₁⟩⟩
    · rcases bind_eq_ok.mp rest with ⟨c₃, filled, done⟩
      cases done
      have used : c.slabs.slabsClsid (LruLists.ntotal key.length nbytes) < 2 ^ 8 := by
        rcases hands.slabs with ⟨lost, slabs⟩
        have handedOut := (hands.mem_out _ a).mpr (Or.inr ⟨rfl, rfl⟩)
        have bound := (slabs.used_of_mem_out handedOut).2.trans_lt hands.range
        simp only [powerLargest] at bound
        omega
      rcases hands.of_initItem used filled with ⟨inv₂, fills⟩
      exact ⟨c₁, lists', out₁, reset, trims, fun a isReset => ⟨_, old a isReset⟩,
        Or.inr ⟨a, _, rfl, inv₂, fills⟩⟩

end ChaosCache
