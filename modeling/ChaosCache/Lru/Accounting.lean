import ChaosCache.Lru.Closure
import ChaosCache.Lru.Allocation
import ChaosCache.Slabs.Requested

/-!
# Items and the accounts of the slabs

An item records the lengths that it was allocated with, and `item_free` computes from them the size
that it gives back. So the accounts are exact as long as the records are. Clients may call the
operations with any item that was ever allocated, in any order and as often as they like.
-/

namespace ChaosCache

open SlabAllocator

namespace LruLists

variable {c c' c'' : LruLists} {known : Set ℕ} {out out' out'' lost : ℕ → List ℕ} {asked : ℕ → ℕ}
  {gone gone' : List ℕ} {it id now : ℕ} {os : Os} {sys : System} {all : Prop}

/-- The items on the accounts carry the size that was asked for them, and all others carry
class 0, with which nothing is given back. -/
structure Accounts (c : LruLists) (known : Set ℕ) (out lost : ℕ → List ℕ) (asked : ℕ → ℕ) :
    Prop where
  closed : c.Closed known
  charged : c.slabs.Charged out lost asked
  isChunk : ∀ a ∈ known, ∃ id, a ∈ (c.slabs.slabclass id).chunks
  isKnown : ∀ id, ∀ a ∈ out id, a ∈ known
  clsid : ∀ id, ∀ a ∈ out id, c.mem.slabsClsid a = id
  unused : ∀ a ∈ known, (∀ id, a ∉ out id) → c.mem.slabsClsid a = 0
  asked : ∀ id, ∀ a ∈ out id, c.mem.itemNtotal a = asked a
  range : powerSmallest ≤ c.slabs.powerLargest ∧ c.slabs.powerLargest < powerLargest

/-- A section takes back the chunks of the items that it frees, and adds no slab. -/
structure Settles (c c' : LruLists) (out out' : ℕ → List ℕ) (gone : List ℕ) : Prop where
  freed : c'.freed = gone ++ c.freed
  table : SameTable c.slabs c'.slabs
  slabList : ∀ i, (c'.slabs.slabclass i).slabList = (c.slabs.slabclass i).slabList
  mem_out : ∀ i a, a ∈ out' i ↔ a ∈ out i ∧ a ∉ gone

namespace Settles

theorem refl (c : LruLists) (out : ℕ → List ℕ) : Settles c c out out [] :=
  ⟨rfl, ⟨rfl, fun _ => rfl, fun _ => rfl⟩, fun _ => rfl, by simp⟩

theorem of_leaves (leaves : c.LeavesChunks c') : Settles c c' out out [] where
  freed := leaves.freed
  table := by rw [leaves.slabs]; exact ⟨rfl, fun _ => rfl, fun _ => rfl⟩
  slabList i := by rw [leaves.slabs]
  mem_out := by simp

theorem trans (first : Settles c c' out out' gone) (second : Settles c' c'' out' out'' gone') :
    Settles c c'' out out'' (gone' ++ gone) where
  freed := by rw [second.freed, first.freed, List.append_assoc]
  table := first.table.trans second.table
  slabList i := (second.slabList i).trans (first.slabList i)
  mem_out i a := by
    rw [second.mem_out, first.mem_out, List.mem_append, not_or]
    exact ⟨fun h => ⟨h.1.1, h.2, h.1.2⟩, fun h => ⟨⟨h.1, h.2.2⟩, h.2.1⟩⟩

end Settles

/-- The accounts after a section, in which all calls of `realloc` succeed that can if `all`
holds. -/
def SettlesTo (c c' : LruLists) (known : Set ℕ) (out lost : ℕ → List ℕ) (asked : ℕ → ℕ)
    (all : Prop) : Prop :=
  ∃ out' lost' gone, c'.Accounts known out' lost' asked ∧ Settles c c' out out' gone ∧
    (all → c.slabs.Spares c'.slabs lost lost')

theorem SettlesTo.trans (first : c.SettlesTo c' known out lost asked all)
    (second : ∀ out' lost', c'.Accounts known out' lost' asked →
      c'.SettlesTo c'' known out' lost' asked all) : c.SettlesTo c'' known out lost asked all := by
  rcases first with ⟨out', lost', gone, accounts, settles, spares⟩
  rcases second out' lost' accounts with ⟨out'', lost'', gone', accounts', settles', spares'⟩
  exact ⟨out'', lost'', _, accounts', settles.trans settles',
    fun grants => (spares grants).trans (spares' grants)⟩

namespace Accounts

theorem self (accounts : c.Accounts known out lost asked) :
    c.SettlesTo c known out lost asked all :=
  ⟨out, lost, [], accounts, .refl c out, fun _ => .refl c.slabs lost⟩

/-- An operation that obtains and frees nothing. -/
theorem keep (accounts : c.Accounts known out lost asked)
    (closed : c'.Closed known) (leaves : c.LeavesChunks c') : c'.Accounts known out lost asked := by
  refine ⟨closed, ?_, ?_, accounts.isKnown, ?_, ?_, ?_, ?_⟩
  · rw [leaves.slabs]
    exact accounts.charged
  · rw [leaves.slabs]
    exact accounts.isChunk
  · rw [leaves.slabsClsid]
    exact accounts.clsid
  · rw [leaves.slabsClsid]
    exact accounts.unused
  · intro id a isOut
    rw [leaves.itemNtotal]
    exact accounts.asked id a isOut
  · rw [leaves.slabs]
    exact accounts.range

theorem keepTo (accounts : c.Accounts known out lost asked)
    (closed : c'.Closed known) (leaves : c.LeavesChunks c') :
    c.SettlesTo c' known out lost asked all := by
  refine ⟨out, lost, [], accounts.keep closed leaves, .of_leaves leaves, fun _ => ?_⟩
  rw [leaves.slabs]
  exact .refl c.slabs lost

/-- Once an item is taken back the others are those that are left. -/
theorem mem_out_erase (accounts : c.Accounts known out lost asked) (isOut : it ∈ out id)
    (i a : ℕ) : a ∈ Function.update out id ((out id).erase it) i ↔ a ∈ out i ∧ a ∉ [it] := by
  rw [List.mem_singleton]
  by_cases same : i = id
  · subst same
    rw [Function.update_self, (accounts.charged.slabs.nodup_out i).mem_erase_iff]
    exact and_comm
  · rw [Function.update_of_ne same]
    refine ⟨fun isOut' => ⟨isOut', ?_⟩, And.left⟩
    rintro rfl
    exact same ((accounts.clsid i a isOut').symm.trans (accounts.clsid id a isOut))

theorem itemFree (accounts : c.Accounts known out lost asked) (isKnown : it ∈ known)
    (reallocs : os.Reallocs all) (run : c.itemFree it os = .ok c') :
    c.SettlesTo c' known out lost asked all := by
  have table := accounts.closed.table.itemFree run
  rcases bind_eq_ok.mp run with ⟨head, -, rest⟩
  rcases bind_eq_ok.mp rest with ⟨tail, -, rest⟩
  rcases bind_eq_ok.mp rest with ⟨-, -, rest⟩
  rcases bind_eq_ok.mp rest with ⟨-, -, rest⟩
  rcases bind_eq_ok.mp rest with ⟨-, -, rest⟩
  rcases bind_eq_ok.mp rest with ⟨-, -, rest⟩
  rcases bind_eq_ok.mp rest with ⟨slabs, freed, done⟩
  cases done
  have closed := accounts.closed.congr table rfl rfl rfl rfl
  have keeps := doSlabsFree_ok freed
  have isChunk : ∀ a ∈ known, ∃ id, a ∈ (slabs.slabclass id).chunks := by
    intro a isKnown
    rcases accounts.isChunk a isKnown with ⟨id, isChunk⟩
    exact ⟨id, by rwa [keeps.chunks]⟩
  have range : powerSmallest ≤ slabs.powerLargest ∧ slabs.powerLargest < powerLargest := by
    rw [keeps.table.powerLargest]
    exact accounts.range
  by_cases out_it : ∃ id, it ∈ out id
  · rcases out_it with ⟨id, isOut⟩
    rw [accounts.clsid id it isOut, accounts.asked id it isOut] at freed
    have large : 16 ≤ asked it := by
      rw [← accounts.asked id it isOut]
      simp only [Mem.itemNtotal, sizeofHashItem]
      omega
    rcases accounts.charged.doSlabsFree reallocs isOut large freed with ⟨lost', charged, spares⟩
    have mem_out := accounts.mem_out_erase isOut
    refine ⟨_, lost', [it], ⟨closed, charged, isChunk, ?_, ?_, ?_, ?_, range⟩,
      ⟨rfl, keeps.table, keeps.slabList, mem_out⟩, spares⟩
    · intro i a isOut'
      exact accounts.isKnown i a ((mem_out i a).mp isOut').1
    · intro i a isOut'
      rcases (mem_out i a).mp isOut' with ⟨wasOut, other⟩
      rw [List.mem_singleton] at other
      simpa [other] using accounts.clsid i a wasOut
    · intro a isKnown' notOut
      by_cases same : a = it
      · simp [same]
      · simp only [Function.update_of_ne same]
        apply accounts.unused a isKnown'
        intro i wasOut
        exact notOut i ((mem_out i a).mpr ⟨wasOut, by simpa using same⟩)
    · intro i a isOut'
      exact accounts.asked i a ((mem_out i a).mp isOut').1
  · -- the item has been freed before, and nothing is given back
    have notOut : ∀ id, it ∉ out id := fun id isOut => out_it ⟨id, isOut⟩
    have clsid := accounts.unused it isKnown notOut
    rw [clsid] at freed
    have same : slabs = c.slabs := by
      rw [SlabAllocator.doSlabsFree, if_pos (Or.inl (by decide))] at freed
      exact (Except.ok.inj freed).symm
    subst same
    have zero : Function.update c.mem.slabsClsid it 0 = c.mem.slabsClsid := by
      rw [← clsid]
      exact Function.update_eq_self it _
    refine ⟨out, lost, [it], ⟨closed, accounts.charged, isChunk, accounts.isKnown, ?_, ?_,
      accounts.asked, range⟩, ⟨rfl, keeps.table, keeps.slabList, ?_⟩, fun _ => .refl c.slabs lost⟩
    · simp only [zero]
      exact accounts.clsid
    · simp only [zero]
      exact accounts.unused
    · intro i a
      rw [List.mem_singleton]
      refine ⟨fun isOut => ⟨isOut, ?_⟩, And.left⟩
      rintro rfl
      exact notOut i isOut

theorem doItemUnlink (accounts : c.Accounts known out lost asked) (isKnown : it ∈ known)
    (reallocs : os.Reallocs all) (run : c.doItemUnlink it os = .ok c') :
    c.SettlesTo c' known out lost asked all := by
  simp only [LruLists.doItemUnlink] at run
  split at run
  · rcases bind_eq_ok.mp run with ⟨c₁, detached, rest⟩
    have without : c.SettlesTo c₁ known out lost asked all :=
      accounts.keepTo (accounts.closed.detach isKnown detached) (.of_detach detached)
    split at rest
    · exact without.trans fun _ _ accounts' => accounts'.itemFree isKnown reallocs rest
    · cases rest
      exact without
  · cases run
    exact accounts.self

theorem doItemRelease (accounts : c.Accounts known out lost asked) (isKnown : it ∈ known)
    (reallocs : os.Reallocs all) (run : c.doItemRelease it os = .ok c') :
    c.SettlesTo c' known out lost asked all := by
  have released : c.SettlesTo { c with
      mem := { c.mem with
        refcount := Function.update c.mem.refcount it (c.mem.refcount it - 1) } } known out
          lost asked all := by
    apply accounts.keepTo
    · exact accounts.closed.congr (accounts.closed.table.congr rfl rfl rfl) rfl rfl rfl rfl
    · exact ⟨rfl, rfl, rfl, rfl, rfl⟩
  simp only [LruLists.doItemRelease] at run
  split at run
  · exact released.trans fun _ _ accounts' => accounts'.itemFree isKnown reallocs run
  · cases run
    exact released

theorem storeItem (accounts : c.Accounts known out lost asked) (isKnown : it ∈ known)
    (reallocs : ∀ i, (sys.os i).Reallocs all)
    (run : c.storeItem it sys = .ok c') : c.SettlesTo c' known out lost asked all := by
  have hashed : ({ c with
      mem := { c.mem with hv := Function.update c.mem.hv it (itemHash c.mem it) } } :
        LruLists).Closed known :=
    accounts.closed.congr (accounts.closed.table.congr rfl rfl rfl) rfl rfl rfl rfl
  rcases bind_eq_ok.mp run with ⟨⟨c₁, oldIt⟩, got, rest⟩
  rcases hashed.doItemGet got with ⟨closed, inKnown⟩
  have looked : c.SettlesTo c₁ known out lost asked all :=
    accounts.keepTo closed ((LeavesChunks.of_doItemGet got).after ⟨rfl, rfl, rfl, rfl, rfl⟩)
  cases oldIt with
  | none =>
      exact looked.trans fun _ _ accounts' =>
        accounts'.keepTo (accounts'.closed.doItemLink isKnown rest) (.of_doItemLink rest)
  | some oldIt =>
      have isKnown' := inKnown oldIt rfl
      rcases bind_eq_ok.mp rest with ⟨c₂, replaced, released⟩
      rcases bind_eq_ok.mp replaced with ⟨-, -, replaced⟩
      rcases bind_eq_ok.mp replaced with ⟨c₃, unlinked, linked⟩
      apply looked.trans
      intro _ _ accounts₁
      apply (accounts₁.doItemUnlink isKnown' (reallocs 0) unlinked).trans
      intro _ _ accounts₂
      apply (accounts₂.keepTo (accounts₂.closed.doItemLink isKnown linked)
        (.of_doItemLink linked)).trans
      intro _ _ accounts₃
      exact accounts₃.doItemRelease isKnown' (reallocs 1) released

theorem evict (accounts : c.Accounts known out lost asked)
    (reallocs : os.Reallocs all) (run : c.evict id os = .ok c') :
    c.SettlesTo c' known out lost asked all := by
  simp only [LruLists.evict] at run
  split at run
  · rename_i search found
    have isKnown := accounts.closed.searchTail (accounts.closed.tails id trivial) found
    exact accounts.doItemUnlink isKnown reallocs run
  · cases run
    exact accounts.self

theorem tailRepair (accounts : c.Accounts known out lost asked)
    (reallocs : os.Reallocs all) (run : c.tailRepair id now os = .ok c') :
    c.SettlesTo c' known out lost asked all := by
  simp only [LruLists.tailRepair] at run
  split at run
  · rename_i search found
    have isKnown := accounts.closed.searchTail (accounts.closed.tails id trivial) found
    have reset : c.SettlesTo { c with
        mem := { c.mem with refcount := Function.update c.mem.refcount search 0 }
        repaired := search :: c.repaired } known out lost asked all := by
      apply accounts.keepTo
      · exact accounts.closed.congr (accounts.closed.table.congr rfl rfl rfl) rfl rfl rfl rfl
      · exact ⟨rfl, rfl, rfl, rfl, rfl⟩
    exact reset.trans fun _ _ accounts' => accounts'.doItemUnlink isKnown reallocs run
  · cases run
    exact accounts.self

/-- What a request keeps of the items that are known. -/
theorem item_of_slabsAlloc (accounts : c.Accounts known out lost asked) {mem : Mem}
    {slabs : SlabAllocator} (pages : c.slabs.AddsPages slabs id c.mem mem) :
    ∀ b ∈ known, mem.item b = c.mem.item b := by
  intro b isKnown
  rcases accounts.isChunk b isKnown with ⟨i, isChunk⟩
  exact pages.item_eq accounts.charged.slabs isChunk

/-- A request that fails changes no account. -/
theorem slabsAlloc_none (accounts : c.Accounts known out lost asked)
    (fresh : c.slabs.MallocFresh os) {size : ℕ} (positive : 0 < size)
    (enough : size ≤ (c.slabs.slabclass id).size) (run : c.slabsAlloc size id os = .ok (c', none)) :
    c.SettlesTo c' known out lost asked all := by
  have table := accounts.closed.table.slabsAlloc run
  rcases bind_eq_ok.mp run with ⟨⟨slabs, mem, chunk⟩, allocated, done⟩
  cases done
  rcases accounts.charged.doSlabsAlloc fresh positive enough allocated with
    ⟨same, pages, ⟨-, slabList, charged⟩ | ⟨a, none, -⟩⟩
  · have item := accounts.item_of_slabsAlloc pages
    have closed := accounts.closed
    refine ⟨out, lost, [], ⟨⟨table, closed.heads, closed.tails, ?_, ?_⟩, charged, ?_,
      accounts.isKnown, ?_, ?_, ?_, ?_⟩, ⟨rfl, same, slabList, by simp⟩,
      fun _ => .of_addsPages same pages⟩
    · intro b isKnown next isNext
      have kept : mem.next b = c.mem.next b := congrArg HashItem.next (item b isKnown)
      exact closed.next b isKnown next (kept ▸ isNext)
    · intro b isKnown prev isPrev
      have kept : mem.prev b = c.mem.prev b := congrArg HashItem.prev (item b isKnown)
      exact closed.prev b isKnown prev (kept ▸ isPrev)
    · intro b isKnown
      rcases accounts.isChunk b isKnown with ⟨i, isChunk⟩
      exact ⟨i, pages.mem_chunks same isChunk⟩
    · intro i b isOut
      have kept : mem.slabsClsid b = c.mem.slabsClsid b :=
        congrArg HashItem.slabsClsid (item b (accounts.isKnown i b isOut))
      exact kept.trans (accounts.clsid i b isOut)
    · intro b isKnown notOut
      have kept : mem.slabsClsid b = c.mem.slabsClsid b :=
        congrArg HashItem.slabsClsid (item b isKnown)
      exact kept.trans (accounts.unused b isKnown notOut)
    · intro i b isOut
      have kept := item b (accounts.isKnown i b isOut)
      have nkey : mem.nkey b = c.mem.nkey b := congrArg HashItem.nkey kept
      have nbytes : mem.nbytes b = c.mem.nbytes b := congrArg HashItem.nbytes kept
      change sizeofHashItem + mem.nkey b + mem.nbytes b = asked b
      rw [nkey, nbytes]
      exact accounts.asked i b isOut
    · rw [same.powerLargest]
      exact accounts.range
  · cases none

/-- A chunk that is handed out and filled in carries the size that was asked for it. -/
theorem allocate (accounts : c.Accounts known out lost asked)
    (fresh : c.slabs.MallocFresh os) {size a : ℕ} {key : List UInt8} {nbytes : ℤ}
    (positive : 0 < size) (enough : size ≤ (c.slabs.slabclass id).size) (used : c.slabs.Used id)
    (recorded : size = sizeofHashItem + key.length % 2 ^ 16 + (nbytes % 2 ^ 32).toNat)
    (run : c.slabsAlloc size id os = .ok (c', some a))
    (filled : c'.initItem a id key nbytes = .ok c'') :
    (∀ i, a ∉ out i) ∧ c''.freed = c.freed ∧ c.slabs.Spares c''.slabs lost lost ∧
      c''.Accounts (insert a known) (Function.update out id (a :: out id)) lost
        (Function.update asked a size) := by
  have table := (accounts.closed.table.slabsAlloc run).initItem (Nat.le_of_lt (by omega)) filled
  rcases bind_eq_ok.mp run with ⟨⟨slabs, mem, chunk⟩, allocated, done⟩
  cases done
  rcases accounts.charged.doSlabsAlloc fresh positive enough allocated with
    ⟨same, pages, ⟨none, -⟩ | ⟨a', isChunk, notOut, newChunk, charged⟩⟩
  · cases none
  cases isChunk
  rcases bind_eq_ok.mp filled with ⟨-, -, rest⟩
  rcases bind_eq_ok.mp rest with ⟨head, -, rest⟩
  rcases bind_eq_ok.mp rest with ⟨-, -, rest⟩
  split at rest
  · cases rest
  cases rest
  have item := accounts.item_of_slabsAlloc pages
  have closed := accounts.closed
  have idRange : id % 2 ^ 8 = id := by
    have largest := accounts.range.2
    have upper := used.2
    simp only [powerLargest] at largest
    omega
  have mem_out (i b : ℕ) : b ∈ Function.update out id (a :: out id) i ↔
      (i = id ∧ b = a) ∨ b ∈ out i := by
    by_cases isId : i = id
    · subst isId
      simp
    · simp [isId]
  have notNew {i b : ℕ} (wasOut : b ∈ out i) : b ≠ a := by
    rintro rfl
    exact notOut i wasOut
  refine ⟨notOut, rfl, .of_addsPages same pages,
    ⟨⟨table, ?_, ?_, ?_, ?_⟩, charged, ?_, ?_, ?_, ?_, ?_, ?_⟩⟩
  · exact closed.heads.mono (Set.subset_insert a known)
  · exact closed.tails.mono (Set.subset_insert a known)
  · exact closed.next.insert (fun b isKnown => congrArg HashItem.next (item b isKnown)) a
  · exact closed.prev.insert (fun b isKnown => congrArg HashItem.prev (item b isKnown)) a
  · intro b isKnown
    rcases Set.mem_insert_iff.mp isKnown with rfl | wasKnown
    · exact ⟨id, newChunk⟩
    · rcases accounts.isChunk b wasKnown with ⟨i, isChunk⟩
      exact ⟨i, pages.mem_chunks same isChunk⟩
  · intro i b isOut
    rcases (mem_out i b).mp isOut with ⟨-, rfl⟩ | wasOut
    · exact Set.mem_insert b known
    · exact Set.mem_insert_of_mem a (accounts.isKnown i b wasOut)
  · intro i b isOut
    rcases (mem_out i b).mp isOut with ⟨rfl, rfl⟩ | wasOut
    · simpa using idRange
    · have other := notNew wasOut
      have kept : mem.slabsClsid b = c.mem.slabsClsid b :=
        congrArg HashItem.slabsClsid (item b (accounts.isKnown i b wasOut))
      simpa [other, kept] using accounts.clsid i b wasOut
  · intro b isKnown notOut'
    have other : b ≠ a := by
      rintro rfl
      exact notOut' id ((mem_out id b).mpr (Or.inl ⟨rfl, rfl⟩))
    have wasKnown := (Set.mem_insert_iff.mp isKnown).resolve_left other
    have kept : mem.slabsClsid b = c.mem.slabsClsid b :=
      congrArg HashItem.slabsClsid (item b wasKnown)
    have wasUnused := accounts.unused b wasKnown fun i wasOut =>
      notOut' i ((mem_out i b).mpr (Or.inr wasOut))
    simpa [other, kept] using wasUnused
  · intro i b isOut
    rcases (mem_out i b).mp isOut with ⟨-, rfl⟩ | wasOut
    · simp [Mem.itemNtotal, recorded]
    · have other := notNew wasOut
      have kept := item b (accounts.isKnown i b wasOut)
      have nkey : mem.nkey b = c.mem.nkey b := congrArg HashItem.nkey kept
      have nbytes : mem.nbytes b = c.mem.nbytes b := congrArg HashItem.nbytes kept
      simpa [Mem.itemNtotal, other, nkey, nbytes] using accounts.asked i b wasOut
  · change powerSmallest ≤ slabs.powerLargest ∧ slabs.powerLargest < powerLargest
    rw [same.powerLargest]
    exact accounts.range

end Accounts

namespace SettlesTo

theorem fresh (settled : c.SettlesTo c' known out lost asked all)
    (fresh : c.slabs.MallocFresh os) :
    c'.slabs.MallocFresh os := by
  rcases settled with ⟨out', lost', gone, -, settles, -⟩
  exact fresh.congr settles.table settles.slabList

theorem table (settled : c.SettlesTo c' known out lost asked all) :
    SameTable c.slabs c'.slabs := by
  rcases settled with ⟨out', lost', gone, -, settles, -⟩
  exact settles.table

/-- Another request that fails. -/
theorem request (settled : c.SettlesTo c' known out lost asked all)
    (fresh : c.slabs.MallocFresh os) {size : ℕ} (positive : 0 < size)
    (enough : size ≤ (c.slabs.slabclass id).size)
    (run : c'.slabsAlloc size id os = .ok (c'', none)) :
    c.SettlesTo c'' known out lost asked all := by
  apply settled.trans
  intro out' lost' accounts
  apply accounts.slabsAlloc_none (settled.fresh fresh) positive _ run
  rwa [settled.table.size]

end SettlesTo

namespace Accounts

/-- The attempts settle the accounts until one of them hands out a chunk. -/
theorem obtainChunk (accounts : c.Accounts known out lost asked)
    (sane : ∀ i, (sys.os i).Sane c.slabs) (reallocs : ∀ i, (sys.os i).Reallocs all) {size : ℕ}
    {chunk : Option ℕ} (positive : 0 < size)
    (enough : size ≤ (c.slabs.slabclass id).size)
    (run : c.obtainChunk size id sys = .ok (c', chunk)) :
    (chunk = none ∧ c.SettlesTo c' known out lost asked all) ∨
      ∃ c₁ i a, chunk = some a ∧ c.SettlesTo c₁ known out lost asked all ∧
        c₁.slabsAlloc size id (sys.os i) = .ok (c', some a) := by
  rcases bind_eq_ok.mp run with ⟨⟨c₁, first⟩, allocated₁, rest⟩
  cases first with
  | some a =>
      cases rest
      exact Or.inr ⟨c, 0, a, rfl, accounts.self, allocated₁⟩
  | none =>
      have settled₁ : c.SettlesTo c₁ known out lost asked all :=
        accounts.self.request (sane 0).fresh positive enough allocated₁
      rcases bind_eq_ok.mp rest with ⟨tail, -, rest⟩
      cases tail with
      | none =>
          cases rest
          exact Or.inl ⟨rfl, settled₁⟩
      | some tail =>
          rcases bind_eq_ok.mp rest with ⟨c₂, evicted, rest⟩
          have settled₂ := settled₁.trans fun _ _ accounts' =>
            accounts'.evict (reallocs 1) evicted
          rcases bind_eq_ok.mp rest with ⟨⟨c₃, second⟩, allocated₂, rest⟩
          cases second with
          | some a =>
              cases rest
              exact Or.inr ⟨c₂, 2, a, rfl, settled₂, allocated₂⟩
          | none =>
              have settled₃ := settled₂.request (sane 2).fresh positive enough allocated₂
              rcases bind_eq_ok.mp rest with ⟨c₄, repaired, rest⟩
              have settled₄ := settled₃.trans fun _ _ accounts' =>
                accounts'.tailRepair (reallocs 3) repaired
              cases chunk with
              | none => exact Or.inl ⟨rfl, settled₄.request (sane 4).fresh positive enough rest⟩
              | some a => exact Or.inr ⟨c₄, 4, a, rfl, settled₄, rest⟩

/-- An allocation charges the class of the item with what was asked for. -/
theorem itemAlloc (accounts : c.Accounts known out lost asked)
    (sane : ∀ i, (sys.os i).Sane c.slabs) (reallocs : ∀ i, (sys.os i).Reallocs all)
    {key : List UInt8} {nbytes : ℤ} {found : Option ℕ} (short : key.length < 2 ^ 16)
    (positive : 0 ≤ nbytes) (bound : nbytes < 2 ^ 31)
    (run : c.itemAlloc key nbytes sys = .ok (c', found)) :
    (found = none ∧ c.SettlesTo c' known out lost asked all) ∨
      ∃ a id out' lost' gone, found = some a ∧ c'.freed = gone ++ c.freed ∧
        (∀ i b, b ∈ out' i ↔ b ∈ out i ∧ b ∉ gone) ∧ (∀ i, a ∉ out' i) ∧
        c'.Accounts (insert a known) (Function.update out' id (a :: out' id)) lost'
          (Function.update asked a (ntotal key.length nbytes)) ∧
        (all → c.slabs.Spares c'.slabs lost lost') := by
  simp only [LruLists.itemAlloc, LruLists.doItemAlloc] at run
  split at run
  · cases run
    exact Or.inl ⟨rfl, accounts.self⟩
  rename_i accepted
  rcases of_slabsClsid accounts.range.1 accepted with ⟨used, enough, -⟩
  have total := ntotal_eq short positive bound
  have notZero : 0 < ntotal key.length nbytes := by
    rw [total]
    simp [sizeofHashItem]
  rcases bind_eq_ok.mp run with ⟨⟨c₁, chunk⟩, obtained, rest⟩
  rcases accounts.obtainChunk sane reallocs notZero enough obtained with
    ⟨rfl, settled⟩ | ⟨c₂, i, a, rfl, settled, allocated⟩
  · cases rest
    exact Or.inl ⟨rfl, settled⟩
  · rcases bind_eq_ok.mp rest with ⟨c₃, filled, done⟩
    cases done
    have table := settled.table
    have fresh := settled.fresh (sane i).fresh
    rcases settled with ⟨out', lost', gone, accounts', settles, spares⟩
    have recorded : ntotal key.length nbytes =
        sizeofHashItem + key.length % 2 ^ 16 + (nbytes % 2 ^ 32).toNat := by
      rw [total]
      omega
    rcases accounts'.allocate fresh notZero (by rwa [table.size])
      (by simpa only [Used, table.powerLargest] using used) recorded allocated filled with
      ⟨notOut, freed, spares', accounts''⟩
    exact Or.inr ⟨a, _, out', lost', gone, rfl, freed.trans settles.freed, settles.mem_out, notOut,
      accounts'', fun grants => (spares grants).trans spares'⟩

end Accounts

end LruLists

end ChaosCache
