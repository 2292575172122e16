import ChaosCache.Lru.Invariant

/-!
# What the list operations do

One lemma for each operation: it returns, keeps the invariant, and changes the view in
the way stated. Reference counts are tracked exactly, also where they wrap.
-/

namespace ChaosCache

open Blocks Hash Links

variable {keys : Set (List UInt8)} {c : LruLists} {v : View} {it id : ℕ}

namespace ItemsInv

theorem mem_list_of_stored (inv : ItemsInv keys c v) (isStored : it ∈ v.stored) :
    it ∈ v.lists (c.mem.slabsClsid it) := by
  rcases (inv.mem_stored it).mp isStored with ⟨id, inList⟩
  rwa [inv.clsid id it ((inv.mem_list id it).mp inList).1]

theorem mem_out_of_stored (inv : ItemsInv keys c v) (isStored : it ∈ v.stored) :
    it ∈ v.out (c.mem.slabsClsid it) :=
  ((inv.mem_list _ it).mp (inv.mem_list_of_stored isStored)).1

theorem live_of_stored (inv : ItemsInv keys c v) (isStored : it ∈ v.stored) : v.Live it :=
  ⟨_, inv.mem_out_of_stored isStored⟩

theorem linked_of_stored (inv : ItemsInv keys c v) (isStored : it ∈ v.stored) :
    c.mem.itemLinked it = true :=
  ((inv.mem_list _ it).mp (inv.mem_list_of_stored isStored)).2

theorem mem_out_clsid (inv : ItemsInv keys c v) (live : v.Live it) :
    it ∈ v.out (c.mem.slabsClsid it) := by
  rcases live with ⟨id, handedOut⟩
  rwa [inv.clsid id it handedOut]

theorem linked_iff_stored (inv : ItemsInv keys c v) (live : v.Live it) :
    c.mem.itemLinked it = true ↔ it ∈ v.stored := by
  refine ⟨fun linked => ?_, inv.linked_of_stored⟩
  have handedOut := inv.mem_out_clsid live
  exact (inv.mem_stored it).mpr ⟨_, (inv.mem_list _ it).mpr ⟨handedOut, linked⟩⟩

theorem not_mem_list (inv : ItemsInv keys c v) (notStored : it ∉ v.stored) (id : ℕ) :
    it ∉ v.lists id :=
  fun inList => notStored ((inv.mem_stored it).mpr ⟨id, inList⟩)

end ItemsInv

namespace CacheInv

theorem range_clsid (inv : CacheInv keys c v) (live : v.Live it) :
    c.mem.slabsClsid it < powerLargest := by
  have used := inv.slabs.used_of_mem_out (inv.mem_out_clsid live)
  exact used.2.trans_lt inv.range.2

theorem address (inv : CacheInv keys c v) (live : v.Live it) : it < addressSpace := by
  have isChunk := inv.slabs.mem_chunks_of_mem_out (inv.mem_out_clsid live)
  rcases SlabClass.mem_chunks.mp isChunk with ⟨b, isSlab, inSlab⟩
  have inside := inv.slabs.inside_slab isSlab inSlab
  have user := (inv.slabs.user _ b isSlab).2
  have positive := (inv.slabs.sized _ (inv.slabs.used_of_mem isSlab)).1
  simp only [userSpace, addressSpace] at *
  omega

theorem linked_iff_of_chunk (inv : CacheInv keys c v)
    (isChunk : it ∈ (c.slabs.slabclass id).chunks) :
    c.mem.itemLinked it = true ↔ it ∈ v.stored := by
  by_cases live : v.Live it
  · exact inv.linked_iff_stored live
  · have unlinked := (inv.unused id it isChunk fun handedOut => live ⟨id, handedOut⟩).2
    simp only [unlinked, Bool.false_eq_true, false_iff]
    exact fun isStored => live (inv.live_of_stored isStored)

theorem class_of_mem_out (inv : CacheInv keys c v) {id' : ℕ} (handedOut : it ∈ v.out id)
    (handedOut' : it ∈ v.out id') : id = id' :=
  (inv.clsid id it handedOut).symm.trans (inv.clsid id' it handedOut')

end CacheInv

/-! ## Fields the invariant does not speak of -/

namespace CacheInv

theorem setRefcount (inv : CacheInv keys c v) (refcount : ℕ → ℕ) :
    CacheInv keys { c with mem := { c.mem with refcount } } v :=
  { inv with table := inv.table.congr (fun _ _ => rfl) (fun _ _ => rfl) }

theorem setTime (inv : CacheInv keys c v) (time : ℕ → ℕ) :
    CacheInv keys { c with mem := { c.mem with time } } v :=
  { inv with table := inv.table.congr (fun _ _ => rfl) (fun _ _ => rfl) }

end CacheInv

/-! ## Unlinking -/

/-- The view after an item has been taken out of the table and its list. -/
def View.detach (v : View) (id it : ℕ) : View :=
  { v with
    lists := Function.update v.lists id ((v.lists id).erase it)
    stored := v.stored.erase it
    chains := fun slot => (v.chains slot).erase it }

/-- What a section does to the fields that are not contents. -/
structure Effect (c c' : LruLists) : Prop extends Frame c c' where
  refcount : c'.mem.refcount = c.mem.refcount
  freed : c'.freed = c.freed
  repaired : c'.repaired = c.repaired

namespace LruLists

theorem detach_eq (inv : CacheInv keys c v) (keySet : KeySet keys) (isStored : it ∈ v.stored) :
    ∃ c', c.detach it = .ok c' ∧ CacheInv keys c' (v.detach (c.mem.slabsClsid it) it) ∧
      Effect c c' ∧ c'.slabs = c.slabs ∧ c'.mem.time = c.mem.time := by
  have live := inv.live_of_stored isStored
  have inList := inv.mem_list_of_stored isStored
  have unlinkedTable : AssociativeArray.TableInv c.assoc
      { c.mem with itemLinked := Function.update c.mem.itemLinked it false } v.stored v.chains :=
    inv.table.congr (fun _ _ => rfl) (fun _ _ => rfl)
  rcases unlinkedTable.assocFind_key keySet inv.hashes inv.keys
    inv.distinct (inv.keys it isStored) with ⟨found, lookup, sound⟩
  rcases (sound it).mpr ⟨isStored, rfl⟩ with rfl
  rw [← inv.hashes it isStored] at lookup
  rcases unlinkedTable.assocDelete lookup with ⟨assoc, hNext, deleted, table⟩
  rcases itemUnlinkQ_eq (c := { c with
      assoc
      mem := { c.mem with
        itemLinked := Function.update c.mem.itemLinked it false
        hNext } }) inv.lists (inv.range_clsid live) inList with
    ⟨next, prev, heads, tails, sizes, unlinked, lists⟩
  have run : c.detach it = .ok { c with
      assoc
      mem := { c.mem with
        itemLinked := Function.update c.mem.itemLinked it false
        hNext
        next
        prev }
      heads
      tails
      sizes } := bind_of_ok deleted unlinked
  have notTwice : it ∉ (v.lists (c.mem.slabsClsid it)).erase it :=
    (inv.lists.nodup _).not_mem_erase
  have members (id a : ℕ) : a ∈ (v.detach (c.mem.slabsClsid it) it).lists id ↔
      a ∈ v.lists id ∧ a ≠ it := inv.lists.mem_erase inList id a
  refine ⟨_, run,
    { slabs := inv.slabs
      table := table.congr (fun _ _ => rfl) (fun _ _ => rfl)
      lists := lists
      mem_list := fun id a => ?_
      mem_stored := fun a => ?_
      clsid := inv.clsid
      unused := fun id a isChunk notOut => ?_
      slabbed := inv.slabbed
      fits := inv.fits
      hashes := fun a isStored => inv.hashes a (Finset.mem_of_mem_erase isStored)
      keys := fun a isStored => inv.keys a (Finset.mem_of_mem_erase isStored)
      distinct := fun a isStored b isStored' =>
        inv.distinct a (Finset.mem_of_mem_erase isStored) b (Finset.mem_of_mem_erase isStored')
      range := inv.range
      sizeMax := inv.sizeMax
      small := inv.small
      pages := inv.pages
      room := inv.room },
    { settings := rfl
      nkey := rfl
      nbytes := rfl
      bytes := rfl
      hv := rfl
      table := ⟨rfl, fun _ => rfl, fun _ => rfl⟩
      slabList := fun _ => rfl
      refcount := rfl
      freed := rfl
      repaired := rfl },
    rfl, rfl⟩
  · rw [members, inv.mem_list, and_assoc]
    refine and_congr_right fun handedOut => ?_
    by_cases same : a = it
    · simp [same]
    · simp [same]
  · change a ∈ v.stored.erase it ↔ _
    simp only [members, Finset.mem_erase, inv.mem_stored]
    constructor
    · rintro ⟨differs, id, inOther⟩
      exact ⟨id, inOther, differs⟩
    · rintro ⟨id, inOther, differs⟩
      exact ⟨differs, id, inOther⟩
  · have differs : a ≠ it := by
      rintro rfl
      have handedOut := inv.mem_out_of_stored isStored
      have isChunk' := inv.slabs.mem_chunks_of_mem_out handedOut
      exact notOut (inv.slabs.class_unique isChunk isChunk' ▸ handedOut)
    rcases inv.unused id a isChunk notOut with ⟨noClass, notLinked⟩
    exact ⟨noClass, by simpa [differs] using notLinked⟩

end LruLists

/-! ## Freeing -/

/-- The view after a chunk has been given back. -/
def View.free (v : View) (id it : ℕ) (lost : ℕ → List ℕ) : View :=
  { v with out := Function.update v.out id ((v.out id).erase it), lost }

/-- What a call of `item_free` leaves alone. -/
structure FreeEffect (c c' : LruLists) (it : ℕ) : Prop extends Frame c c' where
  refcount : c'.mem.refcount = c.mem.refcount
  time : c'.mem.time = c.mem.time
  freed : c'.freed = it :: c.freed
  repaired : c'.repaired = c.repaired

theorem CacheInv.mem_out_free (inv : CacheInv keys c v) {lost : ℕ → List ℕ}
    (handedOut : it ∈ v.out id) (id' a : ℕ) :
    a ∈ (v.free id it lost).out id' ↔ a ∈ v.out id' ∧ a ≠ it := by
  simp only [View.free]
  by_cases same : id' = id
  · subst same
    rw [Function.update_self, (inv.slabs.nodup_out _).mem_erase_iff, and_comm]
  · rw [Function.update_of_ne same, iff_self_and]
    rintro handedOut' rfl
    exact same (inv.class_of_mem_out handedOut' handedOut)

namespace LruLists

theorem itemFree_run (inv : CacheInv keys c v) (inRange : c.mem.slabsClsid it < powerLargest)
    (notStored : it ∉ v.stored) (notLinked : c.mem.itemLinked it = false)
    (noRef : c.mem.refcount it = 0) {os : Os} {slabs : SlabAllocator}
    (freed : c.slabs.doSlabsFree it (c.mem.itemNtotal it) (c.mem.slabsClsid it) os = .ok slabs) :
    c.itemFree it os = .ok { c with
      slabs
      mem := { c.mem with
        slabsClsid := Function.update c.mem.slabsClsid it 0
        itemSlabbed := Function.update c.mem.itemSlabbed it true }
      freed := it :: c.freed } := by
  have notHead : some it ≠ c.heads (c.mem.slabsClsid it) :=
    (inv.lists.not_head (inv.not_mem_list notStored _)).symm
  have notTail : some it ≠ c.tails (c.mem.slabsClsid it) :=
    (inv.lists.not_tail (inv.not_mem_list notStored _)).symm
  simp only [itemFree, head, tail, if_pos inRange, ok_bind, check_eq_ok notLinked,
    check_eq_ok notHead, check_eq_ok notTail, check_eq_ok noRef]
  exact bind_of_ok freed rfl

theorem itemFree_eq (inv : CacheInv keys c v) (handedOut : it ∈ v.out id)
    (notStored : it ∉ v.stored) (noRef : c.mem.refcount it = 0) {os : Os}
    (fits : ∀ n, os.realloc n = true → n ≤ userSpace) :
    ∃ c' lost, c.itemFree it os = .ok c' ∧ CacheInv keys c' (v.free id it lost) ∧
      FreeEffect c c' it ∧ SlabAllocator.Frees c.slabs c'.slabs id it os := by
  have live : v.Live it := ⟨id, handedOut⟩
  have cls := inv.clsid id it handedOut
  have notLinked : c.mem.itemLinked it = false := by
    rw [← Bool.not_eq_true, inv.linked_iff_stored live]
    exact notStored
  have grows : (c.slabs.slabclass id).SlotsGrow os := fun _ _ => grown_gt (inv.room id)
  rcases SlabAllocator.doSlabsFree_eq inv.slabs handedOut
    grows (c.mem.itemNtotal it) with ⟨slabs, lost, freed, frees, slabInv, -⟩
  have run := itemFree_run inv (inv.range_clsid live) notStored notLinked noRef (cls ▸ freed)
  have sameUsed (i : ℕ) : slabs.Used i ↔ c.slabs.Used i := by
    simp only [SlabAllocator.Used, frees.table.powerLargest]
  have sameChunks (i : ℕ) : (slabs.slabclass i).chunks = (c.slabs.slabclass i).chunks := by
    simp only [SlabClass.chunks, frees.table.size, frees.table.perslab, frees.slabList]
  refine ⟨_, lost, run,
    { slabs := slabInv
      table := inv.table.congr (fun _ _ => rfl) (fun _ _ => rfl)
      lists := inv.lists
      mem_list := fun i a => ?_
      mem_stored := inv.mem_stored
      clsid := fun i a handedOut' => ?_
      unused := fun i a isChunk notOut => ?_
      slabbed := fun i a handedOut' => ?_
      fits := fun i a handedOut' => ?_
      hashes := inv.hashes
      keys := inv.keys
      distinct := inv.distinct
      range := frees.table.powerLargest ▸ inv.range
      sizeMax := fun i => frees.table.size i ▸ inv.sizeMax i
      small := inv.small
      pages := fun i used => ?_
      room := frees.room fits inv.room },
    { settings := rfl
      nkey := rfl
      nbytes := rfl
      bytes := rfl
      hv := rfl
      table := frees.table
      slabList := frees.slabList
      refcount := rfl
      time := rfl
      freed := rfl
      repaired := rfl }, frees⟩
  · rw [inv.mem_out_free handedOut]
    change a ∈ v.lists i ↔ _
    rw [inv.mem_list, and_assoc]
    refine and_congr_right fun handedOut' => ?_
    change c.mem.itemLinked a = true ↔ _ ∧ c.mem.itemLinked a = true
    rw [iff_and_self]
    rintro linked rfl
    simp [notLinked] at linked
  · rcases (inv.mem_out_free handedOut i a).mp handedOut' with ⟨handedOut', differs⟩
    exact (Function.update_of_ne differs _ _).trans (inv.clsid i a handedOut')
  · rw [inv.mem_out_free handedOut, not_and_not_right] at notOut
    by_cases same : a = it
    · subst same
      exact ⟨Function.update_self .., notLinked⟩
    · rcases inv.unused i a (sameChunks i ▸ isChunk) fun isOut =>
        same (notOut isOut) with ⟨noClass, unlinked⟩
      exact ⟨(Function.update_of_ne same _ _).trans noClass, unlinked⟩
  · rcases (inv.mem_out_free handedOut i a).mp handedOut' with ⟨handedOut', differs⟩
    exact (Function.update_of_ne differs _ _).trans (inv.slabbed i a handedOut')
  · rcases (inv.mem_out_free handedOut i a).mp handedOut' with ⟨handedOut', -⟩
    exact (frees.table.size i).symm ▸ inv.fits i a handedOut'
  · simp only [frees.table.size, frees.table.perslab]
    exact inv.pages i ((sameUsed i).mp used)

/-- Freeing a chunk again that has been given back changes nothing but the log. -/
theorem itemFree_unused (inv : CacheInv keys c v) (isChunk : it ∈ (c.slabs.slabclass id).chunks)
    (notLive : ¬v.Live it) (noRef : c.mem.refcount it = 0) (os : Os) :
    ∃ c', c.itemFree it os = .ok c' ∧ CacheInv keys c' v ∧ FreeEffect c c' it ∧
      c'.slabs = c.slabs := by
  rcases inv.unused id it isChunk fun handedOut => notLive ⟨id, handedOut⟩ with ⟨noClass, notLinked⟩
  have notStored : it ∉ v.stored := fun isStored => notLive (inv.live_of_stored isStored)
  have ignored : c.slabs.doSlabsFree it (c.mem.itemNtotal it) (c.mem.slabsClsid it) os =
      .ok c.slabs := by
    rw [noClass]
    exact if_pos (Or.inl (by decide))
  have inRange : c.mem.slabsClsid it < powerLargest := by
    rw [noClass]
    decide
  have run := itemFree_run inv inRange notStored notLinked noRef ignored
  have differs {i a : ℕ} (handedOut : a ∈ v.out i) : a ≠ it := by
    rintro rfl
    exact notLive ⟨i, handedOut⟩
  refine ⟨_, run, { inv with
      table := inv.table.congr (fun _ _ => rfl) (fun _ _ => rfl)
      clsid := fun i a handedOut =>
        (Function.update_of_ne (differs handedOut) _ _).trans (inv.clsid i a handedOut)
      unused := fun i a isChunk notOut => ?_
      slabbed := fun i a handedOut =>
        (Function.update_of_ne (differs handedOut) _ _).trans (inv.slabbed i a handedOut) },
    { Frame.refl c with
      refcount := rfl
      time := rfl
      freed := rfl
      repaired := rfl }, rfl⟩
  rcases inv.unused i a isChunk notOut with ⟨noClass', unlinked⟩
  refine ⟨?_, unlinked⟩
  by_cases same : a = it
  · subst same
    exact Function.update_self ..
  · exact (Function.update_of_ne same _ _).trans noClass'

end LruLists

/-! ## The operations -/

/-- A part of a section that hands out nothing gives back the chunks in `gone`, and frees
them in this order, the last one first. -/
structure Drops (c c' : LruLists) (v v' : View) (gone : List ℕ) : Prop extends Frame c c' where
  live : ∀ a, v'.Live a ↔ v.Live a ∧ a ∉ gone
  freed : c'.freed = gone ++ c.freed

namespace Drops

variable {c' c'' : LruLists} {v' v'' : View} {gone gone' : List ℕ}

theorem refl (c : LruLists) (v : View) : Drops c c v v [] :=
  { Frame.refl c with live := by simp, freed := rfl }

theorem trans (first : Drops c c' v v' gone) (second : Drops c' c'' v' v'' gone') :
    Drops c c'' v v'' (gone' ++ gone) :=
  { first.toFrame.trans second.toFrame with
    live := fun a => by
      rw [second.live, first.live, List.mem_append]
      tauto
    freed := by rw [second.freed, first.freed, List.append_assoc] }

theorem of_effect (effect : Effect c c') (same : v'.out = v.out) : Drops c c' v v' [] :=
  { effect.toFrame with
    live := by simp [View.Live, same]
    freed := effect.freed }

theorem setRefcount (c : LruLists) (v : View) (refcount : ℕ → ℕ) :
    Drops c { c with mem := { c.mem with refcount } } v v [] :=
  { refl c v with }

theorem of_free (inv : CacheInv keys c v) (handedOut : it ∈ v.out id) {lost : ℕ → List ℕ}
    (effect : FreeEffect c c' it) : Drops c c' v (v.free id it lost) [it] :=
  { effect.toFrame with
    live := fun a => by simp only [View.Live, inv.mem_out_free handedOut, List.mem_singleton,
      exists_and_right]
    freed := effect.freed }

end Drops

/-- What `do_item_unlink` does. -/
structure Unlinks (c c' : LruLists) (v v' : View) (it : ℕ) (os : Os) : Prop where
  drops : Drops c c' v v' (if it ∈ v.stored ∧ c.mem.refcount it = 0 then [it] else [])
  refcount : c'.mem.refcount = c.mem.refcount
  time : c'.mem.time = c.mem.time
  repaired : c'.repaired = c.repaired
  stored : v'.stored = v.stored.erase it
  lists : it ∈ v.stored → v'.lists = Function.update v.lists (c.mem.slabsClsid it)
    ((v.lists (c.mem.slabsClsid it)).erase it)
  frees : it ∈ v.stored → c.mem.refcount it = 0 →
    SlabAllocator.Frees c.slabs c'.slabs (c.mem.slabsClsid it) it os

namespace LruLists

theorem doItemUnlink_eq (inv : CacheInv keys c v) (keySet : KeySet keys) (live : v.Live it)
    {os : Os} (fits : ∀ n, os.realloc n = true → n ≤ userSpace) :
    ∃ c' v', c.doItemUnlink it os = .ok c' ∧ CacheInv keys c' v' ∧ Unlinks c c' v v' it os := by
  by_cases isStored : it ∈ v.stored
  · rcases detach_eq inv keySet isStored with ⟨c₁, detached, inv₁, effect, sameSlabs, time⟩
    have linked := inv.linked_of_stored isStored
    have detaches := Drops.of_effect (v := v) effect
      (show (v.detach (c.mem.slabsClsid it) it).out = v.out from rfl)
    simp only [doItemUnlink, linked, if_true]
    by_cases noRef : c.mem.refcount it = 0
    · have noRef₁ : c₁.mem.refcount it = 0 := by rw [effect.refcount, noRef]
      have handedOut := inv.mem_out_of_stored isStored
      rcases itemFree_eq inv₁ (v := v.detach (c.mem.slabsClsid it) it) handedOut
        (Finset.notMem_erase it _) noRef₁ fits with ⟨c₂, lost, freed, inv₂, frees, slots⟩
      refine ⟨c₂, _, bind_of_ok detached (by rw [if_pos noRef₁]; exact freed), inv₂,
        { drops := ?_
          refcount := frees.refcount.trans effect.refcount
          time := frees.time.trans time
          repaired := frees.repaired.trans effect.repaired
          stored := rfl
          lists := fun _ => rfl
          frees := fun _ _ => sameSlabs ▸ slots }⟩
      rw [if_pos ⟨isStored, noRef⟩]
      simpa using detaches.trans (.of_free inv₁ handedOut frees)
    · have noRef₁ : ¬c₁.mem.refcount it = 0 := by rwa [effect.refcount]
      refine ⟨c₁, _, bind_of_ok detached (by rw [if_neg noRef₁]; rfl), inv₁,
        { drops := ?_
          refcount := effect.refcount
          time := time
          repaired := effect.repaired
          stored := rfl
          lists := fun _ => rfl
          frees := fun _ isZero => absurd isZero noRef }⟩
      rw [if_neg fun ⟨_, isZero⟩ => noRef isZero]
      exact detaches
  · have notLinked : ¬c.mem.itemLinked it = true := by rwa [inv.linked_iff_stored live]
    refine ⟨c, v, if_neg notLinked, inv,
      { drops := ?_
        refcount := rfl
        time := rfl
        repaired := rfl
        stored := (Finset.erase_eq_of_notMem isStored).symm
        lists := fun isStored' => absurd isStored' isStored
        frees := fun isStored' => absurd isStored' isStored }⟩
    rw [if_neg fun ⟨isStored', _⟩ => isStored isStored']
    exact .refl c v

/-- A release of an item that is still handed out, or that was given back before. -/
theorem doItemRelease_eq (inv : CacheInv keys c v) {id : ℕ}
    (isChunk : it ∈ (c.slabs.slabclass id).chunks)
    (noRef : ¬v.Live it → c.mem.refcount it = 0) {os : Os}
    (fits : ∀ n, os.realloc n = true → n ≤ userSpace) :
    ∃ c' v', c.doItemRelease it os = .ok c' ∧ CacheInv keys c' v' ∧
      Drops c c' v v' (if c.mem.refcount it - 1 = 0 ∧ it ∉ v.stored then [it] else []) ∧
      c'.mem.refcount = Function.update c.mem.refcount it (c.mem.refcount it - 1) ∧
      c'.repaired = c.repaired ∧ v'.stored = v.stored := by
  have inv₁ := inv.setRefcount (Function.update c.mem.refcount it (c.mem.refcount it - 1))
  have decrement := Drops.setRefcount c v
    (Function.update c.mem.refcount it (c.mem.refcount it - 1))
  have notLinked_iff : c.mem.itemLinked it = false ↔ it ∉ v.stored := by
    rw [← inv.linked_iff_of_chunk isChunk, Bool.not_eq_true]
  by_cases last : c.mem.refcount it - 1 = 0 ∧ it ∉ v.stored
  · rcases last with ⟨noRef₁, notStored⟩
    have zero : (Function.update c.mem.refcount it (c.mem.refcount it - 1)) it = 0 := by
      rw [Function.update_self, noRef₁]
    have branch {c' : LruLists} (freed : itemFree { c with mem := { c.mem with
          refcount := Function.update c.mem.refcount it (c.mem.refcount it - 1) } } it os =
          .ok c') : c.doItemRelease it os = .ok c' :=
      (if_pos ⟨zero, notLinked_iff.mpr notStored⟩).trans freed
    rw [if_pos ⟨noRef₁, notStored⟩]
    by_cases live : v.Live it
    · rcases live with ⟨id', handedOut⟩
      rcases itemFree_eq inv₁ handedOut notStored zero fits with ⟨c₂, lost, freed, inv₂, frees, -⟩
      refine ⟨c₂, _, branch freed, inv₂, ?_, frees.refcount, frees.repaired, rfl⟩
      simpa using decrement.trans (.of_free inv₁ handedOut frees)
    · rcases itemFree_unused inv₁ isChunk live zero os with ⟨c₂, freed, inv₂, frees, -⟩
      refine ⟨c₂, v, branch freed, inv₂, ?_, frees.refcount, frees.repaired, rfl⟩
      refine { frees.toFrame with live := fun a => ?_, freed := frees.freed }
      rw [List.mem_singleton, iff_self_and]
      rintro isLive rfl
      exact live isLive
  · have goesOn : ¬((Function.update c.mem.refcount it (c.mem.refcount it - 1)) it = 0 ∧
        c.mem.itemLinked it = false) := by
      rwa [Function.update_self, notLinked_iff]
    rw [if_neg last]
    exact ⟨_, v, if_neg goesOn, inv₁, decrement, rfl, rfl, rfl⟩

end LruLists

theorem CacheInv.relist (inv : CacheInv keys c v) {next prev heads tails : ℕ → Option ℕ}
    {sizes : ℕ → ℕ} {lists : ℕ → List ℕ} (linked : ListsInv next prev heads tails sizes lists)
    (members : ∀ id a, a ∈ lists id ↔ a ∈ v.lists id) :
    CacheInv keys { c with mem := { c.mem with next, prev }, heads, tails, sizes }
      { v with lists } :=
  { inv with
    table := inv.table.congr (fun _ _ => rfl) (fun _ _ => rfl)
    lists := linked
    mem_list := fun id a => (members id a).trans (inv.mem_list id a)
    mem_stored := fun a => (inv.mem_stored a).trans (by simp only [members]) }

namespace LruLists

theorem doItemUpdate_eq (inv : CacheInv keys c v) (isStored : it ∈ v.stored) (now : ℕ) :
    ∃ c' v', c.doItemUpdate it now = .ok c' ∧ CacheInv keys c' v' ∧ Effect c c' ∧
      v'.out = v.out ∧ v'.stored = v.stored := by
  simp only [doItemUpdate]
  by_cases stale : c.mem.time it < (now % 2 ^ 32 + (2 ^ 32 - itemUpdateInterval)) % 2 ^ 32
  · have live := inv.live_of_stored isStored
    have inRange := inv.range_clsid live
    have notSlabbed := inv.slabbed _ it (inv.mem_out_clsid live)
    have inList := inv.mem_list_of_stored isStored
    have linked := inv.linked_of_stored isStored
    rcases itemUnlinkQ_itemLinkQ_eq
      inv.lists inRange notSlabbed inList (now % 2 ^ 32) with
      ⟨next, prev, heads, tails, sizes, renewed, lists⟩
    have inv' := (inv.setTime (Function.update c.mem.time it (now % 2 ^ 32))).relist lists
      (inv.lists.mem_renew inList)
    rw [if_pos stale, check_eq_ok notSlabbed, ok_bind, if_pos linked]
    refine ⟨_, _, renewed, inv', ?_, rfl, rfl⟩
    exact { Frame.refl c with refcount := rfl, freed := rfl, repaired := rfl }
  · rw [if_neg stale]
    exact ⟨c, v, rfl, inv, { Frame.refl c with refcount := rfl, freed := rfl, repaired := rfl },
      rfl, rfl⟩

theorem doItemGet_eq (inv : CacheInv keys c v) (keySet : KeySet keys) {key : List UInt8}
    (isKey : key ∈ keys) (now : ℕ) :
    (c.doItemGet key (hashKey key) now = .ok (c, none) ∧ ∀ a ∈ v.stored, c.mem.key a ≠ key) ∨
      ∃ c' v' it, c.doItemGet key (hashKey key) now = .ok (c', some it) ∧
        it ∈ v.stored ∧ c.mem.key it = key ∧ CacheInv keys c' v' ∧ Drops c c' v v' [] ∧
        c'.mem.refcount = Function.update c.mem.refcount it ((c.mem.refcount it + 1) % 2 ^ 16) ∧
        c'.repaired = c.repaired ∧ v'.out = v.out ∧ v'.stored = v.stored := by
  rcases inv.table.assocFind_key keySet inv.hashes inv.keys inv.distinct
    isKey with ⟨found, lookup, sound⟩
  cases found with
  | none =>
      refine Or.inl ⟨bind_of_ok lookup rfl, fun a isStored sameKey => ?_⟩
      exact absurd ((sound a).mpr ⟨isStored, sameKey⟩) (by simp)
  | some it =>
      rcases (sound it).mp rfl with ⟨isStored, sameKey⟩
      have counted := Drops.setRefcount c v
        (Function.update c.mem.refcount it ((c.mem.refcount it + 1) % 2 ^ 16))
      rcases doItemUpdate_eq (inv.setRefcount _) isStored now with
        ⟨c', v', updated, inv', effect, sameOut, sameStored⟩
      refine Or.inr ⟨c', v', it, ?_, isStored, sameKey, inv', ?_, effect.refcount,
        effect.repaired, sameOut, sameStored⟩
      · exact bind_of_ok lookup (bind_of_ok updated rfl)
      · simpa using counted.trans (.of_effect effect sameOut)

theorem doItemLink_eq (inv : CacheInv keys c v) (keySet : KeySet keys) (live : v.Live it)
    (notStored : it ∉ v.stored) (isKey : c.mem.key it ∈ keys)
    (hashed : c.mem.hv it = hashKey (c.mem.key it))
    (unique : ∀ a ∈ v.stored, c.mem.key a ≠ c.mem.key it) (few : v.stored.card < 2 ^ 30)
    (now : ℕ) (expansion : Expansion) :
    ∃ c' v', c.doItemLink it now expansion = .ok c' ∧ CacheInv keys c' v' ∧ Effect c c' ∧
      v'.out = v.out ∧ v'.stored = insert it v.stored := by
  have handedOut := inv.mem_out_clsid live
  have notLinked : c.mem.itemLinked it = false := by
    rwa [← Bool.not_eq_true, inv.linked_iff_stored live]
  have notSlabbed := inv.slabbed _ it handedOut
  have short : c.mem.nbytes it < c.settings.itemSizeMax := by
    have inChunk := inv.fits _ it handedOut
    have chunkSize := inv.sizeMax (c.mem.slabsClsid it)
    simp only [Mem.itemNtotal, sizeofHashItem] at inChunk
    omega
  have table : AssociativeArray.TableInv c.assoc { c.mem with
      itemLinked := Function.update c.mem.itemLinked it true
      time := Function.update c.mem.time it (now % 2 ^ 32) } v.stored v.chains :=
    inv.table.congr (fun _ _ => rfl) (fun _ _ => rfl)
  rcases table.assocFind_key keySet inv.hashes inv.keys inv.distinct isKey with
    ⟨found, lookup, sound⟩
  obtain rfl : found = none := by
    cases found with
    | none => rfl
    | some a =>
        rcases (sound a).mp rfl with ⟨isStored, sameKey⟩
        exact absurd sameKey (unique a isStored)
  rw [← hashed] at lookup
  rcases table.assocInsert notStored (inv.address live)
    expansion lookup (table.power_of_card few lookup) with ⟨assoc, hNext, chains, inserted, table'⟩
  have fresh := inv.not_mem_list notStored
  rcases itemLinkQ_eq
    (c := { c with
      assoc
      mem := { c.mem with
        itemLinked := Function.update c.mem.itemLinked it true
        time := Function.update c.mem.time it (now % 2 ^ 32)
        hNext } }) inv.lists (inv.range_clsid live) notSlabbed fresh with
    ⟨next, prev, heads, tails, sizes, linked, lists⟩
  have run : c.doItemLink it now expansion = _ :=
    bind_of_ok (check_eq_ok ⟨notLinked, notSlabbed⟩)
      (bind_of_ok (check_eq_ok short) (bind_of_ok inserted linked))
  have members (id a : ℕ) : a ∈ Function.update v.lists (c.mem.slabsClsid it)
      (it :: v.lists (c.mem.slabsClsid it)) id ↔
        a ∈ v.lists id ∨ (a = it ∧ id = c.mem.slabsClsid it) := ListsInv.mem_push id a
  refine ⟨_, { v with
      lists := Function.update v.lists (c.mem.slabsClsid it)
        (it :: v.lists (c.mem.slabsClsid it))
      stored := insert it v.stored
      chains }, run,
    { slabs := inv.slabs
      table := table'.congr (fun _ _ => rfl) (fun _ _ => rfl)
      lists := lists
      mem_list := fun id a => ?_
      mem_stored := fun a => ?_
      clsid := inv.clsid
      unused := fun id a isChunk notOut => ?_
      slabbed := inv.slabbed
      fits := inv.fits
      hashes := fun a isStored => ?_
      keys := fun a isStored => ?_
      distinct := fun a isStored b isStored' sameKey => ?_
      range := inv.range
      sizeMax := inv.sizeMax
      small := inv.small
      pages := inv.pages
      room := inv.room },
    { Frame.refl c with refcount := rfl, freed := rfl, repaired := rfl }, rfl, rfl⟩
  · rw [members, inv.mem_list]
    by_cases same : a = it
    · subst same
      simp only [Function.update_self, and_true]
      constructor
      · rintro (⟨handedOut', -⟩ | ⟨-, rfl⟩)
        · exact handedOut'
        · exact handedOut
      · exact fun handedOut' => Or.inr ⟨trivial, inv.class_of_mem_out handedOut' handedOut⟩
    · simp [same]
  · simp only [Finset.mem_insert, members, inv.mem_stored]
    constructor
    · rintro (rfl | ⟨id, inList⟩)
      · exact ⟨_, Or.inr ⟨rfl, rfl⟩⟩
      · exact ⟨id, Or.inl inList⟩
    · rintro ⟨id, inList | ⟨rfl, -⟩⟩
      · exact Or.inr ⟨id, inList⟩
      · exact Or.inl rfl
  · have differs : a ≠ it := by
      rintro rfl
      have isChunk' := inv.slabs.mem_chunks_of_mem_out handedOut
      exact notOut (inv.slabs.class_unique isChunk isChunk' ▸ handedOut)
    rcases inv.unused id a isChunk notOut with ⟨noClass, unlinked⟩
    exact ⟨noClass, by simpa [differs] using unlinked⟩
  · rcases Finset.mem_insert.mp isStored with rfl | isStored
    · exact hashed
    · exact inv.hashes a isStored
  · rcases Finset.mem_insert.mp isStored with rfl | isStored
    · exact isKey
    · exact inv.keys a isStored
  · rcases Finset.mem_insert.mp isStored with rfl | isOld <;>
      rcases Finset.mem_insert.mp isStored' with rfl | isOld'
    · rfl
    · exact absurd sameKey.symm (unique b isOld')
    · exact absurd sameKey (unique a isOld)
    · exact inv.distinct a isOld b isOld' sameKey

theorem doStoreItem_fresh (inv : CacheInv keys c v) (keySet : KeySet keys) (live : v.Live it)
    (notStored : it ∉ v.stored) (isKey : c.mem.key it ∈ keys)
    (hashed : c.mem.hv it = hashKey (c.mem.key it))
    (unique : ∀ a ∈ v.stored, c.mem.key a ≠ c.mem.key it) (few : v.stored.card < 2 ^ 30)
    (sys : System) :
    ∃ c' v', c.doStoreItem it sys = .ok c' ∧ CacheInv keys c' v' ∧ Drops c c' v v' [] ∧
      c'.mem.refcount = c.mem.refcount ∧ c'.repaired = c.repaired ∧
      v'.stored = insert it v.stored := by
  rcases doItemGet_eq inv keySet isKey (sys.now 0) with
    ⟨missed, -⟩ | ⟨_, _, old, -, isStored, sameKey, -⟩
  · rcases doItemLink_eq inv keySet live
      notStored isKey hashed unique few (sys.now 1) sys.expansion with
      ⟨c', v', linked, inv', effect, sameOut, stored⟩
    rw [← hashed] at missed
    exact ⟨c', v', bind_of_ok missed linked, inv', .of_effect effect sameOut, effect.refcount,
      effect.repaired, stored⟩
  · exact absurd sameKey (unique old isStored)

theorem doStoreItem_replace (inv : CacheInv keys c v) (keySet : KeySet keys) (live : v.Live it)
    (notStored : it ∉ v.stored) (hashed : c.mem.hv it = hashKey (c.mem.key it))
    (few : v.stored.card < 2 ^ 30) {old : ℕ} (isStored : old ∈ v.stored)
    (sameKey : c.mem.key old = c.mem.key it) (sys : System)
    (fits : ∀ i n, (sys.os i).realloc n = true → n ≤ userSpace) :
    ∃ c' v' gone, c.doStoreItem it sys = .ok c' ∧ CacheInv keys c' v' ∧ Drops c c' v v' gone ∧
      (∀ a, a ∈ gone ↔ a = old ∧ (c.mem.refcount old + 1) % 2 ^ 16 ≤ 1) ∧
      c'.mem.refcount =
        Function.update c.mem.refcount old ((c.mem.refcount old + 1) % 2 ^ 16 - 1) ∧
      c'.repaired = c.repaired ∧ v'.stored = insert it (v.stored.erase old) := by
  have isKey := inv.keys old isStored
  rcases doItemGet_eq inv keySet isKey (sys.now 0) with
    ⟨-, missed⟩ | ⟨c₁, v₁, old', got, isStored', sameKey', inv₁, dropped₁, count₁, repaired₁, out₁,
      stored₁⟩
  · exact absurd rfl (missed old isStored)
  obtain rfl : old' = old := inv.distinct old' isStored' old isStored sameKey'
  have differs : it ≠ old' := by
    rintro rfl
    exact notStored isStored
  have counted : c₁.mem.refcount old' = (c.mem.refcount old' + 1) % 2 ^ 16 := by
    rw [count₁, Function.update_self]
  have oldLive : v₁.Live old' := (dropped₁.live old').mpr ⟨inv.live_of_stored isStored, by simp⟩
  have oldStored : old' ∈ v₁.stored := stored₁ ▸ isStored
  have notSlabbed := inv₁.slabbed _ old' (inv₁.mem_out_clsid oldLive)
  rcases doItemUnlink_eq inv₁ keySet oldLive (fits 0) with ⟨c₂, v₂, unlinked, inv₂, unlinks⟩
  have dropped₂ := unlinks.drops
  have stored₂ := unlinks.stored
  have live₂ : v₂.Live it := by
    refine (dropped₂.live it).mpr ⟨(dropped₁.live it).mpr ⟨live, by simp⟩, ?_⟩
    split <;> simp [differs]
  have key₂ (a : ℕ) : c₂.mem.key a = c.mem.key a := (dropped₂.key a).trans (dropped₁.key a)
  rw [stored₁] at stored₂
  rcases doItemLink_eq inv₂ keySet live₂
    (by simp [stored₂, notStored]) (by rw [key₂, ← sameKey]; exact isKey)
    (by rw [key₂, dropped₂.hv, dropped₁.hv]; exact hashed)
    (fun a isStored' sameKey' => by
      rw [stored₂, Finset.mem_erase] at isStored'
      rw [key₂, key₂, ← sameKey] at sameKey'
      exact isStored'.1 (inv.distinct a isStored'.2 old' isStored sameKey'))
    (by rw [stored₂]; exact (Finset.card_erase_le).trans_lt few) (sys.now 1) sys.expansion with
    ⟨c₃, v₃, linked, inv₃, effect₃, out₃, stored₃⟩
  have dropped₃ := Drops.of_effect effect₃ out₃
  have total := (dropped₁.trans dropped₂).trans dropped₃
  have isChunk : old' ∈ (c₃.slabs.slabclass (c.mem.slabsClsid old')).chunks := by
    rw [total.chunks]
    exact inv.slabs.mem_chunks_of_mem_out (inv.mem_out_of_stored isStored)
  have count₃ : c₃.mem.refcount = c₁.mem.refcount := effect₃.refcount.trans unlinks.refcount
  have noRef₃ (notLive : ¬v₃.Live old') : c₃.mem.refcount old' = 0 := by
    rw [count₃]
    by_contra referred
    refine notLive ((dropped₃.live old').mpr ⟨(dropped₂.live old').mpr ⟨oldLive, ?_⟩, by simp⟩)
    simp [referred]
  rcases doItemRelease_eq inv₃ isChunk noRef₃ (fits 1) with
    ⟨c₄, v₄, released, inv₄, dropped₄, count₄, repaired₄, stored₄⟩
  have notStored₃ : old' ∉ v₃.stored := by
    rw [stored₃, stored₂]
    simp [differs.symm]
  refine ⟨c₄, v₄, _, ?_, inv₄, total.trans dropped₄, fun a => ?_, ?_, ?_, ?_⟩
  · rw [sameKey, ← hashed] at got
    refine bind_of_ok got ?_
    exact bind_of_ok (bind_of_ok (check_eq_ok notSlabbed) (bind_of_ok unlinked linked)) released
  · simp only [count₃, counted, notStored₃, oldStored, not_false_eq_true, and_true, true_and]
    generalize (c.mem.refcount old' + 1) % 2 ^ 16 = count
    by_cases first : count = 0
    · simp [first]
    · by_cases second : count - 1 = 0
      · have one : count ≤ 1 := by omega
        simp [first, second, one]
      · have more : ¬count ≤ 1 := by omega
        simp [first, second, more]
  · rw [count₄, count₃, counted, count₁, Function.update_idem]
  · rw [repaired₄, effect₃.repaired, unlinks.repaired, repaired₁]
  · rw [stored₄, stored₃, stored₂]

end LruLists

end ChaosCache
