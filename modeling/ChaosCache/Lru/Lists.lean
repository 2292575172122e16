import ChaosCache.Lru

/-!
# Linking and unlinking list nodes

`ListsInv` says that the lists of all classes are well linked and share no item.
`item_link_q` and `item_unlink_q` keep it, and none of their assertions fails.
-/

namespace ChaosCache

open Links

/-- The lists of all classes: each is linked in both directions, and its size is right
modulo the range of its counter. -/
structure ListsInv (next prev : ℕ → Option ℕ) (heads tails : ℕ → Option ℕ) (sizes : ℕ → ℕ)
    (lists : ℕ → List ℕ) : Prop where
  list : ∀ id, DList next prev (heads id) (tails id) (lists id)
  apart : ∀ id id' a, a ∈ lists id → a ∈ lists id' → id = id'
  sizes : ∀ id, sizes id = (lists id).length % 2 ^ 32

namespace ListsInv

variable {next prev heads tails : ℕ → Option ℕ} {sizes : ℕ → ℕ} {lists : ℕ → List ℕ}

theorem nodup (inv : ListsInv next prev heads tails sizes lists) (id : ℕ) : (lists id).Nodup :=
  (inv.list id).nodup

theorem congr (inv : ListsInv next prev heads tails sizes lists) {next' prev' : ℕ → Option ℕ}
    (agreeNext : ∀ id, ∀ a ∈ lists id, next' a = next a)
    (agreePrev : ∀ id, ∀ a ∈ lists id, prev' a = prev a) :
    ListsInv next' prev' heads tails sizes lists :=
  { inv with list := fun id => (inv.list id).congr (agreeNext id) (agreePrev id) }

theorem not_head (inv : ListsInv next prev heads tails sizes lists) {id a : ℕ}
    (outside : a ∉ lists id) : heads id ≠ some a := by
  rw [(inv.list id).head_eq]
  exact fun isHead => outside (List.mem_of_head? isHead)

theorem not_tail (inv : ListsInv next prev heads tails sizes lists) {id a : ℕ}
    (outside : a ∉ lists id) : tails id ≠ some a := by
  rw [(inv.list id).tail_eq]
  exact fun isTail => outside (List.mem_of_getLast? isTail)

theorem isSome_head (inv : ListsInv next prev heads tails sizes lists) (id : ℕ) :
    (heads id).isSome = (tails id).isSome := by
  rw [(inv.list id).head_eq, (inv.list id).tail_eq]
  cases lists id with
  | nil => rfl
  | cons a rest => simp

theorem update (inv : ListsInv next prev heads tails sizes lists) {next' prev' : ℕ → Option ℕ}
    {id size : ℕ} {head tail : Option ℕ} {list : List ℕ}
    (linked : DList next' prev' head tail list) (count : size = list.length % 2 ^ 32)
    (members : ∀ a ∈ list, ∀ id', a ∈ lists id' → id' = id)
    (agree : ∀ id', id' ≠ id → ∀ a ∈ lists id', next' a = next a ∧ prev' a = prev a) :
    ListsInv next' prev' (Function.update heads id head) (Function.update tails id tail)
      (Function.update sizes id size) (Function.update lists id list) where
  list id' := by
    by_cases same : id' = id
    · subst same
      simpa using linked
    · simp only [Function.update_of_ne same]
      exact (inv.list id').congr (fun a inList => (agree id' same a inList).1)
        (fun a inList => (agree id' same a inList).2)
  apart id₁ id₂ a inFirst inSecond := by
    by_cases first : id₁ = id <;> by_cases second : id₂ = id
    · rw [first, second]
    · subst first
      rw [Function.update_self] at inFirst
      rw [Function.update_of_ne second] at inSecond
      exact (members a inFirst id₂ inSecond).symm
    · subst second
      rw [Function.update_self] at inSecond
      rw [Function.update_of_ne first] at inFirst
      exact members a inSecond id₁ inFirst
    · rw [Function.update_of_ne first] at inFirst
      rw [Function.update_of_ne second] at inSecond
      exact inv.apart id₁ id₂ a inFirst inSecond
  sizes id' := by
    by_cases same : id' = id
    · subst same
      simpa using count
    · simpa only [Function.update_of_ne same] using inv.sizes id'

/-! ## Who is in the lists -/

variable {id it : ℕ}

theorem mem_erase (inv : ListsInv next prev heads tails sizes lists) (here : it ∈ lists id)
    (id' a : ℕ) :
    a ∈ Function.update lists id ((lists id).erase it) id' ↔ a ∈ lists id' ∧ a ≠ it := by
  by_cases same : id' = id
  · subst same
    rw [Function.update_self, (inv.nodup _).mem_erase_iff, and_comm]
  · rw [Function.update_of_ne same, iff_self_and]
    rintro inOther rfl
    exact same (inv.apart _ _ _ inOther here)

theorem mem_push (id' a : ℕ) : a ∈ Function.update lists id (it :: lists id) id' ↔
    a ∈ lists id' ∨ (a = it ∧ id' = id) := by
  by_cases same : id' = id
  · subst same
    simp [or_comm]
  · simp [same]

theorem mem_renew (inv : ListsInv next prev heads tails sizes lists) (here : it ∈ lists id)
    (id' a : ℕ) :
    a ∈ Function.update lists id (it :: (lists id).erase it) id' ↔ a ∈ lists id' := by
  by_cases same : id' = id
  · subst same
    rw [Function.update_self, List.mem_cons, (inv.nodup _).mem_erase_iff]
    by_cases moved : a = it
    · simp [moved, here]
    · simp [moved]
  · rw [Function.update_of_ne same]

end ListsInv

namespace LruLists

variable {c : LruLists} {lists : ℕ → List ℕ} {it : ℕ}

/-- An item in no list goes to the front of the list of its class. -/
theorem itemLinkQ_eq
    (inv : ListsInv c.mem.next c.mem.prev c.heads c.tails c.sizes lists)
    (inRange : c.mem.slabsClsid it < powerLargest) (notSlabbed : c.mem.itemSlabbed it = false)
    (fresh : ∀ id, it ∉ lists id) :
    ∃ next prev heads tails sizes,
      c.itemLinkQ it =
          .ok { c with mem := { c.mem with next, prev }, heads, tails, sizes } ∧
        ListsInv next prev heads tails sizes
          (Function.update lists (c.mem.slabsClsid it) (it :: lists (c.mem.slabsClsid it))) := by
  have outside := fresh (c.mem.slabsClsid it)
  have notHead := inv.not_head outside
  have both := inv.isSome_head (c.mem.slabsClsid it)
  refine ⟨_, _, _, _, _, by
    simp only [itemLinkQ, check_eq_ok inRange, check_eq_ok notSlabbed, check_eq_ok notHead,
      check_eq_ok both, ok_bind]
    rfl, ?_⟩
  refine inv.update ((inv.list _).push outside) ?_ ?_ ?_
  · rw [inv.sizes, List.length_cons, Nat.mod_add_mod]
  · intro a inList id inOther
    rcases List.mem_cons.mp inList with rfl | inList
    · exact absurd inOther (fresh id)
    · exact inv.apart _ _ a inOther inList
  · intro id other a inOther
    have differs : a ≠ it := ne_of_mem_of_not_mem inOther (fresh id)
    have notFirst : c.heads (c.mem.slabsClsid it) ≠ some a :=
      inv.not_head fun inList => other (inv.apart _ _ a inOther inList)
    rw [assign_of_ne notFirst]
    exact ⟨Function.update_of_ne differs _ _, Function.update_of_ne differs _ _⟩

/-- An item is taken out of its list. -/
theorem itemUnlinkQ_eq
    (inv : ListsInv c.mem.next c.mem.prev c.heads c.tails c.sizes lists)
    (inRange : c.mem.slabsClsid it < powerLargest) (here : it ∈ lists (c.mem.slabsClsid it)) :
    ∃ next prev heads tails sizes,
      c.itemUnlinkQ it =
          .ok { c with mem := { c.mem with next, prev }, heads, tails, sizes } ∧
        ListsInv next prev heads tails sizes
          (Function.update lists (c.mem.slabsClsid it)
            ((lists (c.mem.slabsClsid it)).erase it)) := by
  rcases List.append_of_mem here with ⟨front, back, nodes⟩
  have list := inv.list (c.mem.slabsClsid it)
  have distinct := inv.nodup (c.mem.slabsClsid it)
  rw [nodes] at list distinct
  have outside : it ∉ front ++ back := (List.nodup_middle.mp distinct).notMem
  have next_eq := list.next_eq
  have prev_eq := list.prev_eq
  have notNext : c.mem.next it ≠ some it := by
    rw [next_eq]
    exact fun isNext => outside (List.mem_append_right _ (List.mem_of_head? isNext))
  have notPrev : c.mem.prev it ≠ some it := by
    rw [prev_eq]
    exact fun isPrev => outside (List.mem_append_left _ (List.mem_of_getLast? isPrev))
  have firstHasNoPrev : c.heads (c.mem.slabsClsid it) = some it → c.mem.prev it = none := by
    intro isHead
    rw [list.head_eq] at isHead
    cases front with
    | nil => exact prev_eq
    | cons a front => simp_all
  have lastHasNoNext : c.tails (c.mem.slabsClsid it) = some it → c.mem.next it = none := by
    intro isTail
    rw [list.tail_eq] at isTail
    rcases List.eq_nil_or_concat back with rfl | ⟨back, a, rfl⟩
    · exact next_eq
    · rw [List.concat_eq_append, ← List.cons_append, ← List.append_assoc,
        List.getLast?_concat] at isTail
      rcases Option.some.inj isTail with rfl
      simp at outside
  have erased : (lists (c.mem.slabsClsid it)).erase it = front ++ back := by
    rw [nodes, List.erase_append_right _ fun inFront => outside (List.mem_append_left _ inFront),
      List.erase_cons_head]
  refine ⟨_, _, _, _, _, by
    simp only [itemUnlinkQ, check_eq_ok inRange, check_eq_ok firstHasNoPrev,
      check_eq_ok lastHasNoNext, check_eq_ok notNext, check_eq_ok notPrev, ok_bind]
    rfl, ?_⟩
  refine inv.update ?_ ?_ ?_ ?_
  · rw [erased]
    exact list.unlink
  · rw [erased, inv.sizes, nodes]
    simp only [List.length_append, List.length_cons]
    omega
  · intro a inList id inOther
    exact inv.apart _ _ a inOther (List.mem_of_mem_erase inList)
  · intro id other a inOther
    have elsewhere : a ∉ lists (c.mem.slabsClsid it) := fun inList =>
      other (inv.apart _ _ a inOther inList)
    rw [nodes] at elsewhere
    have notNeighbour : c.mem.next it ≠ some a ∧ c.mem.prev it ≠ some a := by
      rw [next_eq, prev_eq]
      constructor
      · intro isNext
        exact elsewhere (by simp [List.mem_of_head? isNext])
      · intro isPrev
        exact elsewhere (by simp [List.mem_of_getLast? isPrev])
    exact ⟨assign_of_ne notNeighbour.2, assign_of_ne notNeighbour.1⟩

/-- An item is taken out of its list and put in front of it, with another time. -/
theorem itemUnlinkQ_itemLinkQ_eq
    (inv : ListsInv c.mem.next c.mem.prev c.heads c.tails c.sizes lists)
    (inRange : c.mem.slabsClsid it < powerLargest) (notSlabbed : c.mem.itemSlabbed it = false)
    (here : it ∈ lists (c.mem.slabsClsid it)) (time : ℕ) :
    ∃ next prev heads tails sizes,
      (do
        let c ← c.itemUnlinkQ it
        { c with mem := { c.mem with time := Function.update c.mem.time it time } }.itemLinkQ it) =
          .ok { c with
            mem := { c.mem with next, prev, time := Function.update c.mem.time it time }
            heads
            tails
            sizes } ∧
        ListsInv next prev heads tails sizes
          (Function.update lists (c.mem.slabsClsid it)
            (it :: (lists (c.mem.slabsClsid it)).erase it)) := by
  rcases itemUnlinkQ_eq inv inRange here with ⟨next, prev, heads, tails, sizes, unlinked, without⟩
  have fresh (id : ℕ) : it ∉ Function.update lists (c.mem.slabsClsid it)
      ((lists (c.mem.slabsClsid it)).erase it) id := by
    rw [inv.mem_erase here]
    exact fun still => still.2 rfl
  rcases itemLinkQ_eq
    (c := { c with
      mem := { c.mem with next, prev, time := Function.update c.mem.time it time }
      heads
      tails
      sizes }) without inRange notSlabbed fresh with
    ⟨next', prev', heads', tails', sizes', relinked, front⟩
  rw [Function.update_self, Function.update_idem] at front
  exact ⟨next', prev', heads', tails', sizes', bind_of_ok unlinked relinked, front⟩

end LruLists

end ChaosCache
