import ChaosCache.Library.LazyLru
import ChaosCache.Lru.Clients
import ChaosCache.Lru.Skeleton

/-!
# The order of the lists

`do_item_link` puts an item in front, and `do_item_update` moves one there whose time is older than
`ITEM_UPDATE_INTERVAL`. So each list is in the order of the times of its items, and these lag behind
the last accesses by that interval at most.
-/

namespace ChaosCache

open LazyLru Links

variable {c c' : LruLists} {lists lists' out out' : ℕ → List ℕ} {it id now clock : ℕ} {os : Os}
  {last : ℕ → ℕ}

/-- Every list is in the order of its times, which lag behind the last accesses by the interval of
updates at most. -/
def Recent (c : LruLists) (lists : ℕ → List ℕ) (last : ℕ → ℕ) (clock : ℕ) : Prop :=
  ∀ id, Ordered itemUpdateInterval c.mem.time last clock (lists id)

/-- If the lists were in order, they are so after an access to an item. -/
def Accesses (c c' : LruLists) (lists lists' : ℕ → List ℕ) (it now : ℕ) : Prop :=
  ∀ last clock, Recent c lists last clock → clock ≤ now →
    Recent c' lists' (Function.update last it now) now

theorem Trims.recent {reset : List ℕ} (trims : Trims c c' lists lists' out out' reset)
    (recent : Recent c lists last clock) : Recent c' lists' last clock := by
  intro id
  rw [trims.time]
  exact (recent id).sublist (trims.sublist id)

namespace Recent

theorem later (recent : Recent c lists last clock) (passed : clock ≤ now) :
    Recent c lists last now := fun id => (recent id).later passed

theorem congr (recent : Recent c lists last clock)
    (times : ∀ id, ∀ a ∈ lists id, c'.mem.time a = c.mem.time a) : Recent c' lists last clock :=
  fun id => (recent id).congr (times id) fun _ _ => rfl

end Recent

namespace Skeleton

/-- `do_item_update` leaves an item with a recent time where it is, and moves any other to the front
of its list. -/
theorem of_doItemUpdate (inv : Skeleton c lists out) (inList : it ∈ lists id)
    (bound : now < 2 ^ 32) (run : c.doItemUpdate it now = .ok c') :
    ∃ lists', Skeleton c' lists' out ∧ Effect c c' ∧ c'.mem.itemLinked = c.mem.itemLinked ∧
      (∀ i a, a ∈ lists' i ↔ a ∈ lists i) ∧ Accesses c c' lists lists' it now := by
  have handedOut := inv.mem_out_of_mem_list inList
  have linked := (inv.linked_iff handedOut).mpr inList
  have sameNow : now % 2 ^ 32 = now := Nat.mod_eq_of_lt bound
  simp only [LruLists.doItemUpdate, sameNow, linked, if_true] at run
  split at run
  case isTrue old =>
    have cls := inv.clsid id it handedOut
    subst cls
    rcases bind_eq_ok.mp run with ⟨_, unslabbed, rest⟩
    rcases LruLists.itemUnlinkQ_itemLinkQ_eq inv.order (inv.inRange handedOut) (of_check unslabbed)
      inList now with ⟨next, prev, heads, tails, sizes, renewed, order⟩
    cases renewed.symm.trans rest
    have members := inv.order.mem_renew inList
    refine ⟨_, { inv with order := order, mem_list := ?_ },
      { Frame.refl c with refcount := rfl, freed := rfl, repaired := rfl }, rfl, members, ?_⟩
    · intro i a
      rw [members]
      exact inv.mem_list i a
    · intro last clock recent passed
      apply Ordered.renew_update recent (inv.order.nodup _) _ passed
      intro j other inOther
      exact other (inv.order.apart _ _ _ inOther inList)
  case isFalse young =>
    cases run
    refine ⟨lists, inv, { Frame.refl c with refcount := rfl, freed := rfl, repaired := rfl }, rfl,
      fun _ _ => Iff.rfl, ?_⟩
    intro last clock recent passed i
    have before := ((recent id).stamp_le_clock inList).trans passed
    have lag : now ≤ c.mem.time it + itemUpdateInterval := by
      -- before the first interval is over the test wraps, and no time is that late
      simp only [itemUpdateInterval] at young ⊢
      omega
    exact (recent i).use lag passed

/-- `do_item_get` counts a reference to what it finds, and accesses it. -/
theorem of_doItemGet (inv : Skeleton c lists out) {key : List UInt8} {hv : UInt32}
    {found : Option ℕ} (bound : now < 2 ^ 32)
    (matching : ∀ a, c.lookup key hv = some a → ∃ id, c.Listed id a)
    (run : c.doItemGet key hv now = .ok (c', found)) :
    found = c.lookup key hv ∧
      ((found = none ∧ c' = c) ∨
        ∃ a id lists', found = some a ∧ a ∈ lists id ∧ Skeleton c' lists' out ∧ Frame c c' ∧
          c'.mem.refcount = Function.update c.mem.refcount a ((c.mem.refcount a + 1) % 2 ^ 16) ∧
          c'.mem.itemLinked = c.mem.itemLinked ∧ (∀ i b, b ∈ lists' i ↔ b ∈ lists i) ∧
          c'.repaired = c.repaired ∧ Accesses c c' lists lists' a now) := by
  rcases bind_eq_ok.mp run with ⟨found', walked, rest⟩
  have looked : c.lookup key hv = found' := by
    simp only [LruLists.lookup, walked]
  rw [looked] at matching ⊢
  cases found' with
  | none =>
      cases rest
      exact ⟨rfl, Or.inl ⟨rfl, rfl⟩⟩
  | some a =>
      rcases bind_eq_ok.mp rest with ⟨c₁, updated, done⟩
      cases done
      rcases matching a rfl with ⟨id, nodes, chain, inChain⟩
      have inList : a ∈ lists id := by
        rwa [chain.unique (inv.order.list id).forward] at inChain
      have counted := inv.setMem { c.mem with
        refcount := Function.update c.mem.refcount a ((c.mem.refcount a + 1) % 2 ^ 16) }
        rfl rfl rfl rfl
      rcases counted.of_doItemUpdate inList bound updated with
        ⟨lists', inv', effect, linked, members, accesses⟩
      exact ⟨rfl, Or.inr ⟨a, id, lists', rfl, inList, inv', { effect.toFrame with },
        effect.refcount, linked, members, effect.repaired, accesses⟩⟩

theorem of_doItemLink (inv : Skeleton c lists out) (handedOut : it ∈ out id)
    (bound : now < 2 ^ 32) {expansion : Expansion} (run : c.doItemLink it now expansion = .ok c') :
    ∃ lists', Skeleton c' lists' out ∧ Effect c c' ∧
      c'.mem.itemLinked = Function.update c.mem.itemLinked it true ∧
      Accesses c c' lists lists' it now := by
  have cls := inv.clsid id it handedOut
  have sameNow : now % 2 ^ 32 = now := Nat.mod_eq_of_lt bound
  subst cls
  rcases bind_eq_ok.mp run with ⟨_, unlinked, rest⟩
  rcases bind_eq_ok.mp rest with ⟨_, -, rest⟩
  rcases bind_eq_ok.mp rest with ⟨⟨assoc, mem⟩, inserted, linked⟩
  rcases AssociativeArray.mem_of_assocInsert inserted with ⟨hNext, rfl⟩
  rcases of_check unlinked with ⟨notLinked, notSlabbed⟩
  have fresh := inv.notMem_list notLinked
  rcases LruLists.itemLinkQ_eq (c := { c with
      assoc
      mem := { c.mem with
        itemLinked := Function.update c.mem.itemLinked it true
        time := Function.update c.mem.time it (now % 2 ^ 32)
        hNext } }) inv.order (inv.inRange handedOut) notSlabbed fresh with
    ⟨next, prev, heads, tails, sizes, linked', order⟩
  cases linked'.symm.trans linked
  refine ⟨_, { inv with order := order, mem_list := ?_, unused := ?_ },
    { Frame.refl c with refcount := rfl, freed := rfl, repaired := rfl }, rfl, ?_⟩
  · intro i a
    change _ ↔ a ∈ out i ∧ Function.update c.mem.itemLinked it true a = true
    rw [ListsInv.mem_push, inv.mem_list]
    by_cases same : a = it
    · subst same
      rw [Function.update_self]
      constructor
      · rintro (⟨handedOut', -⟩ | ⟨-, rfl⟩)
        · exact ⟨handedOut', rfl⟩
        · exact ⟨handedOut, rfl⟩
      · rintro ⟨handedOut', -⟩
        exact Or.inr ⟨rfl, inv.class_of_mem_out handedOut' handedOut⟩
    · simp [same]
  · intro i a isChunk notOut
    rcases inv.unused i a isChunk notOut with ⟨noClass, notLinked'⟩
    have differs : a ≠ it := by
      rintro rfl
      exact notOut (inv.class_unique isChunk (inv.isChunk handedOut) ▸ handedOut)
    exact ⟨noClass, (Function.update_of_ne differs _ _).trans notLinked'⟩
  · intro last clock recent passed i
    change Ordered _ (Function.update c.mem.time it (now % 2 ^ 32)) _ _ _
    rw [sameNow]
    exact Ordered.push_update recent fresh passed (c.mem.slabsClsid it) i

/-- `store_item` accesses the item that it finds, which it unlinks, and then the one that it links.
It leaves all counters as they were. -/
theorem of_storeItem (inv : Skeleton c lists out) {sys : System} (handedOut : it ∈ out id)
    (referred : c.mem.refcount it ≠ 0)
    (fits : ∀ i n, (sys.os i).realloc n = true → n ≤ userSpace) (first : sys.now 0 < 2 ^ 32)
    (second : sys.now 1 < 2 ^ 32) (matching : ∀ a, c.stored it = some a → ∃ id, c.Listed id a)
    (noWrap : ∀ a, c.stored it = some a → c.mem.refcount a + 1 < 2 ^ 16)
    (run : c.storeItem it sys = .ok c') :
    ∃ lists' out', Skeleton c' lists' out' ∧
      (∀ i a, a ∈ out i → c.mem.refcount a ≠ 0 → a ∈ out' i) ∧
      c'.mem.refcount = c.mem.refcount ∧ c'.repaired = c.repaired ∧
      SlabAllocator.SameTable c.slabs c'.slabs ∧
      ∀ last clock, Recent c lists last clock → clock ≤ sys.now 0 → sys.now 0 ≤ sys.now 1 →
        Recent c' lists'
          (Function.update (Clients.setAt last (c.stored it) (sys.now 0)) it (sys.now 1))
          (sys.now 1) := by
  have inv₀ : Skeleton (c.hashed it) lists out := inv.setMem _ rfl rfl rfl rfl
  rcases bind_eq_ok.mp run with ⟨⟨c₁, oldIt⟩, got, rest⟩
  rcases inv₀.of_doItemGet first matching got with ⟨isHit, found⟩
  change oldIt = c.stored it at isHit
  rw [← isHit] at noWrap ⊢
  rcases found with ⟨rfl, rfl⟩ |
    ⟨old, oldId, lists₁, rfl, inList, inv₁, frame₁, counted, -, members, repaired₁, accesses₁⟩
  case inl =>
    rcases inv₀.of_doItemLink handedOut second rest with ⟨lists', inv', effect, -, accesses⟩
    refine ⟨lists', out, inv', fun _ _ isOut _ => isOut, effect.refcount, effect.repaired,
      effect.table, ?_⟩
    intro last clock recent passed passed'
    exact accesses last clock recent (passed.trans passed')
  rcases bind_eq_ok.mp rest with ⟨c₃, replaced, released⟩
  rcases bind_eq_ok.mp replaced with ⟨_, -, replaced⟩
  rcases bind_eq_ok.mp replaced with ⟨c₂, unlinked, linked⟩
  have count : (c.mem.refcount old + 1) % 2 ^ 16 = c.mem.refcount old + 1 :=
    Nat.mod_eq_of_lt (noWrap old rfl)
  change c₁.mem.refcount = Function.update c.mem.refcount old ((c.mem.refcount old + 1) % 2 ^ 16)
    at counted
  rw [count] at counted
  have oldOut : old ∈ out oldId :=
    inv₁.mem_out_of_mem_list ((members oldId old).mpr inList)
  rcases inv₁.of_doItemUnlink oldOut (fits 0) unlinked with ⟨lists₂, out₂, inv₂, trims, -⟩
  have kept {i a : ℕ} (isOut : a ∈ out i) (isReferred : c.mem.refcount a ≠ 0 ∨ a = old) :
      a ∈ out₂ i := by
    apply trims.out_kept i a isOut _ List.not_mem_nil
    rw [counted]
    by_cases same : a = old
    · simp [same]
    · simpa [same] using isReferred
  have oldOut₂ : old ∈ out₂ oldId := kept oldOut (Or.inr rfl)
  rcases inv₂.of_doItemLink (kept handedOut (Or.inl referred)) second linked with
    ⟨lists₃, inv₃, effect, -, accesses₂⟩
  rcases inv₃.of_doItemRelease oldOut₂ (fits 1) released with
    ⟨out', inv', frame', -, kept', counted', time', -, repaired'⟩
  have count₃ : c₃.mem.refcount = Function.update c.mem.refcount old (c.mem.refcount old + 1) := by
    rw [effect.refcount, ← counted]
    funext a
    exact trims.refcount a List.not_mem_nil
  refine ⟨lists₃, out', inv', ?_, ?_, ?_, ?_, ?_⟩
  · intro i a isOut isReferred
    apply kept' i a (kept isOut (Or.inl isReferred))
    by_cases same : a = old
    · subst same
      rw [count₃, Function.update_self]
      omega
    · exact Or.inl same
  · rw [counted', count₃, Function.update_self, Function.update_idem, Nat.add_sub_cancel,
      Function.update_eq_self]
  · rw [repaired', effect.repaired, trims.repaired, repaired₁]
    rfl
  · exact ((frame₁.table.trans trims.table).trans effect.table).trans frame'.table
  · intro last clock recent passed passed'
    have found := accesses₁ last clock recent passed
    apply (accesses₂ _ _ (trims.recent found) passed').congr
    intro i a _
    rw [time']

end Skeleton

end ChaosCache
