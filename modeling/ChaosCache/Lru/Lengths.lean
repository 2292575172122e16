import Mathlib.Data.Set.Insert
import ChaosCache.Lru

/-!
# How long stored values are

The size of an item is written when it is allocated, and an item gets into the table only when it
is linked. So the table never leads to a value that is longer than all that were allocated. This
holds of every run, also where counters wrap or chunks are freed that are in use.
-/

namespace ChaosCache

variable {known : Set ℕ} {bound : ℕ} {mem mem' : Mem} {it : ℕ} {next : Option ℕ}

namespace AssociativeArray

variable {t t' : AssociativeArray} {hash : UInt32} {key : List UInt8}

/-- The table leads to items of a set only, and their values have at most `bound` bytes. -/
structure LeadsTo (t : AssociativeArray) (mem : Mem) (known : Set ℕ) (bound : ℕ) : Prop where
  primary : ∀ bucket, ∀ it ∈ t.primaryHashtable bucket, it ∈ known
  old : ∀ buckets ∈ t.oldHashtable, ∀ bucket, ∀ it ∈ buckets bucket, it ∈ known
  hNext : ∀ a ∈ known, ∀ it ∈ mem.hNext a, it ∈ known
  nbytes : ∀ a ∈ known, mem.nbytes a ≤ bound

namespace LeadsTo

theorem congr (leads : t.LeadsTo mem known bound) (hNext : mem'.hNext = mem.hNext)
    (nbytes : mem'.nbytes = mem.nbytes) : t.LeadsTo mem' known bound :=
  ⟨leads.primary, leads.old, hNext ▸ leads.hNext, nbytes ▸ leads.nbytes⟩

/-- A table without items leads nowhere. -/
theorem of_empty (primary : t.primaryHashtable = fun _ => none) (old : t.oldHashtable = none) :
    t.LeadsTo mem ∅ bound where
  primary := by simp [primary]
  old := by simp [old]
  hNext := by simp
  nbytes := by simp

/-- The number of items and the cursors have no part in it. -/
theorem of_buckets (leads : t.LeadsTo mem known bound)
    (primary : t'.primaryHashtable = t.primaryHashtable) (old : t'.oldHashtable = t.oldHashtable) :
    t'.LeadsTo mem known bound :=
  ⟨primary ▸ leads.primary, old ▸ leads.old, leads.hNext, leads.nbytes⟩

theorem load (leads : t.LeadsTo mem known bound) {slot : Slot} {head : Option ℕ}
    (loaded : t.load slot = .ok head) : ∀ it ∈ head, it ∈ known := by
  cases slot with
  | primary bucket =>
      cases loaded
      exact leads.primary bucket
  | old bucket =>
      simp only [AssociativeArray.load] at loaded
      split at loaded
      case h_1 buckets isOld =>
        cases loaded
        exact leads.old buckets isOld bucket
      case h_2 => cases loaded

theorem store (leads : t.LeadsTo mem known bound) (slot : Slot) {head : Option ℕ}
    (inKnown : ∀ it ∈ head, it ∈ known) : (t.store slot head).LeadsTo mem known bound := by
  have updated : ∀ buckets : ℕ → Option ℕ, (∀ bucket, ∀ it ∈ buckets bucket, it ∈ known) →
      ∀ b bucket, ∀ it ∈ Function.update buckets b head bucket, it ∈ known := by
    intro buckets inBuckets b bucket
    by_cases same : bucket = b
    · subst same
      simpa using inKnown
    · simpa [same] using inBuckets bucket
  cases slot with
  | primary bucket => exact { leads with primary := updated _ leads.primary bucket }
  | old bucket =>
      refine { leads with old := ?_ }
      intro buckets isOld
      rcases Option.map_eq_some_iff.mp isOld with ⟨buckets', isOld', rfl⟩
      exact updated _ (leads.old buckets' isOld') bucket

theorem setNext (leads : t.LeadsTo mem known bound) (a : ℕ) (inKnown : ∀ it ∈ next, it ∈ known) :
    t.LeadsTo { mem with hNext := Function.update mem.hNext a next } known bound := by
  refine { leads with hNext := ?_ }
  intro b isKnown
  by_cases same : b = a
  · subst same
    simpa using inKnown
  · simpa [same] using leads.hNext b isKnown

theorem findFrom (leads : t.LeadsTo mem known bound) {fuel : ℕ} {start found : Option ℕ}
    (inKnown : ∀ it ∈ start, it ∈ known)
    (run : AssociativeArray.findFrom mem hash key fuel start = .ok found) :
    ∀ it ∈ found, it ∈ known := by
  induction fuel generalizing start with
  | zero => cases run
  | succ fuel ih =>
      cases start with
      | none =>
          cases run
          simp
      | some it =>
          have isKnown := inKnown it rfl
          simp only [AssociativeArray.findFrom] at run
          split at run
          case isTrue =>
            cases run
            simpa using isKnown
          case isFalse => exact ih (leads.hNext it isKnown) run

theorem assocFind (leads : t.LeadsTo mem known bound) {found : Option ℕ}
    (run : t.assocFind mem hash key = .ok found) : ∀ it ∈ found, it ∈ known := by
  rcases bind_eq_ok.mp run with ⟨head, loaded, walked⟩
  exact leads.findFrom (leads.load loaded) walked

theorem assocExpand (leads : t.LeadsTo mem known bound) (expansion : Expansion) :
    (t.assocExpand expansion).LeadsTo mem known bound := by
  have old : ∀ buckets ∈ some t.primaryHashtable, ∀ bucket, ∀ it ∈ buckets bucket,
      it ∈ known := by
    intro buckets isOld
    cases isOld
    exact leads.primary
  cases expansion with
  | succeeds => exact ⟨by simp [AssociativeArray.assocExpand], old, leads.hNext, leads.nbytes⟩
  | callocFails => exact ⟨leads.primary, old, leads.hNext, leads.nbytes⟩
  | threadFails => exact ⟨leads.primary, old, leads.hNext, leads.nbytes⟩

theorem assocInsert (leads : t.LeadsTo mem known bound) (isKnown : it ∈ known)
    {expansion : Expansion} (run : t.assocInsert mem it expansion = .ok (t', mem')) :
    t'.LeadsTo mem' known bound := by
  rcases bind_eq_ok.mp run with ⟨found, -, rest⟩
  rcases bind_eq_ok.mp rest with ⟨-, -, rest⟩
  rcases bind_eq_ok.mp rest with ⟨head, loaded, rest⟩
  have linked := leads.setNext it (leads.load loaded)
  have isHead : ∀ a ∈ some it, a ∈ known := by simpa using isKnown
  have stored := linked.store (t.slot (mem.hv it)) isHead
  have counted : LeadsTo { t.store (t.slot (mem.hv it)) (some it) with
      hashItems := ((t.store (t.slot (mem.hv it)) (some it)).hashItems + 1) % 2 ^ 32 }
        { mem with hNext := Function.update mem.hNext it head } known bound :=
    stored.of_buckets rfl rfl
  simp only at rest
  split at rest
  · cases rest
    exact counted.assocExpand expansion
  · cases rest
    exact counted

theorem beforeFrom (leads : t.LeadsTo mem known bound) {fuel : ℕ} {pos before : Position}
    {start found : Option ℕ} (inKnown : ∀ it ∈ start, it ∈ known)
    (run : AssociativeArray.beforeFrom mem hash key fuel pos start = .ok (before, found)) :
    ∀ it ∈ found, it ∈ known := by
  induction fuel generalizing pos start with
  | zero => cases run
  | succ fuel ih =>
      cases start with
      | none =>
          cases run
          simp
      | some it =>
          have isKnown := inKnown it rfl
          simp only [AssociativeArray.beforeFrom] at run
          split at run
          case isTrue =>
            cases run
            simpa using isKnown
          case isFalse => exact ih (leads.hNext it isKnown) run

theorem assocDelete (leads : t.LeadsTo mem known bound)
    (run : t.assocDelete mem hash key = .ok (t', mem')) : t'.LeadsTo mem' known bound := by
  rcases bind_eq_ok.mp run with ⟨⟨before, found⟩, walked, rest⟩
  rcases bind_eq_ok.mp walked with ⟨head, loaded, walked⟩
  have inKnown := leads.beforeFrom (leads.load loaded) walked
  cases found with
  | none => cases rest
  | some it =>
      have isKnown := inKnown it rfl
      have after := leads.hNext it isKnown
      have nowhere : ∀ a ∈ (none : Option ℕ), a ∈ known := by simp
      have cleared : LeadsTo { t with hashItems := (t.hashItems + (2 ^ 32 - 1)) % 2 ^ 32 }
          { mem with hNext := Function.update mem.hNext it none } known bound :=
        (leads.setNext it nowhere).of_buckets rfl rfl
      cases before with
      | slot slot =>
          cases rest
          exact cleared.store slot after
      | hNext item =>
          cases rest
          exact cleared.setNext item after

theorem migrateFrom (leads : t.LeadsTo mem known bound) {fuel : ℕ} {start : Option ℕ}
    (inKnown : ∀ it ∈ start, it ∈ known)
    (run : AssociativeArray.migrateFrom fuel start t mem = .ok (t', mem')) :
    t'.LeadsTo mem' known bound := by
  induction fuel generalizing start t mem with
  | zero => cases run
  | succ fuel ih =>
      cases start with
      | none =>
          cases run
          exact leads
      | some it =>
          have isKnown := inKnown it rfl
          apply ih _ (leads.hNext it isKnown) run
          apply (leads.setNext it (leads.primary _)).store
          simpa using isKnown

theorem maintenancePass (leads : t.LeadsTo mem known bound)
    (run : t.maintenancePass mem = .ok (t', mem')) : t'.LeadsTo mem' known bound := by
  simp only [AssociativeArray.maintenancePass] at run
  split at run
  · rcases bind_eq_ok.mp run with ⟨first, loaded, rest⟩
    rcases bind_eq_ok.mp rest with ⟨⟨t₁, mem₁⟩, migrated, done⟩
    cases done
    have nowhere : ∀ a ∈ (none : Option ℕ), a ∈ known := by simp
    have moved := (leads.migrateFrom (leads.load loaded) migrated).store
      (.old t₁.expandBucket) nowhere
    simp only [advance]
    split
    · exact ⟨moved.primary, by simp, moved.hNext, moved.nbytes⟩
    · exact moved.of_buckets rfl rfl
  · cases run
    exact leads

/-- A page that is cleared holds empty values, and no links. -/
theorem clear (leads : t.LeadsTo mem known bound) (start length : ℕ) :
    t.LeadsTo (mem.clear start length) known bound := by
  refine { leads with hNext := ?_, nbytes := ?_ }
  · intro a isKnown
    simp only [Mem.clear, clearRange]
    split
    · simp
    · exact leads.hNext a isKnown
  · intro a isKnown
    simp only [Mem.clear, clearRange]
    split
    · exact Nat.zero_le _
    · exact leads.nbytes a isKnown

end LeadsTo

end AssociativeArray

/-! ## The sections of the cache -/

namespace SlabAllocator

variable {s s' : SlabAllocator} {id : ℕ} {os : Os}

theorem mem_of_doSlabsNewslab {available : Bool}
    (run : s.doSlabsNewslab mem id os = .ok (s', mem', available)) :
    mem' = mem ∨ ∃ start length, mem' = mem.clear start length := by
  simp only [doSlabsNewslab] at run
  split at run
  · cases run
    exact Or.inl rfl
  · split at run
    · cases run
      exact Or.inl rfl
    · split at run
      · cases run
        exact Or.inl rfl
      · split at run
        · cases run
        · cases run
          exact Or.inr ⟨_, _, rfl⟩

/-- A new page is the only thing that the slab allocator writes to the memory of the items. -/
theorem mem_of_doSlabsAlloc {size : ℕ} {chunk : Option ℕ}
    (run : s.doSlabsAlloc mem size id os = .ok (s', mem', chunk)) :
    mem' = mem ∨ ∃ start length, mem' = mem.clear start length := by
  have taken : ∀ (s₁ : SlabAllocator) (mem₁ : Mem) (available : Bool),
      (if available = true then do
        let took ← s₁.takeChunk size id
        pure (took.1, mem₁, took.2)
      else pure (s₁, mem₁, none)) = Except.ok (s', mem', chunk) → mem' = mem₁ := by
    intro s₁ mem₁ available took
    split at took
    · rcases bind_eq_ok.mp took with ⟨took, -, done⟩
      cases done
      rfl
    · cases took
      rfl
  simp only [doSlabsAlloc] at run
  split at run
  · cases run
    exact Or.inl rfl
  · split at run
    · rcases bind_eq_ok.mp run with ⟨⟨s₁, mem₁, available⟩, paged, rest⟩
      rw [taken s₁ mem₁ available rest]
      exact mem_of_doSlabsNewslab paged
    · exact Or.inl (taken s mem true run)

end SlabAllocator

namespace LruLists

open AssociativeArray

variable {c c' : LruLists} {os : Os} {sys : System} {now : ℕ} {key : List UInt8}

/-- The table of the cache leads to known items only, and their values are short. -/
def Knows (c : LruLists) (known : Set ℕ) (bound : ℕ) : Prop := c.assoc.LeadsTo c.mem known bound

namespace Knows

theorem congr (knows : c.Knows known bound) (assoc : c'.assoc = c.assoc)
    (hNext : c'.mem.hNext = c.mem.hNext) (nbytes : c'.mem.nbytes = c.mem.nbytes) :
    c'.Knows known bound := by
  unfold Knows
  rw [assoc]
  exact LeadsTo.congr knows hNext nbytes

theorem itemLinkQ (knows : c.Knows known bound) (run : c.itemLinkQ it = .ok c') :
    c'.Knows known bound := by
  rcases bind_eq_ok.mp run with ⟨-, -, rest⟩
  rcases bind_eq_ok.mp rest with ⟨-, -, rest⟩
  rcases bind_eq_ok.mp rest with ⟨-, -, rest⟩
  rcases bind_eq_ok.mp rest with ⟨-, -, done⟩
  cases done
  exact knows.congr rfl rfl rfl

theorem itemUnlinkQ (knows : c.Knows known bound) (run : c.itemUnlinkQ it = .ok c') :
    c'.Knows known bound := by
  rcases bind_eq_ok.mp run with ⟨-, -, rest⟩
  rcases bind_eq_ok.mp rest with ⟨-, -, rest⟩
  rcases bind_eq_ok.mp rest with ⟨-, -, rest⟩
  rcases bind_eq_ok.mp rest with ⟨-, -, rest⟩
  rcases bind_eq_ok.mp rest with ⟨-, -, done⟩
  cases done
  exact knows.congr rfl rfl rfl

theorem itemFree (knows : c.Knows known bound) (run : c.itemFree it os = .ok c') :
    c'.Knows known bound := by
  rcases bind_eq_ok.mp run with ⟨head, -, rest⟩
  rcases bind_eq_ok.mp rest with ⟨tail, -, rest⟩
  rcases bind_eq_ok.mp rest with ⟨-, -, rest⟩
  rcases bind_eq_ok.mp rest with ⟨-, -, rest⟩
  rcases bind_eq_ok.mp rest with ⟨-, -, rest⟩
  rcases bind_eq_ok.mp rest with ⟨-, -, rest⟩
  rcases bind_eq_ok.mp rest with ⟨slabs, -, done⟩
  cases done
  exact knows.congr rfl rfl rfl

theorem detach (knows : c.Knows known bound) (run : c.detach it = .ok c') :
    c'.Knows known bound := by
  rcases bind_eq_ok.mp run with ⟨⟨assoc, mem⟩, deleted, unlinked⟩
  have unmarked : c.assoc.LeadsTo
      { c.mem with itemLinked := Function.update c.mem.itemLinked it false } known bound :=
    LeadsTo.congr knows rfl rfl
  have without : ({ c with assoc, mem } : LruLists).Knows known bound :=
    unmarked.assocDelete deleted
  exact without.itemUnlinkQ unlinked

theorem doItemUnlink (knows : c.Knows known bound) (run : c.doItemUnlink it os = .ok c') :
    c'.Knows known bound := by
  simp only [LruLists.doItemUnlink] at run
  split at run
  · rcases bind_eq_ok.mp run with ⟨c₁, detached, rest⟩
    have without := knows.detach detached
    split at rest
    · exact without.itemFree rest
    · cases rest
      exact without
  · cases run
    exact knows

theorem doItemLink (knows : c.Knows known bound) (isKnown : it ∈ known) {expansion : Expansion}
    (run : c.doItemLink it now expansion = .ok c') : c'.Knows known bound := by
  rcases bind_eq_ok.mp run with ⟨-, -, rest⟩
  rcases bind_eq_ok.mp rest with ⟨-, -, rest⟩
  rcases bind_eq_ok.mp rest with ⟨⟨assoc, mem⟩, inserted, linked⟩
  have marked : c.assoc.LeadsTo
      { c.mem with
        itemLinked := Function.update c.mem.itemLinked it true
        time := Function.update c.mem.time it (now % 2 ^ 32) } known bound :=
    LeadsTo.congr knows rfl rfl
  have withItem : ({ c with assoc, mem } : LruLists).Knows known bound :=
    marked.assocInsert isKnown inserted
  exact withItem.itemLinkQ linked

theorem doItemRelease (knows : c.Knows known bound) (run : c.doItemRelease it os = .ok c') :
    c'.Knows known bound := by
  have released : ({ c with
      mem := { c.mem with
        refcount := Function.update c.mem.refcount it (c.mem.refcount it - 1) } } :
          LruLists).Knows known bound := knows.congr rfl rfl rfl
  simp only [LruLists.doItemRelease] at run
  split at run
  · exact released.itemFree run
  · cases run
    exact released

theorem doItemUpdate (knows : c.Knows known bound) (run : c.doItemUpdate it now = .ok c') :
    c'.Knows known bound := by
  simp only [LruLists.doItemUpdate] at run
  split at run
  · rcases bind_eq_ok.mp run with ⟨-, -, rest⟩
    split at rest
    · rcases bind_eq_ok.mp rest with ⟨c₁, unlinked, linked⟩
      have without := knows.itemUnlinkQ unlinked
      have touched : ({ c₁ with
          mem := { c₁.mem with time := Function.update c₁.mem.time it (now % 2 ^ 32) } } :
            LruLists).Knows known bound := without.congr rfl rfl rfl
      exact touched.itemLinkQ linked
    · cases rest
      exact knows
  · cases run
    exact knows

theorem doItemGet (knows : c.Knows known bound) {hv : UInt32} {found : Option ℕ}
    (run : c.doItemGet key hv now = .ok (c', found)) :
    c'.Knows known bound ∧ ∀ it ∈ found, it ∈ known := by
  rcases bind_eq_ok.mp run with ⟨found', walked, rest⟩
  have inKnown := LeadsTo.assocFind knows walked
  cases found' with
  | none =>
      cases rest
      exact ⟨knows, by simp⟩
  | some it =>
      rcases bind_eq_ok.mp rest with ⟨c₁, updated, done⟩
      cases done
      have counted : ({ c with
          mem := { c.mem with
            refcount := Function.update c.mem.refcount it ((c.mem.refcount it + 1) % 2 ^ 16) } } :
              LruLists).Knows known bound := knows.congr rfl rfl rfl
      exact ⟨counted.doItemUpdate updated, inKnown⟩

theorem storeItem (knows : c.Knows known bound) (isKnown : it ∈ known)
    (run : c.storeItem it sys = .ok c') : c'.Knows known bound := by
  have hashed : ({ c with
      mem := { c.mem with hv := Function.update c.mem.hv it (itemHash c.mem it) } } :
        LruLists).Knows known bound := knows.congr rfl rfl rfl
  rcases bind_eq_ok.mp run with ⟨⟨c₁, oldIt⟩, got, rest⟩
  have looked := (hashed.doItemGet got).1
  cases oldIt with
  | none => exact looked.doItemLink isKnown rest
  | some oldIt =>
      rcases bind_eq_ok.mp rest with ⟨c₂, replaced, released⟩
      rcases bind_eq_ok.mp replaced with ⟨-, -, replaced⟩
      rcases bind_eq_ok.mp replaced with ⟨c₃, unlinked, linked⟩
      have without := looked.doItemUnlink unlinked
      exact (without.doItemLink isKnown linked).doItemRelease released

theorem slabsAlloc (knows : c.Knows known bound) {ntotal id : ℕ} {chunk : Option ℕ}
    (run : c.slabsAlloc ntotal id os = .ok (c', chunk)) : c'.Knows known bound := by
  rcases bind_eq_ok.mp run with ⟨⟨slabs, mem, it⟩, allocated, done⟩
  cases done
  rcases SlabAllocator.mem_of_doSlabsAlloc allocated with rfl | ⟨start, length, rfl⟩
  · exact knows.congr rfl rfl rfl
  · exact LeadsTo.clear knows start length

theorem obtainChunk (knows : c.Knows known bound) {ntotal id : ℕ} {chunk : Option ℕ}
    (run : c.obtainChunk ntotal id sys = .ok (c', chunk)) : c'.Knows known bound := by
  rcases bind_eq_ok.mp run with ⟨⟨c₁, first⟩, allocated, rest⟩
  have knows₁ := knows.slabsAlloc allocated
  cases first with
  | some it =>
      cases rest
      exact knows₁
  | none =>
      rcases bind_eq_ok.mp rest with ⟨tail, -, rest⟩
      cases tail with
      | none =>
          cases rest
          exact knows₁
      | some tail =>
          rcases bind_eq_ok.mp rest with ⟨c₂, evicted, rest⟩
          have knows₂ : c₂.Knows known bound := by
            simp only [LruLists.evict] at evicted
            split at evicted
            · exact knows₁.doItemUnlink evicted
            · cases evicted
              exact knows₁
          rcases bind_eq_ok.mp rest with ⟨⟨c₃, second⟩, allocated, rest⟩
          have knows₃ := knows₂.slabsAlloc allocated
          cases second with
          | some it =>
              cases rest
              exact knows₃
          | none =>
              rcases bind_eq_ok.mp rest with ⟨c₄, repaired, rest⟩
              have knows₄ : c₄.Knows known bound := by
                simp only [LruLists.tailRepair] at repaired
                split at repaired
                case h_1 search _ =>
                  have reset : ({ c₃ with
                      mem := { c₃.mem with
                        refcount := Function.update c₃.mem.refcount search 0 }
                      repaired := search :: c₃.repaired } : LruLists).Knows known bound :=
                    knows₃.congr rfl rfl rfl
                  exact reset.doItemUnlink repaired
                case h_2 =>
                  cases repaired
                  exact knows₃
              exact knows₄.slabsAlloc rest

theorem initItem (knows : c.Knows known bound) {id : ℕ} {nbytes : ℤ}
    (short : (nbytes % 2 ^ 32).toNat ≤ bound) (run : c.initItem it id key nbytes = .ok c') :
    c'.Knows (insert it known) bound := by
  rcases bind_eq_ok.mp run with ⟨-, -, rest⟩
  rcases bind_eq_ok.mp rest with ⟨head, -, rest⟩
  rcases bind_eq_ok.mp rest with ⟨-, -, rest⟩
  split at rest
  · cases rest
  · cases rest
    refine ⟨?_, ?_, ?_, ?_⟩
    · intro bucket a isHead
      exact Set.mem_insert_of_mem it (knows.primary bucket a isHead)
    · intro buckets isOld bucket a isHead
      exact Set.mem_insert_of_mem it (knows.old buckets isOld bucket a isHead)
    · intro a isKnown next isNext
      by_cases same : a = it
      · subst same
        simp at isNext
      · have isNext' : next ∈ c.mem.hNext a := by simpa [same] using isNext
        have wasKnown := (Set.mem_insert_iff.mp isKnown).resolve_left same
        exact Set.mem_insert_of_mem it (knows.hNext a wasKnown next isNext')
    · intro a isKnown
      by_cases same : a = it
      · subst same
        simpa using short
      · have wasKnown := (Set.mem_insert_iff.mp isKnown).resolve_left same
        simpa [same] using knows.nbytes a wasKnown

theorem itemAlloc (knows : c.Knows known bound) {nbytes : ℤ} {found : Option ℕ}
    (short : (nbytes % 2 ^ 32).toNat ≤ bound) (run : c.itemAlloc key nbytes sys = .ok (c', found)) :
    ∃ known', known ⊆ known' ∧ c'.Knows known' bound ∧ ∀ it ∈ found, it ∈ known' := by
  simp only [LruLists.itemAlloc, LruLists.doItemAlloc] at run
  split at run
  · cases run
    exact ⟨known, subset_rfl, knows, by simp⟩
  · rcases bind_eq_ok.mp run with ⟨⟨c₁, chunk⟩, obtained, rest⟩
    have knows₁ := knows.obtainChunk obtained
    cases chunk with
    | none =>
        cases rest
        exact ⟨known, subset_rfl, knows₁, by simp⟩
    | some it =>
        rcases bind_eq_ok.mp rest with ⟨c₂, filled, done⟩
        cases done
        refine ⟨insert it known, Set.subset_insert it known, knows₁.initItem short filled, ?_⟩
        simp

theorem maintenance (knows : c.Knows known bound) (run : c.maintenance = .ok c') :
    c'.Knows known bound := by
  rcases bind_eq_ok.mp run with ⟨⟨assoc, mem⟩, passed, done⟩
  cases done
  exact LeadsTo.maintenancePass knows passed

end Knows

end LruLists

end ChaosCache
