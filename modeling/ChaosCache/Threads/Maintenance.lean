import ChaosCache.Lru.Skeleton
import ChaosCache.Threads.Invariant

/-!
# The maintenance thread

`assoc_expand` creates a thread that migrates the old table bucket by bucket and returns when it is
done. So there is one while an expansion is under way and none otherwise, and it makes as many
passes as the old table has buckets, however many sections of other threads lie between them.
-/

namespace ChaosCache

open Relation

namespace AssociativeArray

variable {t t' t'' : AssociativeArray} {mem mem' : Mem} {it : ℕ} {hash : UInt32} {key : List UInt8}

/-! ## Expansions and passes -/

/-- No expansion starts or ends, and none goes on. -/
structure SameCursor (t t' : AssociativeArray) : Prop where
  hashpower : t'.hashpower = t.hashpower
  expanding : t'.expanding = t.expanding
  expandBucket : t.expanding = true → t'.expandBucket = t.expandBucket

/-- An expansion starts. -/
structure Starts (t t' : AssociativeArray) : Prop where
  hashpower : t'.hashpower = t.hashpower + 1
  still : t.expanding = false
  expanding : t'.expanding = true
  expandBucket : t'.expandBucket = 0

theorem SameCursor.refl (t : AssociativeArray) : SameCursor t t := ⟨rfl, rfl, fun _ => rfl⟩

theorem SameCursor.of_assoc (same : t' = t) : SameCursor t t' := same ▸ .refl t

theorem SameCursor.trans (first : SameCursor t t') (second : SameCursor t' t'') :
    SameCursor t t'' where
  hashpower := second.hashpower.trans first.hashpower
  expanding := second.expanding.trans first.expanding
  expandBucket goesOn :=
    (second.expandBucket (first.expanding.trans goesOn)).trans (first.expandBucket goesOn)

theorem SameCursor.store (t : AssociativeArray) (slot : Slot) (head : Option ℕ) :
    SameCursor t (t.store slot head) :=
  ⟨hashpower_store slot head, expanding_store slot head, fun _ => expandBucket_store slot head⟩

theorem Starts.after (starts : Starts t' t'') (same : SameCursor t t') : Starts t t'' where
  hashpower := by rw [starts.hashpower, same.hashpower]
  still := same.expanding.symm.trans starts.still
  expanding := starts.expanding
  expandBucket := starts.expandBucket

/-- A failed attempt leaves no expansion behind. -/
theorem cursor_of_assocExpand (still : t.expanding = false) (expansion : Expansion) :
    SameCursor t (t.assocExpand expansion) ∨ Starts t (t.assocExpand expansion) := by
  cases expansion with
  | succeeds => exact Or.inr ⟨rfl, still, rfl, rfl⟩
  | callocFails => exact Or.inl ⟨rfl, rfl, fun _ => rfl⟩
  | threadFails =>
      refine Or.inl ⟨rfl, still.symm, fun goesOn => ?_⟩
      rw [still] at goesOn
      cases goesOn

theorem cursor_of_assocInsert {expansion : Expansion}
    (run : t.assocInsert mem it expansion = .ok (t', mem')) : SameCursor t t' ∨ Starts t t' := by
  rcases bind_eq_ok.mp run with ⟨found, -, rest⟩
  rcases bind_eq_ok.mp rest with ⟨-, -, rest⟩
  rcases bind_eq_ok.mp rest with ⟨head, -, rest⟩
  set stored := t.store (t.slot (mem.hv it)) (some it)
  have linked : SameCursor t { stored with hashItems := (stored.hashItems + 1) % 2 ^ 32 } := by
    have same := SameCursor.store t (t.slot (mem.hv it)) (some it)
    exact ⟨same.hashpower, same.expanding, same.expandBucket⟩
  simp only at rest
  split at rest
  case isTrue full =>
    cases rest
    have still : stored.expanding = false := by simpa using full.1
    have stillLinked : { stored with hashItems := (stored.hashItems + 1) % 2 ^ 32 }.expanding =
        false := still
    rcases cursor_of_assocExpand stillLinked expansion with same | starts
    · exact Or.inl (linked.trans same)
    · exact Or.inr (starts.after linked)
  case isFalse =>
    cases rest
    exact Or.inl linked

theorem cursor_of_assocDelete (run : t.assocDelete mem hash key = .ok (t', mem')) :
    SameCursor t t' := by
  rcases bind_eq_ok.mp run with ⟨⟨before, found⟩, -, rest⟩
  cases found with
  | none => cases rest
  | some it =>
      cases before with
      | slot slot =>
          cases rest
          have stored := SameCursor.store
            { t with hashItems := (t.hashItems + (2 ^ 32 - 1)) % 2 ^ 32 } slot (mem.hNext it)
          exact ⟨stored.hashpower, stored.expanding, stored.expandBucket⟩
      | hNext item =>
          cases rest
          exact ⟨rfl, rfl, fun _ => rfl⟩

theorem cursor_of_migrateFrom {fuel : ℕ} {start : Option ℕ}
    (run : migrateFrom fuel start t mem = .ok (t', mem')) : SameCursor t t' := by
  induction fuel generalizing start t mem with
  | zero => cases run
  | succ fuel ih =>
      cases start with
      | none =>
          cases run
          exact .refl _
      | some it => exact (SameCursor.store t _ _).trans (ih run)

/-- The passes that the expansion needs until it is done. -/
def left (t : AssociativeArray) : ℕ :=
  if t.expanding then 2 ^ (t.hashpower - 1) - t.expandBucket else 0

theorem SameCursor.left (same : SameCursor t t') : t'.left = t.left := by
  simp only [AssociativeArray.left, same.expanding, same.hashpower]
  split
  case isTrue goesOn => rw [same.expandBucket goesOn]
  case isFalse => rfl

/-- A new table has twice the buckets, and all those of the old one are to be migrated. -/
theorem Starts.left (starts : Starts t t') : t.left = 0 ∧ t'.left = 2 ^ t.hashpower := by
  simp [AssociativeArray.left, starts.still, starts.expanding, starts.hashpower,
    starts.expandBucket]

/-- A pass of the thread brings the end one pass nearer. -/
theorem left_of_maintenancePass {stored : Finset ℕ} {chains : Slot → List ℕ}
    (inv : TableInv t mem stored chains) (expanding : t.expanding = true)
    (run : t.maintenancePass mem = .ok (t', mem')) :
    t'.hashpower = t.hashpower ∧ t'.left + 1 = t.left := by
  rcases inv.cursor expanding with ⟨-, cursor⟩
  have power := inv.power
  simp only [maintenancePass, expanding, if_true] at run
  rcases bind_eq_ok.mp run with ⟨first, -, rest⟩
  rcases bind_eq_ok.mp rest with ⟨⟨t₁, mem₁⟩, migrated, done⟩
  cases done
  have same := cursor_of_migrateFrom migrated
  have emptied := same.trans (.store t₁ (.old t₁.expandBucket) none)
  have bucket := emptied.expandBucket expanding
  have isExpanding := emptied.expanding.trans expanding
  have bound : 2 ^ (t.hashpower - 1) ≤ 2 ^ 30 := Nat.pow_le_pow_right (by decide) (by omega)
  have noWrap : (t.expandBucket + 1) % 2 ^ 32 = t.expandBucket + 1 :=
    Nat.mod_eq_of_lt (by omega)
  have size : hashsize (t.hashpower - 1) = 2 ^ (t.hashpower - 1) := hashsize_of_lt (by omega)
  have before : t.left = 2 ^ (t.hashpower - 1) - t.expandBucket := if_pos expanding
  rw [before]
  simp only [AssociativeArray.advance, bucket, emptied.hashpower, noWrap, size]
  split
  case isTrue last =>
    refine ⟨rfl, ?_⟩
    simp only [AssociativeArray.left, Bool.false_eq_true, if_false]
    omega
  case isFalse goesOn =>
    refine ⟨rfl, ?_⟩
    simp only [AssociativeArray.left, isExpanding, if_true]
    omega

/-- Some bucket is left as long as the table expands. -/
theorem left_eq_zero {stored : Finset ℕ} {chains : Slot → List ℕ}
    (inv : TableInv t mem stored chains) : t.left = 0 ↔ t.expanding = false := by
  cases expanding : t.expanding with
  | false => simp [AssociativeArray.left, expanding]
  | true =>
      rcases inv.cursor expanding with ⟨-, cursor⟩
      simp only [AssociativeArray.left, expanding, if_true, Bool.true_eq_false, iff_false]
      omega

end AssociativeArray

namespace LruLists

open AssociativeArray

variable {c c' : LruLists} {it id now : ℕ} {os : Os} {sys : System} {key : List UInt8}

/-! ## The sections of the other threads -/

theorem assoc_of_itemLinkQ (run : c.itemLinkQ it = .ok c') : c'.assoc = c.assoc := by
  rcases bind_eq_ok.mp run with ⟨-, -, rest⟩
  rcases bind_eq_ok.mp rest with ⟨-, -, rest⟩
  rcases bind_eq_ok.mp rest with ⟨-, -, rest⟩
  rcases bind_eq_ok.mp rest with ⟨-, -, done⟩
  cases done
  rfl

theorem assoc_of_itemUnlinkQ (run : c.itemUnlinkQ it = .ok c') : c'.assoc = c.assoc := by
  rcases bind_eq_ok.mp run with ⟨-, -, rest⟩
  rcases bind_eq_ok.mp rest with ⟨-, -, rest⟩
  rcases bind_eq_ok.mp rest with ⟨-, -, rest⟩
  rcases bind_eq_ok.mp rest with ⟨-, -, rest⟩
  rcases bind_eq_ok.mp rest with ⟨-, -, done⟩
  cases done
  rfl

theorem assoc_of_itemFree (run : c.itemFree it os = .ok c') : c'.assoc = c.assoc := by
  rcases bind_eq_ok.mp run with ⟨head, -, rest⟩
  rcases bind_eq_ok.mp rest with ⟨tail, -, rest⟩
  rcases bind_eq_ok.mp rest with ⟨-, -, rest⟩
  rcases bind_eq_ok.mp rest with ⟨-, -, rest⟩
  rcases bind_eq_ok.mp rest with ⟨-, -, rest⟩
  rcases bind_eq_ok.mp rest with ⟨-, -, rest⟩
  rcases bind_eq_ok.mp rest with ⟨slabs, -, done⟩
  cases done
  rfl

theorem cursor_of_doItemUnlink (run : c.doItemUnlink it os = .ok c') :
    SameCursor c.assoc c'.assoc := by
  simp only [doItemUnlink] at run
  split at run
  case isTrue =>
    rcases bind_eq_ok.mp run with ⟨c₁, detached, rest⟩
    rcases bind_eq_ok.mp detached with ⟨⟨assoc, mem⟩, deleted, unlinked⟩
    have without : SameCursor c.assoc c₁.assoc := by
      rw [assoc_of_itemUnlinkQ unlinked]
      exact cursor_of_assocDelete deleted
    split at rest
    · rwa [assoc_of_itemFree rest]
    · cases rest
      exact without
  case isFalse =>
    cases run
    exact .refl c.assoc

theorem cursor_of_doItemLink {expansion : Expansion}
    (run : c.doItemLink it now expansion = .ok c') :
    SameCursor c.assoc c'.assoc ∨ Starts c.assoc c'.assoc := by
  rcases bind_eq_ok.mp run with ⟨-, -, rest⟩
  rcases bind_eq_ok.mp rest with ⟨-, -, rest⟩
  rcases bind_eq_ok.mp rest with ⟨⟨assoc, mem⟩, inserted, linked⟩
  rw [assoc_of_itemLinkQ linked]
  exact cursor_of_assocInsert inserted

theorem assoc_of_doItemUpdate (run : c.doItemUpdate it now = .ok c') : c'.assoc = c.assoc := by
  simp only [doItemUpdate] at run
  split at run
  · rcases bind_eq_ok.mp run with ⟨-, -, rest⟩
    split at rest
    · rcases bind_eq_ok.mp rest with ⟨c₁, unlinked, linked⟩
      have relinked := assoc_of_itemLinkQ linked
      have same := assoc_of_itemUnlinkQ unlinked
      exact relinked.trans same
    · cases rest
      rfl
  · cases run
    rfl

theorem assoc_of_doItemGet {hv : UInt32} {found : Option ℕ}
    (run : c.doItemGet key hv now = .ok (c', found)) : c'.assoc = c.assoc := by
  rcases bind_eq_ok.mp run with ⟨found', -, rest⟩
  cases found' with
  | none =>
      cases rest
      rfl
  | some it =>
      rcases bind_eq_ok.mp rest with ⟨c₁, updated, done⟩
      cases done
      have same := assoc_of_doItemUpdate updated
      exact same

theorem assoc_of_doItemRelease (run : c.doItemRelease it os = .ok c') :
    c'.assoc = c.assoc := by
  simp only [doItemRelease] at run
  split at run
  · have freed := assoc_of_itemFree run
    exact freed
  · cases run
    rfl

theorem cursor_of_storeItem (run : c.storeItem it sys = .ok c') :
    SameCursor c.assoc c'.assoc ∨ Starts c.assoc c'.assoc := by
  rcases bind_eq_ok.mp run with ⟨⟨c₁, oldIt⟩, got, rest⟩
  have looked := assoc_of_doItemGet got
  have same : c₁.assoc = c.assoc := looked
  rw [← same]
  cases oldIt with
  | none => exact cursor_of_doItemLink rest
  | some oldIt =>
      rcases bind_eq_ok.mp rest with ⟨c₂, replaced, released⟩
      rcases bind_eq_ok.mp replaced with ⟨-, -, replaced⟩
      rcases bind_eq_ok.mp replaced with ⟨c₃, unlinked, linked⟩
      rw [assoc_of_doItemRelease released]
      have without := cursor_of_doItemUnlink unlinked
      rcases cursor_of_doItemLink linked with same | starts
      · exact Or.inl (without.trans same)
      · exact Or.inr (starts.after without)

theorem assoc_of_slabsAlloc {size : ℕ} {chunk : Option ℕ}
    (run : c.slabsAlloc size id os = .ok (c', chunk)) : c'.assoc = c.assoc := by
  rcases bind_eq_ok.mp run with ⟨⟨slabs, mem, it⟩, -, done⟩
  cases done
  rfl

theorem cursor_of_evict (run : c.evict id os = .ok c') : SameCursor c.assoc c'.assoc := by
  simp only [evict] at run
  split at run
  · exact cursor_of_doItemUnlink run
  · cases run
    exact .refl c.assoc

theorem cursor_of_tailRepair (run : c.tailRepair id now os = .ok c') :
    SameCursor c.assoc c'.assoc := by
  simp only [tailRepair] at run
  split at run
  · have unlinked := cursor_of_doItemUnlink run
    exact unlinked
  · cases run
    exact .refl c.assoc

theorem cursor_of_obtainChunk {size : ℕ} {chunk : Option ℕ}
    (run : c.obtainChunk size id sys = .ok (c', chunk)) : SameCursor c.assoc c'.assoc := by
  rcases bind_eq_ok.mp run with ⟨⟨c₁, first⟩, allocated₁, rest⟩
  rw [← assoc_of_slabsAlloc allocated₁]
  cases first with
  | some a =>
      cases rest
      exact .refl _
  | none =>
      rcases bind_eq_ok.mp rest with ⟨tail, -, rest⟩
      cases tail with
      | none =>
          cases rest
          exact .refl _
      | some tail =>
          rcases bind_eq_ok.mp rest with ⟨c₂, evicted, rest⟩
          have same₂ := cursor_of_evict evicted
          rcases bind_eq_ok.mp rest with ⟨⟨c₃, second⟩, allocated₂, rest⟩
          rw [← assoc_of_slabsAlloc allocated₂] at same₂
          cases second with
          | some a =>
              cases rest
              exact same₂
          | none =>
              rcases bind_eq_ok.mp rest with ⟨c₄, repaired, rest⟩
              rw [assoc_of_slabsAlloc rest]
              exact same₂.trans (cursor_of_tailRepair repaired)

theorem cursor_of_doItemAlloc {nbytes : ℤ} {found : Option ℕ}
    (run : c.doItemAlloc key nbytes sys = .ok (c', found)) : SameCursor c.assoc c'.assoc := by
  simp only [doItemAlloc] at run
  split at run
  · cases run
    exact .refl c.assoc
  · rcases bind_eq_ok.mp run with ⟨⟨c₁, it⟩, obtained, rest⟩
    have same := cursor_of_obtainChunk obtained
    cases it with
    | none =>
        cases rest
        exact same
    | some it =>
        rcases bind_eq_ok.mp rest with ⟨c₂, filled, done⟩
        cases done
        rcases bind_eq_ok.mp filled with ⟨-, -, filled⟩
        rcases bind_eq_ok.mp filled with ⟨head, -, filled⟩
        rcases bind_eq_ok.mp filled with ⟨-, -, filled⟩
        split at filled
        · cases filled
        · cases filled
          exact same

end LruLists

/-! ## Runs -/

open AssociativeArray

variable {keys : Set (List UInt8)} {v : View} {s s' : Threads}

namespace Threads

/-- The threads start expansions, and leave those alone that are under way. -/
theorem cursor_of_step {action : Action} (other : action ≠ .maintain)
    (run : s.step action = .ok s') :
    SameCursor s.cache.assoc s'.cache.assoc ∨ Starts s.cache.assoc s'.cache.assoc := by
  cases action with
  | call thread call sys =>
      rcases bind_eq_ok.mp run with ⟨⟨_, _⟩, started, next⟩
      refine Or.inl ?_
      cases call with
      | get key =>
          rcases bind_eq_ok.mp started with ⟨⟨_, found⟩, got, rest⟩
          cases rest
          cases next
          exact .of_assoc (LruLists.assoc_of_doItemGet got)
      | store key inbuffer bufflen =>
          rcases bind_eq_ok.mp started with ⟨⟨_, found⟩, obtained, rest⟩
          cases rest
          cases next
          exact LruLists.cursor_of_doItemAlloc obtained
      | delete key =>
          rcases bind_eq_ok.mp started with ⟨⟨_, found⟩, got, rest⟩
          cases rest
          cases next
          exact .of_assoc (LruLists.assoc_of_doItemGet got)
  | resume thread sys =>
      rcases bind_eq_ok.mp run with ⟨⟨_, _⟩, resumed, next⟩
      cases next
      cases phase : s.phase thread <;> rw [phase] at resumed
      case idle | getting =>
        cases resumed
        exact Or.inl (.refl s.cache.assoc)
      case storing it inbuffer bufflen =>
        rcases bind_eq_ok.mp resumed with ⟨c', copied, rest⟩
        cases rest
        simp only [DataCache.copyIn] at copied
        split at copied
        · cases copied
        · cases copied
          exact Or.inl (.refl s.cache.assoc)
      case copied it =>
        rcases bind_eq_ok.mp resumed with ⟨c', stored, rest⟩
        cases rest
        exact LruLists.cursor_of_storeItem stored
      case deleting it =>
        rcases bind_eq_ok.mp resumed with ⟨c', isUnlinked, rest⟩
        cases rest
        exact Or.inl (LruLists.cursor_of_doItemUnlink isUnlinked)
      case unlinked it =>
        rcases bind_eq_ok.mp resumed with ⟨c', released, rest⟩
        cases rest
        exact Or.inl (.of_assoc (LruLists.assoc_of_doItemRelease released))
  | maintain => exact absurd rfl other

end Threads

/-- The threads, the maintenance threads that have been created and have not returned, and a
record of how many passes all of them have made. -/
structure Maintained where
  threads : Threads
  maintainers : ℕ
  passes : ℕ

namespace Maintained

variable {m m' : Maintained}

def init (cache : LruLists) : Maintained where
  threads := .init cache
  maintainers := 0
  passes := 0

/-- What becomes of the maintenance threads. `assoc_expand` creates one where it leaves `expanding`
on, and a thread returns from the pass that leaves it off. -/
def next (m : Maintained) (action : Action) (s' : Threads) : Maintained :=
  let expanding := s'.cache.assoc.expanding
  match action with
  | .maintain =>
    { threads := s'
      maintainers := if expanding then m.maintainers else m.maintainers - 1
      passes := m.passes + 1 }
  | _ =>
    { threads := s'
      maintainers :=
        if expanding ∧ ¬ m.threads.cache.assoc.expanding then m.maintainers + 1
        else m.maintainers
      passes := m.passes }

@[simp] theorem threads_next (m : Maintained) (action : Action) (s' : Threads) :
    (m.next action s').threads = s' := by
  cases action <;> rfl

/-- A step in which the maintenance threads that there are make the passes. -/
def Step (keys : Set (List UInt8)) (m m' : Maintained) : Prop :=
  ∃ action s', (action = .maintain → 0 < m.maintainers) ∧
    Threads.Guarded keys m.threads s' action ∧ Threads.SparesUsed m.threads s' ∧
    m' = m.next action s'

/-- One thread maintains the table while an expansion is under way, and the buckets of all old
tables are accounted for: a table of `2 ^ n` buckets follows one of `2 ^ (n - 1)`. -/
structure Inv (hashpower : ℕ) (m : Maintained) : Prop where
  maintainers : m.maintainers = if m.threads.cache.assoc.expanding then 1 else 0
  passes : m.passes + m.threads.cache.assoc.left + 2 ^ hashpower =
    2 ^ m.threads.cache.assoc.hashpower

variable {hashpower cacheSize : ℕ} {mem : Mem} {os : Os} {initialMalloc : Option ℕ}
  {c : LruLists}

theorem inv_init (created : LruLists.create .zero .zero mem
    { DataCache.config cacheSize with hashpower } os initialMalloc = .ok c) :
    (init c).Inv hashpower := by
  cases (DataCache.createWithPower_eq mem cacheSize hashpower os initialMalloc).symm.trans created
  refine ⟨rfl, ?_⟩
  change 0 + 0 + 2 ^ hashpower = 2 ^ hashpower
  simp only [Nat.zero_add]

/-- A section of a call. -/
theorem Inv.of_cursor (inv : m.Inv hashpower) {action : Action} (other : action ≠ .maintain)
    (cursor : SameCursor m.threads.cache.assoc s'.cache.assoc ∨
      Starts m.threads.cache.assoc s'.cache.assoc) : (m.next action s').Inv hashpower := by
  have ⟨maintainers, passes⟩ := inv
  have next : m.next action s' = ⟨s', if s'.cache.assoc.expanding ∧
      ¬ m.threads.cache.assoc.expanding then m.maintainers + 1 else m.maintainers, m.passes⟩ := by
    cases action with
    | maintain => exact absurd rfl other
    | call => rfl
    | resume => rfl
  rw [next]
  rcases cursor with same | starts
  · constructor
    · simp [same.expanding, maintainers]
    · simp only [same.left, same.hashpower, passes]
  · rcases starts.left with ⟨done, all⟩
    constructor
    · simp [starts.expanding, starts.still, maintainers]
    · simp only [done, add_zero] at passes
      simp only [all, starts.hashpower, pow_succ]
      omega

/-- A pass of the one thread that there is. -/
theorem Inv.of_pass (inv : m.Inv hashpower) {stored : Finset ℕ} {chains : Slot → List ℕ}
    (table : TableInv m.threads.cache.assoc m.threads.cache.mem stored chains)
    (present : 0 < m.maintainers) (run : m.threads.step .maintain = .ok s') :
    (m.next .maintain s').Inv hashpower := by
  have ⟨maintainers, passes⟩ := inv
  have expanding : m.threads.cache.assoc.expanding = true := by
    by_contra still
    simp only [still, if_false] at maintainers
    omega
  rcases bind_eq_ok.mp run with ⟨c', maintained, next⟩
  cases next
  rcases bind_eq_ok.mp maintained with ⟨⟨assoc, mem⟩, passed, next⟩
  cases next
  rcases left_of_maintenancePass table expanding passed with ⟨hashpower, left⟩
  constructor
  · simp only [expanding, if_true] at maintainers
    simp [next, maintainers]
  · simp only [Maintained.next, hashpower]
    omega

theorem inv_of_run (keySet : KeySet keys) (power : hashpower < 31)
    (created : LruLists.create .zero .zero mem { DataCache.config cacheSize with hashpower } os
      initialMalloc = .ok c) (run : ReflTransGen (Step keys) (init c) m) :
    m.Inv hashpower ∧ ∃ v, ThreadsInv keys m.threads v := by
  induction run with
  | refl =>
      refine ⟨inv_init created, View.empty, ?_⟩
      cases (DataCache.createWithPower_eq mem cacheSize hashpower os initialMalloc).symm.trans
        created
      exact Threads.inv_of_new (DataCache.cacheInv_newWithPower keys mem cacheSize _ power)
  | tail _ step ih =>
      rcases ih with ⟨inv, v, threads⟩
      rcases step with ⟨action, s', present, guarded, spares, rfl⟩
      rcases threads.advance keySet guarded spares with ⟨v', _, _, _, threads', -⟩
      refine ⟨?_, v', by rwa [threads_next]⟩
      by_cases pass : action = .maintain
      · subst pass
        exact inv.of_pass threads.cache.table (present rfl) guarded.run
      · exact inv.of_cursor pass (Threads.cursor_of_step pass guarded.run)

/-- There is one maintenance thread while an expansion is under way, and none otherwise. Every
bucket of an old table takes one pass, which returns, however the sections of other threads lie
between the passes. The table of `DataCache` starts with `2 ^ 16` buckets. -/
theorem maintains_of_run (keySet : KeySet keys) (power : hashpower < 31)
    (created : LruLists.create .zero .zero mem { DataCache.config cacheSize with hashpower } os
      initialMalloc = .ok c) (run : ReflTransGen (Step keys) (init c) m) :
    m.maintainers = (if m.threads.cache.assoc.expanding then 1 else 0) ∧
      m.passes + m.threads.cache.assoc.left + 2 ^ hashpower =
        2 ^ m.threads.cache.assoc.hashpower ∧
      (m.threads.cache.assoc.left = 0 ↔ m.threads.cache.assoc.expanding = false) ∧
      ∃ s', m.threads.step .maintain = .ok s' := by
  rcases inv_of_run keySet power created run with ⟨inv, v, threads⟩
  refine ⟨inv.maintainers, inv.passes, left_eq_zero threads.cache.table, ?_⟩
  rcases LruLists.maintenance_eq threads.cache with ⟨c', v', pass, -⟩
  exact ⟨_, bind_of_ok pass rfl⟩

/-- The sections of a store by a thread. -/
def storeOf (key : UInt8) (expansion : Expansion) : List Action :=
  let sys := { DataCache.outOfMemory 0 with expansion }
  [.call 0 (.store [key] (fun _ => 7) 1) sys, .resume 0 sys, .resume 0 sys]

/-- What is stored behind `k`, in a table of two buckets. The fourth store lets it expand, and there
is one pass of the maintenance thread while `k` is looked up. -/
def expanding : List Action :=
  [.resume 0 (DataCache.outOfMemory 0), .resume 0 (DataCache.outOfMemory 0)] ++
    storeOf 108 .succeeds ++ storeOf 109 .succeeds ++ storeOf 110 .succeeds ++
      [.call 1 (.get [107]) (DataCache.outOfMemory 0), .maintain]

theorem contract_expanding : ∀ action ∈ expanding,
    action.Valid Threads.oneByteKeys ∧ action.Positive ∧ ∀ slabs, action.Sane slabs := by
  have sane (slabs : SlabAllocator) (j : ℕ) :
      (({ DataCache.outOfMemory 0 with expansion := .succeeds } : System).os j).Sane slabs :=
    DataCache.sane_outOfMemory slabs 0 j
  have isKey (byte : UInt8) (nonZero : 0 ≠ byte) : [byte] ∈ Threads.oneByteKeys :=
    ⟨rfl, by simpa using nonZero⟩
  simp [expanding, storeOf, Action.Valid, Call.Valid, Action.Positive, Action.Sane,
    sane, isKey]

/-- One of the two old buckets is migrated. -/
theorem maintains_of_run_expanding : ∃ m : Maintained, m.threads.cache.assoc.hashItems = 4 ∧
    m.threads.cache.assoc.expanding = true ∧ m.threads.cache.assoc.hashpower = 2 ∧
      m.maintainers = 1 ∧ m.passes = 1 ∧ m.threads.cache.assoc.left = 1 ∧
        ∃ s', m.threads.step .maintain = .ok s' := by
  let start := DataCache.newWithPower .zero 64 0 1
  have created := DataCache.createWithPower_eq .zero 64 1 ((DataCache.onePage 0 0 0).os 0) none
  have facts : ((Threads.init start).calmExec (Threads.firstStore :: expanding)).map
      (fun s => (s.cache.assoc.hashItems, s.cache.assoc.expanding, s.cache.assoc.hashpower,
        s.cache.assoc.expandBucket)) = some (4, true, 2, 1) := by
    decide +kernel
  rcases Option.map_eq_some_iff.mp facts with ⟨s, run, all⟩
  simp only [Prod.mk.injEq] at all
  rcases all with ⟨hashItems, isExpanding, hashpower, expandBucket⟩
  have next (s s' : Threads) (action : Action)
      (guarded : Threads.Guarded Threads.oneByteKeys s s' action)
      (quiet : s'.cache.repaired = s.cache.repaired) (due : s.Due action)
      (before : ∃ m, ReflTransGen (Step Threads.oneByteKeys) (init start) m ∧ m.threads = s) :
      ∃ m, ReflTransGen (Step Threads.oneByteKeys) (init start) m ∧ m.threads = s' := by
    rcases before with ⟨m, run, rfl⟩
    have inv := (inv_of_run Threads.keySet_oneByteKeys (by decide) created run).1
    refine ⟨m.next action s', run.tail ⟨action, s', ?_, guarded, ⟨[], quiet, by simp⟩, rfl⟩,
      threads_next m action s'⟩
    rintro rfl
    have isExpanding : m.threads.cache.assoc.expanding = true := due
    rw [inv.maintainers, if_pos isExpanding]
    exact Nat.one_pos
  rw [Threads.calmExec, List.foldlM_cons] at run
  rcases Option.bind_eq_some_iff.mp run with ⟨s₁, first, others⟩
  rcases Threads.of_calmStep_firstStore (DataCache.noSlabs_new 64 0) first with
    ⟨guarded, quiet, due⟩
  have stored := next _ s₁ Threads.firstStore guarded quiet due ⟨_, .refl, rfl⟩
  rcases Threads.calmExec_induction next contract_expanding stored others with ⟨m, reached, rfl⟩
  rcases maintains_of_run Threads.keySet_oneByteKeys (by decide) created reached with
    ⟨maintainers, passes, -, returns⟩
  have left : m.threads.cache.assoc.left = 1 := by
    simp [left, isExpanding, hashpower, expandBucket]
  rw [left, hashpower] at passes
  exact ⟨m, hashItems, isExpanding, hashpower, by simpa [isExpanding] using maintainers,
    by omega, left, returns⟩

end Maintained

end ChaosCache
