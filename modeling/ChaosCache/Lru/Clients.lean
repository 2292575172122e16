import Mathlib.Logic.Relation
import ChaosCache.Lru.Invariant

/-!
# Clients of the lists

Any clients call the operations of `LRU_Lists`, each of them a section under the cache lock, and
the maintenance thread makes its passes in between.

The other fields are no part of the program. `holds` counts the references to an item that clients
have got and not given back, `lastAccess` is the latest time at which an item was linked or found by
`do_item_get`, and `clock` is the last reading of the clock.
-/

namespace ChaosCache

open Hash Links

namespace LruLists

variable (c : LruLists)

/-- The item that a lookup finds. -/
def lookup (key : List UInt8) (hv : UInt32) : Option ℕ :=
  match c.assoc.assocFind c.mem hv key with
  | .ok it => it
  | .error _ => none

/-- The item carries the hash of its key, as `store_item` writes it. -/
def hashed (it : ℕ) : LruLists :=
  { c with mem := { c.mem with hv := Function.update c.mem.hv it (itemHash c.mem it) } }

/-- The item that `store_item` finds under the key of the item it is called with. -/
def stored (it : ℕ) : Option ℕ :=
  (c.hashed it).lookup ((c.hashed it).mem.key it) ((c.hashed it).mem.hv it)

/-- The item stands in the list of a class. -/
def Listed (id it : ℕ) : Prop := ∃ nodes, Chain c.mem.next (c.heads id) nodes ∧ it ∈ nodes

end LruLists

inductive Operation where
  | alloc (key : List UInt8) (nbytes : ℤ) (sys : System)
  | get (key : List UInt8) (sys : System)
  | release (it : ℕ) (sys : System)
  | unlink (it : ℕ) (sys : System)
  | store (it : ℕ) (sys : System)
  /-- A client writes behind the header of an item. -/
  | fill (it : ℕ) (bytes : ℕ → UInt8)
  /-- A client loses a reference that it will never release. -/
  | forget (it : ℕ)
  /-- A pass of the maintenance thread -/
  | maintain

/-- The clock readings of an operation, in their order. -/
def Operation.readings : Operation → List ℕ
  | alloc _ _ sys => [sys.now 0]
  | get _ sys => [sys.now 0]
  | store _ sys => [sys.now 0, sys.now 1]
  | _ => []

structure Clients where
  cache : LruLists
  holds : ℕ → ℕ
  lastAccess : ℕ → ℕ
  clock : ℕ

namespace Clients

/-- Nobody holds an item. -/
def init (cache : LruLists) : Clients where
  cache := cache
  holds _ := 0
  lastAccess _ := 0
  clock := 0

/-- Setting a field of an item, if there is one. -/
def setAt {α : Type} (field : ℕ → α) (it : Option ℕ) (value : α) : ℕ → α :=
  it.elim field (Function.update field · value)

variable (s : Clients)

/-- The item that `do_item_get` finds in an operation. -/
def hit : Operation → Option ℕ
  | .get key _ => s.cache.lookup key (hashKey key)
  | .store it _ => s.cache.stored it
  | _ => none

def step : Operation → Result Clients
  | .alloc key nbytes sys => do
      let (cache, it) ← s.cache.itemAlloc key nbytes sys
      return { s with
        cache
        holds := setAt s.holds it 1
        clock := sys.now 0 }
  | .get key sys => do
      let (cache, it) ← s.cache.itemGet key sys
      return { s with
        cache
        holds := it.elim s.holds fun a => Function.update s.holds a (s.holds a + 1)
        lastAccess := setAt s.lastAccess it (sys.now 0)
        clock := sys.now 0 }
  | .release it sys => do
      let cache ← s.cache.itemRelease it sys
      return { s with cache, holds := Function.update s.holds it (s.holds it - 1) }
  | .unlink it sys => do
      let cache ← s.cache.itemUnlink it sys
      return { s with cache }
  | .store it sys => do
      let cache ← s.cache.storeItem it sys
      return { s with
        cache
        lastAccess :=
          Function.update (setAt s.lastAccess (s.hit (.store it sys)) (sys.now 0)) it (sys.now 1)
        clock := sys.now 1 }
  | .fill it bytes =>
      let mem := { s.cache.mem with bytes := Function.update s.cache.mem.bytes it bytes }
      .ok { s with cache := { s.cache with mem } }
  | .forget it => .ok { s with holds := Function.update s.holds it (s.holds it - 1) }
  | .maintain => do
      let cache ← s.cache.maintenance
      return { s with cache }

/-- Clients use only items that they hold. -/
def Permitted : Operation → Prop
  | .alloc _ _ _ => True
  | .get _ _ => True
  | .release it _ => 0 < s.holds it
  | .unlink it _ => 0 < s.holds it
  | .store it _ => 0 < s.holds it
  | .fill it _ => 0 < s.holds it
  | .forget it => 0 < s.holds it
  | .maintain => True

/-- The clock does not go back, and stays below the time at which the test of the tail repair
wraps. -/
def Timely (operation : Operation) : Prop :=
  (s.clock :: operation.readings).Pairwise (· ≤ ·) ∧
    ∀ now ∈ operation.readings, now < 2 ^ 32 - tailRepairTime

end Clients

/-- The system answers sanely in the operation. -/
def Operation.Sane (slabs : SlabAllocator) : Operation → Prop
  | alloc _ _ sys => ∀ i, (sys.os i).Sane slabs
  | get _ sys => ∀ i, (sys.os i).Sane slabs
  | release _ sys => ∀ i, (sys.os i).Sane slabs
  | unlink _ sys => ∀ i, (sys.os i).Sane slabs
  | store _ sys => ∀ i, (sys.os i).Sane slabs
  | _ => True

namespace Clients

/-- A step in which the clients keep to their contract. No reference count wraps, the table finds
linked items only, as it does when its matching is key equality, and the tail repair picks no item
that a client holds. -/
structure Guarded (s s' : Clients) (operation : Operation) : Prop where
  permitted : s.Permitted operation
  timely : s.Timely operation
  sane : operation.Sane s.cache.slabs
  noWrap : ∀ it, s.hit operation = some it → s.cache.mem.refcount it + 1 < 2 ^ 16
  matching : ∀ it, s.hit operation = some it → ∃ id, s.cache.Listed id it
  run : s.step operation = .ok s'
  spares : ∃ reset, s'.cache.repaired = reset ++ s.cache.repaired ∧ ∀ it ∈ reset, s.holds it = 0

def GuardedStep (s s' : Clients) : Prop := ∃ operation, s.Guarded s' operation

/-! ## Runs that can be computed -/

instance (s : Clients) (operation : Operation) : Decidable (s.Permitted operation) :=
  match operation with
  | .alloc _ _ _ => .isTrue trivial
  | .get _ _ => .isTrue trivial
  | .release it _ => inferInstanceAs (Decidable (0 < s.holds it))
  | .unlink it _ => inferInstanceAs (Decidable (0 < s.holds it))
  | .store it _ => inferInstanceAs (Decidable (0 < s.holds it))
  | .fill it _ => inferInstanceAs (Decidable (0 < s.holds it))
  | .forget it => inferInstanceAs (Decidable (0 < s.holds it))
  | .maintain => .isTrue trivial

instance (s : Clients) (operation : Operation) : Decidable (s.Timely operation) :=
  inferInstanceAs (Decidable (_ ∧ _))

/-- Conditions of a step that repairs nothing, and that finds at most the only item of a list. -/
def Plain (s s' : Clients) (operation : Operation) : Prop :=
  s.Permitted operation ∧ s.Timely operation ∧
    (∀ it ∈ s.hit operation, s.cache.mem.refcount it + 1 < 2 ^ 16 ∧
      s.cache.heads (s.cache.mem.slabsClsid it) = some it ∧ s.cache.mem.next it = none) ∧
    s'.cache.repaired = s.cache.repaired

instance (s s' : Clients) (operation : Operation) : Decidable (s.Plain s' operation) :=
  inferInstanceAs (Decidable (_ ∧ _ ∧ _ ∧ _))

/-- The state after some operations, if they return and are plain. -/
def exec (s : Clients) : List Operation → Option Clients
  | [] => some s
  | operation :: rest =>
      match s.step operation with
      | .ok s' => if s.Plain s' operation then exec s' rest else none
      | .error _ => none

variable {s s' : Clients} {operation : Operation}

theorem guardedStep_of_plain (sane : operation.Sane s.cache.slabs)
    (run : s.step operation = .ok s') (plain : s.Plain s' operation) : GuardedStep s s' := by
  rcases plain with ⟨permitted, timely, found, repaired⟩
  refine ⟨operation, permitted, timely, sane, fun it isHit => (found it isHit).1, ?_, run, [],
    repaired, by simp⟩
  intro it isHit
  rcases found it isHit with ⟨-, isHead, isLast⟩
  exact ⟨_, [it], ⟨isHead, isLast⟩, List.mem_singleton_self it⟩

/-- Operations whose system is sane for all slabs. -/
theorem run_of_exec {operations : List Operation}
    (sane : ∀ operation ∈ operations, ∀ slabs, operation.Sane slabs)
    (run : s.exec operations = some s') : Relation.ReflTransGen GuardedStep s s' := by
  induction operations generalizing s with
  | nil =>
      cases run
      exact .refl
  | cons operation rest ih =>
      simp only [exec] at run
      split at run
      case h_2 => cases run
      case h_1 s₁ returned =>
        split at run
        case isFalse => cases run
        case isTrue plain =>
          have first := guardedStep_of_plain (sane operation List.mem_cons_self _) returned plain
          exact .head first (ih (fun op inRest => sane op (List.mem_cons_of_mem _ inRest)) run)

end Clients

end ChaosCache
