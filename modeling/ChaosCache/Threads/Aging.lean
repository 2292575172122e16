import ChaosCache.Lru.Eviction
import ChaosCache.Threads.Lifetime

/-!
# Counters and times in runs of any length

A reference counter wraps only if too many references to one item are taken. What the tail repair
unlinks was not accessed for almost `TAIL_REPAIR_TIME`, so it spares the items in use as long as no
call takes that long. So that no counter wraps and that the items in use are spared need not be
assumed of a run in which no item is found that often, and no call takes that long.
-/

namespace ChaosCache

open Hash LazyLru Linearizability Links Relation

/-- The references that a section takes and does not release. -/
def Action.references : Action → ℕ
  | .call _ (.get _) _ => 1
  | .call _ (.delete _) _ => 1
  | _ => 0

theorem Action.references_le (action : Action) : action.references ≤ 1 := by
  unfold references
  split <;> simp

namespace Threads

/-- The clock readings of a section, in their order. -/
def readings (s : Threads) : Action → List ℕ
  | .call _ _ sys => [sys.now 0]
  | .resume thread sys =>
      match s.phase thread with
      | .copied _ => [sys.now 0, sys.now 1]
      | _ => []
  | .maintain => []

/-- The item to which a section takes a reference that it does not release. -/
def takes (s : Threads) : Action → Option ℕ
  | .call _ (.get key) _ =>
      s.cache.lookup (DataCache.cString key) (hashKey (DataCache.cString key))
  | .call _ (.delete key) _ =>
      s.cache.lookup (DataCache.cString key) (hashKey (DataCache.cString key))
  | _ => none

theorem references_of_takes {s : Threads} {action : Action} {it : ℕ}
    (takes : s.takes action = some it) : action.references = 1 := by
  cases action with
  | call thread call sys =>
      cases call with
      | get key => rfl
      | store key inbuffer bufflen => cases takes
      | delete key => rfl
  | resume thread sys => cases takes
  | maintain => cases takes

/-- The last reading of a section is not earlier than the one before it. -/
theorem clock_le_of_inOrder {s : Threads} {action : Action} {clock : ℕ}
    (inOrder : (clock :: s.readings action).Pairwise (· ≤ ·)) :
    clock ≤ (s.readings action).getLastD clock := by
  cases readings : s.readings action with
  | nil => exact Nat.le_refl _
  | cons now rest =>
      rw [readings, List.pairwise_cons] at inOrder
      rw [List.getLastD_cons]
      exact inOrder.1 _ List.getLastD_mem_cons

/-- When each item was last linked or found, after a section. -/
def accesses (s : Threads) (last : ℕ → ℕ) : Action → ℕ → ℕ
  | .call thread call sys =>
      Clients.setAt last (s.takes (.call thread call sys)) (sys.now 0)
  | .resume thread sys =>
      match s.phase thread with
      | .copied it =>
          Function.update (Clients.setAt last (s.cache.stored it) (sys.now 0)) it (sys.now 1)
      | _ => last
  | .maintain => last

end Threads

/-- The threads, the references that were taken to each item since it was obtained, the latest time
at which it was linked or found, the time at which each thread began its call, and the last reading
of the clock. -/
structure Aged where
  threads : Threads
  taken : ℕ → ℕ
  lastAccess : ℕ → ℕ
  begun : ℕ → ℕ
  clock : ℕ

namespace Aged

def init (cache : LruLists) (start : ℕ) : Aged where
  threads := .init cache
  taken _ := 0
  lastAccess _ := start
  begun _ := start
  clock := start

/-- What is recorded of a section that leads to `threads`. -/
def after (s : Aged) (action : Action) (threads : Threads) : Aged where
  threads := threads
  taken :=
    match action with
    | .call thread call sys =>
        let taken := (s.threads.takes (.call thread call sys)).elim s.taken fun a =>
          Function.update s.taken a (s.taken a + 1)
        Clients.setAt taken (threads.phase thread).allocated 0
    | _ => s.taken
  lastAccess := s.threads.accesses s.lastAccess action
  begun :=
    match action with
    | .call thread _ sys => Function.update s.begun thread (sys.now 0)
    | _ => s.begun
  clock := (s.threads.readings action).getLastD s.clock

/-- A section of any run that respects the contract of the cache, under a clock that does not go
back. -/
structure Proceeds (keys : Set (List UInt8)) (s : Aged) (action : Action) (s' : Aged) : Prop where
  regular : s.threads.Regular keys action
  run : s.threads.step action = .ok s'.threads
  positive : action.Positive ∨ s'.threads.obtained = s.threads.obtained
  inOrder : (s.clock :: s.threads.readings action).Pairwise (· ≤ ·)
  records : s' = s.after action s'.threads

/-- To no item more than 65533 references were taken, no thread has been in its call for more than
two hours and 59 minutes, and the test of the tail repair does not wrap. -/
structure Brisk (s : Aged) : Prop where
  taken : ∀ it, s.taken it < 2 ^ 16 - 2
  calls : ∀ thread, s.threads.phase thread ≠ .idle →
    s.clock ≤ s.begun thread + (tailRepairTime - itemUpdateInterval)
  bound : s.clock < 2 ^ 32 - tailRepairTime

/-- A section of a brisk run. -/
structure BriskStep (keys : Set (List UInt8)) (s : Aged) (action : Action) (s' : Aged) : Prop
    extends Proceeds keys s action s' where
  before : s.Brisk
  after : s'.Brisk

def Step (keys : Set (List UInt8)) (s s' : Aged) : Prop := ∃ action, BriskStep keys s action s'

/-- A section of a brisk run, with its events. -/
def HistoryStep (keys : Set (List UInt8)) (s : Aged) (events : List CacheEvent) (s' : Aged) :
    Prop :=
  ∃ action, BriskStep keys s action s' ∧ events = s.threads.events s'.threads action

end Aged

theorem Skeleton.lists_eq {c : LruLists} {lists lists' out out' : ℕ → List ℕ}
    (inv : Skeleton c lists out) (inv' : Skeleton c lists' out') : lists = lists' := by
  funext id
  exact (inv.order.list id).forward.unique (inv'.order.list id).forward

/-! ## One section -/

variable {keys : Set (List UInt8)} {c c' : LruLists} {v v' : View} {it now clock : ℕ}
  {last last' : ℕ → ℕ} {key : List UInt8} {sys : System} {os : Os}

/-- What a section does to the times and counters: the lists stay in the order of the accesses, a
counter grows by the reference that the section takes, or is that of a new item, and what the tail
repair picks is old, and freed. -/
structure Ages (c c' : LruLists) (v : View) (last last' : ℕ → ℕ) (now : ℕ) (taken : Option ℕ)
    (new reset : List ℕ) : Prop where
  recent : ∃ lists out, Skeleton c' lists out ∧ Recent c' lists last' now
  counts : ∀ a, v.Live a → a ∉ reset →
    c'.mem.refcount a ≤ c.mem.refcount a + if taken = some a then 1 else 0
  new : ∀ a ∈ new, c'.mem.refcount a = 1
  repaired : c'.repaired = reset ++ c.repaired
  old : ∀ a ∈ reset, a ∈ v.stored ∧ last a + (tailRepairTime - itemUpdateInterval) < now
  freed : ∀ gone, c'.freed = gone ++ c.freed → ∀ a ∈ reset, a ∈ gone

/-- What holds of the cache between the sections of a brisk run. -/
structure AgingInv (keys : Set (List UInt8)) (c : LruLists) (v : View) (last : ℕ → ℕ)
    (clock : ℕ) : Prop where
  cache : CacheInv keys c v
  recent : Recent c v.lists last clock
  referred : ∀ a, v.Live a → c.mem.refcount a ≠ 0

namespace AgingInv

/-- The section accesses nothing. -/
theorem passes (inv : AgingInv keys c v last clock) (passed : clock ≤ now) :
    Ages c c v last last now none [] [] where
  recent := ⟨_, _, inv.cache.skeleton, inv.recent.later passed⟩
  counts _ _ _ := Nat.le_add_right _ _
  new := by simp
  repaired := rfl
  old := by simp
  freed := by simp

theorem get (inv : AgingInv keys c v last clock) (keySet : KeySet keys) (isKey : key ∈ keys)
    (passed : clock ≤ sys.now 0) (early : sys.now 0 < 2 ^ 32) {found : Option ℕ}
    (run : c.itemGet (DataCache.cString key) sys = .ok (c', found)) :
    found = c.lookup (DataCache.cString key) (hashKey (DataCache.cString key)) ∧
      Ages c c' v last (Clients.setAt last found (sys.now 0)) (sys.now 0) found [] [] := by
  rw [DataCache.itemGet_cString keySet isKey] at run
  rw [keySet.cString_eq isKey]
  have matching : ∀ a, c.lookup key (hashKey key) = some a → ∃ id, c.Listed id a :=
    fun a => Clients.listed_of_lookup inv.cache keySet isKey
  rcases inv.cache.skeleton.of_doItemGet early matching run with
    ⟨isHit, ⟨rfl, rfl⟩ | ⟨a, id, lists, rfl, -, inv', -, counted, -, -, repaired, accesses⟩⟩
  · exact ⟨isHit, inv.passes passed⟩
  · refine ⟨isHit, ⟨_, _, inv', accesses _ _ inv.recent passed⟩, ?_, by simp, repaired, by simp,
      by simp⟩
    intro b _ _
    rw [counted]
    by_cases same : b = a
    · subst same
      rw [Function.update_self, if_pos rfl]
      exact Nat.mod_le _ _
    · rw [Function.update_of_ne same]
      exact Nat.le_add_right _ _

theorem alloc (inv : AgingInv keys c v last clock) (keySet : KeySet keys) (isKey : key ∈ keys)
    (sane : ∀ j, (sys.os j).Sane c.slabs) (passed : clock ≤ sys.now 0)
    (early : sys.now 0 < 2 ^ 32 - tailRepairTime) {bufflen : ℤ} (bound : bufflen < 2 ^ 31)
    {found : Option ℕ} (nonneg : found ≠ none → 0 ≤ bufflen)
    (run : c.itemAlloc (DataCache.cString key) bufflen sys = .ok (c', found)) :
    ∃ reset, Ages c c' v last last (sys.now 0) none found.toList reset := by
  rcases inv.cache.of_itemAlloc keySet isKey sane bound nonneg run with
    ⟨v', gone, reset', -, keeps⟩
  rcases inv.cache.skeleton.of_itemAlloc sane inv.cache.few run with
    ⟨c₁, lists, out₁, reset, trims, picked, result⟩
  have old (a : ℕ) (isReset : a ∈ reset) :
      a ∈ v.stored ∧ last a + (tailRepairTime - itemUpdateInterval) < sys.now 0 := by
    rcases picked a isReset with ⟨id, inList, isOld⟩
    have lag := (inv.recent id).lag a inList
    have stamp := (inv.recent id).stamp_le_clock inList
    refine ⟨(inv.cache.mem_stored a).mpr ⟨id, inList⟩, ?_⟩
    simp only [tailRepairTime, itemUpdateInterval] at *
    omega
  have recent := (trims.recent inv.recent).later passed
  have freed (repaired : c'.repaired = reset ++ c.repaired) (others : List ℕ)
      (all : c'.freed = others ++ c.freed) (a : ℕ) (isReset : a ∈ reset) : a ∈ others := by
    have sameReset : reset' = reset :=
      List.append_cancel_right (keeps.repaired.symm.trans repaired)
    have sameGone : gone = others := List.append_cancel_right (keeps.freed.symm.trans all)
    rw [← sameGone]
    exact keeps.resetGone a (sameReset ▸ isReset)
  refine ⟨reset, ?_⟩
  rcases result with ⟨rfl, rfl, inv'⟩ | ⟨a, out', rfl, inv', fills⟩
  · exact
      { recent := ⟨_, _, inv', recent⟩
        counts := fun b _ notReset => (trims.refcount b notReset).le
        new := by simp
        repaired := trims.repaired
        old := old
        freed := freed trims.repaired }
  · have repaired : c'.repaired = reset ++ c.repaired := fills.repaired.trans trims.repaired
    refine ⟨⟨_, _, inv', recent.congr ?_⟩, ?_, ?_, repaired, old, freed repaired⟩
    · intro id b inList
      rcases fills.mem_out id b (inv'.mem_out_of_mem_list inList) with handedOut | rfl
      · exact congrArg HashItem.time (fills.item id b handedOut)
      · exact absurd inList (inv'.notMem_list fills.notLinked id)
    · intro b live notReset
      rcases live with ⟨id, handedOut⟩
      have kept := trims.out_kept id b handedOut (inv.referred b ⟨id, handedOut⟩) notReset
      have same := congrArg HashItem.refcount (fills.item id b kept)
      exact (same.trans (trims.refcount b notReset)).le
    · intro b isNew
      obtain rfl : b = a := by simpa using isNew
      exact fills.refcount

theorem copy (inv : AgingInv keys c v last clock) {inbuffer : ℕ → UInt8} {bufflen : ℤ}
    (run : DataCache.copyIn c it inbuffer bufflen = .ok c') :
    Ages c c' v last last clock none [] [] := by
  simp only [DataCache.copyIn] at run
  split at run
  · cases run
  · cases run
    have kept := inv.cache.skeleton.setMem
    exact
      { recent := ⟨_, _, kept _ rfl rfl rfl rfl, inv.recent.congr fun _ _ _ => rfl⟩
        counts := fun _ _ _ => Nat.le_refl _
        new := by simp
        repaired := rfl
        old := by simp
        freed := by simp }

theorem store (inv : AgingInv keys c v last clock) (keySet : KeySet keys) (live : v.Live it)
    (notStored : it ∉ v.stored) (isKey : c.mem.key it ∈ keys)
    (fits : ∀ j n, (sys.os j).realloc n = true → n ≤ userSpace)
    (room : ∀ a, v.Live a → c.mem.refcount a + 1 < 2 ^ 16) (passed : clock ≤ sys.now 0)
    (passed' : sys.now 0 ≤ sys.now 1) (early : sys.now 1 < 2 ^ 32)
    (run : c.storeItem it sys = .ok c') :
    Ages c c' v last
      (Function.update (Clients.setAt last (c.stored it) (sys.now 0)) it (sys.now 1)) (sys.now 1)
      none [] [] := by
  have isHit (a : ℕ) (found : c.stored it = some a) :
      (Clients.init c).hit (.store it sys) = some a := found
  have matching : ∀ a, c.stored it = some a → ∃ id, c.Listed id a := by
    intro a found
    have inv₀ : CacheInv keys (Clients.init c).cache v := inv.cache
    have looksUp : Clients.LooksUp keys (Clients.init c) v (.store it sys) := ⟨notStored, isKey⟩
    exact Clients.matching_of_cacheInv inv₀ keySet looksUp (isHit a found)
  have noWrap : ∀ a, c.stored it = some a → c.mem.refcount a + 1 < 2 ^ 16 := by
    intro a found
    rcases matching a found with ⟨id, nodes, chain, inChain⟩
    apply room
    apply inv.cache.live_of_stored
    refine (inv.cache.mem_stored a).mpr ⟨id, ?_⟩
    rwa [chain.unique (inv.cache.lists.list id).forward] at inChain
  rcases inv.cache.skeleton.of_storeItem (inv.cache.mem_out_clsid live) (inv.referred it live) fits
      (passed'.trans_lt early) early matching noWrap run with
    ⟨lists, out, inv', -, counted, repaired, -, recent⟩
  refine ⟨⟨_, _, inv', recent _ _ inv.recent passed passed'⟩, ?_, by simp, repaired, by simp,
    by simp⟩
  intro a _ _
  rw [counted]
  exact Nat.le_refl _

theorem unlink (inv : AgingInv keys c v last clock) (live : v.Live it)
    (fits : ∀ n, os.realloc n = true → n ≤ userSpace) (run : c.doItemUnlink it os = .ok c') :
    Ages c c' v last last clock none [] [] := by
  rcases inv.cache.skeleton.of_doItemUnlink (inv.cache.mem_out_clsid live) fits run with
    ⟨lists, out, inv', trims, -⟩
  exact
    { recent := ⟨_, _, inv', trims.recent inv.recent⟩
      counts := fun a _ notReset => (trims.refcount a notReset).le
      new := by simp
      repaired := trims.repaired
      old := by simp
      freed := by simp }

theorem release (inv : AgingInv keys c v last clock) (live : v.Live it)
    (fits : ∀ n, os.realloc n = true → n ≤ userSpace) (run : c.doItemRelease it os = .ok c') :
    Ages c c' v last last clock none [] [] := by
  rcases inv.cache.skeleton.of_doItemRelease (inv.cache.mem_out_clsid live) fits run with
    ⟨out, inv', -, -, -, counted, time, -, repaired⟩
  refine ⟨⟨_, _, inv', inv.recent.congr ?_⟩, ?_, by simp, repaired, by simp, by simp⟩
  · intro id a _
    rw [time]
  · intro a _ _
    rw [counted]
    by_cases same : a = it
    · subst same
      rw [Function.update_self]
      exact Nat.sub_le _ _
    · rw [Function.update_of_ne same]
      exact Nat.le_refl _

theorem maintain (inv : AgingInv keys c v last clock) (run : c.maintenance = .ok c') :
    Ages c c' v last last clock none [] [] := by
  rcases LruLists.maintenance_eq inv.cache with ⟨_, v', run', inv', migrates⟩
  cases run'.symm.trans run
  rcases bind_eq_ok.mp run with ⟨⟨assoc, mem⟩, passed, done⟩
  cases done
  rcases AssociativeArray.mem_of_maintenancePass passed with ⟨hNext, rfl⟩
  have kept := inv.cache.skeleton.setMem { c.mem with hNext } rfl rfl rfl rfl
  exact
    { recent := ⟨_, _, { kept with }, inv.recent.congr fun _ _ _ => rfl⟩
      counts := fun _ _ _ => Nat.le_refl _
      new := by simp
      repaired := rfl
      old := by simp
      freed := by simp }

end AgingInv

/-! ## Every section -/

/-- The thread uses an item that others know. -/
def Phase.Shares (it : ℕ) (phase : Phase) : Prop := phase.item = some it ∧ ¬phase.Owns it

theorem Phase.shares_of_resume {phase phase' : Phase}
    (run : phase.resume c sys = .ok (c', phase')) (shares : phase'.Shares it) :
    phase.Shares it := by
  cases phase with
  | idle =>
      cases run
      cases shares.1
  | storing a inbuffer bufflen =>
      rcases bind_eq_ok.mp run with ⟨_, -, rest⟩
      cases rest
      cases shares.1
      exact absurd rfl shares.2
  | copied a =>
      rcases bind_eq_ok.mp run with ⟨_, -, rest⟩
      cases rest
      cases shares.1
  | getting a =>
      cases run
      cases shares.1
  | deleting a =>
      rcases bind_eq_ok.mp run with ⟨_, -, rest⟩
      cases rest
      cases shares.1
      exact ⟨rfl, id⟩
  | unlinked a =>
      rcases bind_eq_ok.mp run with ⟨_, -, rest⟩
      cases rest
      cases shares.1

/-- A thread shares an item with the section that begins its call, or not at all. -/
theorem Threads.shares_of_step {s s' : Threads} {action : Action} {thread : ℕ}
    (run : s.step action = .ok s') (goesOn : ∀ call sys, action ≠ .call thread call sys)
    (shares : (s'.phase thread).Shares it) : (s.phase thread).Shares it := by
  cases action with
  | call other call sys =>
      have apart : thread ≠ other := by
        rintro rfl
        exact goesOn call sys rfl
      rcases bind_eq_ok.mp run with ⟨⟨_, _⟩, -, next⟩
      cases next
      simpa [enter, apart] using shares
  | resume other sys =>
      rcases bind_eq_ok.mp run with ⟨⟨_, _⟩, resumed, next⟩
      cases next
      by_cases own : thread = other
      · subst own
        simp only [enter, Function.update_self] at shares
        exact Phase.shares_of_resume resumed shares
      · simpa [enter, own] using shares
  | maintain =>
      rcases bind_eq_ok.mp run with ⟨_, -, next⟩
      cases next
      exact shares

/-- What holds in a brisk run: no item has more references than were taken and the one that it came
with, and a thread has begun its call before the last access to the item that it uses. -/
structure AgedInv (keys : Set (List UInt8)) (s : Aged) (v : View) : Prop where
  threads : ThreadsInv keys s.threads v
  recent : Recent s.threads.cache v.lists s.lastAccess s.clock
  counts : ∀ a, v.Live a → s.threads.cache.mem.refcount a ≤ 1 + s.taken a
  begun : ∀ thread, s.begun thread ≤ s.clock
  since : ∀ thread a, (s.threads.phase thread).Shares a → s.begun thread ≤ s.lastAccess a

namespace Aged

variable {s s' : Aged} {action : Action}

theorem Proceeds.clock_le (proceeds : s.Proceeds keys action s') : s.clock ≤ s'.clock := by
  rw [proceeds.records]
  exact Threads.clock_le_of_inOrder proceeds.inOrder

/-- An access is not earlier than the last reading of the clock. -/
theorem Proceeds.access (proceeds : s.Proceeds keys action s') (a : ℕ) :
    s'.lastAccess a = s.lastAccess a ∨ s.clock ≤ s'.lastAccess a := by
  have inOrder := proceeds.inOrder
  rw [proceeds.records]
  simp only [after]
  have set (it : Option ℕ) {now : ℕ} (passed : s.clock ≤ now) :
      Clients.setAt s.lastAccess it now a = s.lastAccess a ∨
        s.clock ≤ Clients.setAt s.lastAccess it now a := by
    cases it with
    | none => exact Or.inl rfl
    | some b =>
        simp only [Clients.setAt, Option.elim_some]
        by_cases same : a = b
        · subst same
          rw [Function.update_self]
          exact Or.inr passed
        · rw [Function.update_of_ne same]
          exact Or.inl rfl
  cases action with
  | call thread call sys =>
      simp only [Threads.readings, List.pairwise_cons, List.mem_singleton, forall_eq] at inOrder
      exact set _ inOrder.1
  | resume thread sys =>
      simp only [Threads.accesses]
      cases current : s.threads.phase thread with
      | copied it =>
          simp only [Threads.readings, current, List.pairwise_cons, List.mem_cons,
            List.not_mem_nil, or_false, forall_eq_or_imp, forall_eq] at inOrder
          by_cases same : a = it
          · subst same
            simp only [Function.update_self]
            exact Or.inr inOrder.1.2
          · simp only [Function.update_of_ne same]
            exact set _ inOrder.1.1
      | idle | storing | getting | deleting | unlinked => exact Or.inl rfl
  | maintain => exact Or.inl rfl

/-- A section takes at most one reference, to an item that is not new. -/
theorem Proceeds.taken (proceeds : s.Proceeds keys action s') {new : List ℕ}
    (obtained : s'.threads.obtained = new ++ s.threads.obtained) (a : ℕ) :
    (a ∈ new ∧ s'.taken a = 0) ∨
      (a ∉ new ∧ s'.taken a = s.taken a + if s.threads.takes action = some a then 1 else 0) := by
  have run := proceeds.run
  rw [proceeds.records]
  generalize s'.threads = t at *
  cases action with
  | call thread call sys =>
      rcases bind_eq_ok.mp run with ⟨⟨c', phase⟩, -, next⟩
      cases next
      obtain rfl : phase.allocated.toList = new := List.append_cancel_right obtained
      simp only [after, Threads.enter, Function.update_self]
      have counted : ((s.threads.takes (.call thread call sys)).elim s.taken fun b =>
          Function.update s.taken b (s.taken b + 1)) a =
            s.taken a + if s.threads.takes (.call thread call sys) = some a then 1 else 0 := by
        cases s.threads.takes (.call thread call sys) with
        | none => rfl
        | some b =>
            by_cases same : a = b
            · simp [same]
            · simp [same, Ne.symm same]
      cases phase.allocated with
      | none => exact Or.inr ⟨by simp, counted⟩
      | some b =>
          by_cases same : a = b
          · exact Or.inl ⟨by simp [same], by simp [Clients.setAt, same]⟩
          · refine Or.inr ⟨by simpa using same, ?_⟩
            simpa [Clients.setAt, same] using counted
  | resume thread sys =>
      rcases bind_eq_ok.mp run with ⟨⟨c', phase⟩, -, next⟩
      cases next
      obtain rfl : [] = new := List.append_cancel_right obtained
      exact Or.inr ⟨List.not_mem_nil, rfl⟩
  | maintain =>
      rcases bind_eq_ok.mp run with ⟨c', -, next⟩
      cases next
      obtain rfl : [] = new := List.append_cancel_right obtained
      exact Or.inr ⟨List.not_mem_nil, rfl⟩

theorem Proceeds.exists_obtained (proceeds : s.Proceeds keys action s') :
    ∃ new, s'.threads.obtained = new ++ s.threads.obtained := by
  have run := proceeds.run
  generalize s'.threads = t at run
  cases action with
  | call thread call sys =>
      rcases bind_eq_ok.mp run with ⟨⟨c', phase⟩, -, next⟩
      cases next
      exact ⟨_, rfl⟩
  | resume thread sys =>
      rcases bind_eq_ok.mp run with ⟨⟨c', phase⟩, -, next⟩
      cases next
      exact ⟨[], rfl⟩
  | maintain =>
      rcases bind_eq_ok.mp run with ⟨c', -, next⟩
      cases next
      exact ⟨[], rfl⟩

theorem Proceeds.taken_le (proceeds : s.Proceeds keys action s') (a : ℕ) :
    s'.taken a ≤ s.taken a + action.references := by
  rcases proceeds.exists_obtained with ⟨new, obtained⟩
  rcases proceeds.taken obtained a with ⟨-, none⟩ | ⟨-, count⟩
  · rw [none]
    exact Nat.zero_le _
  · rw [count]
    split
    case isTrue takes => rw [Threads.references_of_takes takes]
    case isFalse => exact Nat.le_add_right _ _

/-- A section that begins the call of a thread records its time, and no other does. -/
theorem Proceeds.begun (proceeds : s.Proceeds keys action s') (thread : ℕ) :
    (∃ call sys, action = .call thread call sys ∧ s'.begun thread = s'.clock) ∨
      (∀ call sys, action ≠ .call thread call sys) ∧ s'.begun thread = s.begun thread := by
  rw [proceeds.records]
  cases action with
  | call other call sys =>
      by_cases own : thread = other
      · subst own
        exact Or.inl ⟨call, sys, rfl, Function.update_self _ _ _⟩
      · refine Or.inr ⟨?_, Function.update_of_ne own _ _⟩
        intro call' sys' same
        cases same
        exact own rfl
  | resume other sys => exact Or.inr ⟨by simp, rfl⟩
  | maintain => exact Or.inr ⟨by simp, rfl⟩

end Aged

namespace AgedInv

variable {s s' : Aged} {action : Action}

theorem cache (inv : AgedInv keys s v) :
    AgingInv keys s.threads.cache v s.lastAccess s.clock where
  cache := inv.threads.cache
  recent := inv.recent
  referred _ live := (inv.threads.refcount_pos live).ne'

theorem room (inv : AgedInv keys s v) (brisk : s.Brisk) {a : ℕ} (live : v.Live a) :
    s.threads.cache.mem.refcount a + 1 < 2 ^ 16 := by
  have count := inv.counts a live
  have few := brisk.taken a
  omega

theorem countsOn (inv : AgedInv keys s v) (keySet : KeySet keys) (brisk : s.Brisk)
    (isKey : key ∈ keys) : s.threads.cache.CountsOn key := by
  intro it found
  have cache := inv.threads.cache
  rcases cache.table.assocFind_key keySet cache.hashes cache.keys cache.distinct isKey with
    ⟨found', lookup, sound⟩
  cases lookup.symm.trans found
  exact inv.room brisk (cache.live_of_stored ((sound it).mp rfl).1)

theorem inTable_of_lookup (inv : AgedInv keys s v) (keySet : KeySet keys) (isKey : key ∈ keys)
    (found : s.threads.cache.lookup key (hashKey key) = some it) :
    s.threads.cache.InTable it := by
  have cache := inv.threads.cache
  rcases cache.table.assocFind_key keySet cache.hashes cache.keys cache.distinct isKey with
    ⟨found', lookup, sound⟩
  simp only [LruLists.lookup, lookup] at found
  exact cache.inTable_iff.mpr ((sound it).mp found).1

theorem noWrap (inv : AgedInv keys s v) (keySet : KeySet keys) (brisk : s.Brisk)
    (regular : s.threads.Regular keys action) : s.threads.NoWrap action := by
  cases action with
  | call thread call sys =>
      cases call with
      | get key => exact inv.countsOn keySet brisk regular.valid
      | store key inbuffer bufflen => trivial
      | delete key => exact inv.countsOn keySet brisk regular.valid
  | resume thread sys =>
      intro it copied
      have held := inv.threads.held thread
      rw [copied] at held
      exact inv.countsOn keySet brisk held.2.2
  | maintain => trivial

/-- What a section does to the cache. Only the first section of a call repairs anything. -/
theorem ages (inv : AgedInv keys s v) (keySet : KeySet keys)
    (step : s.BriskStep keys action s') :
    ∃ new reset, s'.threads.obtained = new ++ s.threads.obtained ∧
      Ages s.threads.cache s'.threads.cache v s.lastAccess s'.lastAccess s'.clock
        (s.threads.takes action) new reset ∧
      ((∃ thread call sys, action = .call thread call sys) ∨ reset = []) := by
  have inOrder := step.inOrder
  have bound := step.after.bound
  have run := step.run
  have positive := step.positive
  rw [step.records] at bound ⊢
  simp only [Aged.after] at bound ⊢
  generalize s'.threads = t at *
  cases action with
  | call thread call sys =>
      rcases step.regular with ⟨-, valid, sane, -⟩
      simp only [Threads.readings, List.pairwise_cons, List.mem_singleton, forall_eq,
        List.getLastD_cons, List.getLastD_nil] at inOrder bound ⊢
      have early : sys.now 0 < 2 ^ 32 := bound.trans_le (Nat.sub_le _ _)
      rcases bind_eq_ok.mp run with ⟨⟨_, _⟩, started, next⟩
      cases call with
      | get key =>
          rcases bind_eq_ok.mp started with ⟨⟨c', found⟩, got, rest⟩
          cases rest
          cases next
          rcases inv.cache.get keySet valid inOrder.1 early got with ⟨isHit, ages⟩
          refine ⟨[], [], ?_, ?_, Or.inr rfl⟩
          · cases found <;> rfl
          · simp only [Threads.accesses, Threads.takes, ← isHit]
            exact ages
      | store key inbuffer bufflen =>
          rcases bind_eq_ok.mp started with ⟨⟨c', found⟩, obtained, rest⟩
          cases rest
          cases next
          have nonneg (isSome : found ≠ none) : 0 ≤ bufflen := by
            rcases Option.ne_none_iff_exists'.mp isSome with ⟨it, rfl⟩
            refine positive.resolve_right ?_
            simp [Phase.allocated]
          rcases inv.cache.alloc keySet valid.1 sane inOrder.1 bound valid.2 nonneg obtained with
            ⟨reset, ages⟩
          refine ⟨found.toList, reset, ?_, ages, Or.inl ⟨_, _, _, rfl⟩⟩
          cases found <;> rfl
      | delete key =>
          rcases bind_eq_ok.mp started with ⟨⟨c', found⟩, got, rest⟩
          cases rest
          cases next
          rcases inv.cache.get keySet valid inOrder.1 early got with ⟨isHit, ages⟩
          refine ⟨[], [], ?_, ?_, Or.inr rfl⟩
          · cases found <;> rfl
          · simp only [Threads.accesses, Threads.takes, ← isHit]
            exact ages
  | resume thread sys =>
      rcases step.regular with ⟨busy, -, sane, -⟩
      rcases bind_eq_ok.mp run with ⟨⟨_, _⟩, resumed, next⟩
      have held := inv.threads.held thread
      cases current : s.threads.phase thread with
      | idle => exact absurd current busy
      | storing it inbuffer bufflen =>
          rw [current] at resumed
          rcases bind_eq_ok.mp resumed with ⟨c', copied, rest⟩
          cases rest
          cases next
          simp only [Threads.readings, Threads.accesses, current]
          exact ⟨[], [], rfl, inv.cache.copy copied, Or.inr rfl⟩
      | copied it =>
          rw [current] at resumed held
          rcases held with ⟨live, notStored, isKey⟩
          rcases bind_eq_ok.mp resumed with ⟨c', stored, rest⟩
          cases rest
          cases next
          simp only [Threads.readings, Threads.accesses, current, List.pairwise_cons,
            List.mem_cons, List.not_mem_nil, or_false, forall_eq_or_imp, forall_eq,
            List.getLastD_cons, List.getLastD_nil] at inOrder bound ⊢
          have ages := inv.cache.store keySet live notStored isKey (fun j => (sane j).fits)
            (fun a => inv.room step.before) inOrder.1.1 inOrder.2.1
            (bound.trans_le (Nat.sub_le _ _)) stored
          exact ⟨[], [], rfl, ages, Or.inr rfl⟩
      | getting it =>
          rw [current] at resumed
          cases resumed
          cases next
          simp only [Threads.readings, Threads.accesses, current]
          exact ⟨[], [], rfl, inv.cache.passes (Nat.le_refl _), Or.inr rfl⟩
      | deleting it =>
          rw [current] at resumed held
          rcases bind_eq_ok.mp resumed with ⟨c', isUnlinked, rest⟩
          cases rest
          cases next
          simp only [Threads.readings, Threads.accesses, current]
          exact ⟨[], [], rfl, inv.cache.unlink held (sane 0).fits isUnlinked, Or.inr rfl⟩
      | unlinked it =>
          rw [current] at resumed held
          rcases bind_eq_ok.mp resumed with ⟨c', released, rest⟩
          cases rest
          cases next
          simp only [Threads.readings, Threads.accesses, current]
          exact ⟨[], [], rfl, inv.cache.release held (sane 0).fits released, Or.inr rfl⟩
  | maintain =>
      rcases bind_eq_ok.mp run with ⟨c', pass, next⟩
      cases next
      exact ⟨[], [], rfl, inv.cache.maintain pass, Or.inr rfl⟩

/-- A thread that begins a call and shares an item has just found it. -/
theorem access_of_call (inv : AgedInv keys s v) (keySet : KeySet keys) {thread : ℕ} {call : Call}
    (step : s.BriskStep keys (.call thread call sys) s') {a : ℕ}
    (shares : (s'.threads.phase thread).Shares a) : s'.lastAccess a = s'.clock := by
  have inOrder := step.inOrder
  have bound := step.after.bound
  have run := step.run
  rw [step.records] at bound ⊢
  simp only [Aged.after, Threads.accesses] at bound ⊢
  generalize s'.threads = t at *
  simp only [Threads.readings, List.pairwise_cons, List.mem_singleton, forall_eq,
    List.getLastD_cons, List.getLastD_nil] at inOrder bound ⊢
  have early : sys.now 0 < 2 ^ 32 := bound.trans_le (Nat.sub_le _ _)
  rcases bind_eq_ok.mp run with ⟨⟨_, _⟩, started, next⟩
  have find {key : List UInt8} (isKey : key ∈ keys) {c' : LruLists}
      (got : s.threads.cache.itemGet (DataCache.cString key) sys = .ok (c', some a)) :
      Clients.setAt s.lastAccess (s.threads.cache.lookup (DataCache.cString key)
        (hashKey (DataCache.cString key))) (sys.now 0) a = sys.now 0 := by
    rw [← (inv.cache.get keySet isKey inOrder.1 early got).1]
    exact Function.update_self _ _ _
  cases call with
  | get key =>
      rcases bind_eq_ok.mp started with ⟨⟨c', found⟩, got, rest⟩
      cases rest
      cases next
      simp only [Threads.enter, Function.update_self] at shares
      cases found with
      | none => cases shares.1
      | some b =>
          cases shares.1
          exact find step.regular.valid got
  | store key inbuffer bufflen =>
      rcases bind_eq_ok.mp started with ⟨⟨c', found⟩, obtained, rest⟩
      cases rest
      cases next
      simp only [Threads.enter, Function.update_self] at shares
      cases found with
      | none => cases shares.1
      | some b =>
          cases shares.1
          exact absurd rfl shares.2
  | delete key =>
      rcases bind_eq_ok.mp started with ⟨⟨c', found⟩, got, rest⟩
      cases rest
      cases next
      simp only [Threads.enter, Function.update_self] at shares
      cases found with
      | none => cases shares.1
      | some b =>
          cases shares.1
          exact find step.regular.valid got

/-- The item that a thread shares was accessed since its call began. -/
theorem since_of_step (inv : AgedInv keys s v) (keySet : KeySet keys)
    (step : s.BriskStep keys action s') (thread a : ℕ)
    (shares : (s'.threads.phase thread).Shares a) : s'.begun thread ≤ s'.lastAccess a := by
  rcases step.begun thread with ⟨call, sys, rfl, now⟩ | ⟨goesOn, same⟩
  · rw [now, inv.access_of_call keySet step shares]
  · have before := Threads.shares_of_step step.run goesOn shares
    rw [same]
    rcases step.access a with unused | later
    · rw [unused]
      exact inv.since thread a before
    · exact (inv.begun thread).trans later

/-- What the tail repair picks is old, and no thread has been in its call for that long. -/
theorem spares (inv : AgedInv keys s v) {thread : ℕ} {call : Call}
    (step : s.BriskStep keys (.call thread call sys) s') {a : ℕ} (isStored : a ∈ v.stored)
    (old : s.lastAccess a + (tailRepairTime - itemUpdateInterval) < s'.clock) (other : ℕ) :
    (s.threads.phase other).item ≠ some a := by
  intro uses
  have apart : other ≠ thread := by
    rintro rfl
    have idle : s.threads.phase other = .idle := step.regular.enabled
    rw [idle] at uses
    cases uses
  have phase : s'.threads.phase other = s.threads.phase other := by
    rcases bind_eq_ok.mp step.run with ⟨⟨_, _⟩, -, next⟩
    rw [← Except.ok.inj next]
    exact Function.update_of_ne apart _ _
  have busy : s'.threads.phase other ≠ .idle := by
    rw [phase]
    intro idle
    rw [idle] at uses
    cases uses
  have since := inv.since other a ⟨uses, inv.threads.not_owns_of_stored isStored other⟩
  have soon := step.after.calls other busy
  rcases step.begun other with ⟨_, _, isCall, -⟩ | ⟨-, same⟩
  · cases isCall
    exact apart rfl
  · rw [same] at soon
    omega

/-- A section of a brisk run wraps no counter, and spares the items in use. -/
theorem step (inv : AgedInv keys s v) (keySet : KeySet keys)
    (step : s.BriskStep keys action s') :
    Threads.Guarded keys s.threads s'.threads action ∧
      ∃ v' gone reset new, AgedInv keys s' v' ∧
        Advances s.threads s'.threads v v' gone reset new ∧
        ∀ a ∈ reset, (∀ thread, (s.threads.phase thread).item ≠ some a) ∧
          s.lastAccess a + (tailRepairTime - itemUpdateInterval) < s'.clock := by
  have guarded : Threads.Guarded keys s.threads s'.threads action :=
    ⟨step.regular, inv.noWrap keySet step.before step.regular, step.run, step.positive⟩
  rcases inv.ages keySet step with ⟨new, reset, obtained, ages, isCall⟩
  have unused (a : ℕ) (isReset : a ∈ reset) (thread : ℕ) :
      (s.threads.phase thread).item ≠ some a := by
    rcases ages.old a isReset with ⟨isStored, old⟩
    rcases isCall with ⟨caller, call, sys, rfl⟩ | rfl
    · exact inv.spares step isStored old thread
    · cases isReset
  rcases inv.threads.advance keySet guarded ⟨reset, ages.repaired, unused⟩ with
    ⟨v', gone, reset', new', inv', advances⟩
  obtain rfl : new' = new := List.append_cancel_right (advances.obtained.symm.trans obtained)
  obtain rfl : reset' = reset :=
    List.append_cancel_right (advances.repaired.symm.trans ages.repaired)
  rcases ages.recent with ⟨lists, out, skeleton, recent⟩
  obtain rfl : lists = v'.lists := skeleton.lists_eq inv'.cache.skeleton
  refine ⟨guarded, v', gone, reset', new', ⟨inv', recent, ?_, ?_, inv.since_of_step keySet step⟩,
    advances, fun a isReset => ⟨unused a isReset, (ages.old a isReset).2⟩⟩
  · intro a live
    rcases step.taken obtained a with ⟨isNew, none⟩ | ⟨notNew, count⟩
    · rw [ages.new a isNew, none]
    · rcases ((advances.live a).mp live).resolve_right notNew with ⟨wasLive, notGone⟩
      have notReset : a ∉ reset' := fun isReset =>
        notGone (ages.freed gone advances.freed a isReset)
      have before := inv.counts a wasLive
      have after := ages.counts a wasLive notReset
      omega
  · intro thread
    rcases step.begun thread with ⟨_, _, -, now⟩ | ⟨-, same⟩
    · rw [now]
    · rw [same]
      exact (inv.begun thread).trans step.clock_le

end AgedInv

/-! ## Runs -/

namespace Aged

variable {s s' : Aged} {action : Action} {start : ℕ}

theorem inv_init (keys : Set (List UInt8)) (start : ℕ) {mem : Mem} {cacheSize : ℕ} {os : Os}
    {initialMalloc : Option ℕ}
    (created : DataCache.create .zero .zero mem cacheSize os initialMalloc = .ok c) :
    AgedInv keys (init c start) View.empty where
  threads := Threads.inv_init keys created
  recent _ := .nil
  counts a live := by simp [View.Live, View.empty] at live
  begun _ := Nat.le_refl _
  since _ _ _ := Nat.le_refl _

theorem inv_of_run (keySet : KeySet keys) {mem : Mem} {cacheSize : ℕ} {os : Os}
    {initialMalloc : Option ℕ}
    (created : DataCache.create .zero .zero mem cacheSize os initialMalloc = .ok c)
    (run : ReflTransGen (Step keys) (init c start) s) : ∃ v, AgedInv keys s v := by
  induction run with
  | refl => exact ⟨_, inv_init keys start created⟩
  | tail _ step ih =>
      rcases ih with ⟨v, inv⟩
      rcases step with ⟨action, brisk⟩
      rcases inv.step keySet brisk with ⟨-, v', gone, reset, new, inv', -⟩
      exact ⟨v', inv'⟩

/-! ## Runs that can be computed -/

/-- The state after some sections, if each may come next, and comes in the first hours. -/
def exec (s : Aged) : List Action → Option Aged
  | [] => some s
  | action :: rest =>
      if s.threads.Enabled action ∧ s.threads.cache.assoc.hashItems < 2 ^ 30 ∧
          (s.clock :: s.threads.readings action).Pairwise (· ≤ ·) ∧
          (s.threads.readings action).getLastD s.clock ≤ tailRepairTime - itemUpdateInterval then
        (s.threads.step action).toOption.bind fun threads => exec (s.after action threads) rest
      else none

/-- The run is in its first hours, and stays brisk for so many more sections. -/
structure Early (s : Aged) (more : ℕ) : Prop where
  taken : ∀ it, s.taken it + more < 2 ^ 16 - 2
  clock : s.clock ≤ tailRepairTime - itemUpdateInterval

theorem Early.brisk {more : ℕ} (early : s.Early more) : s.Brisk where
  taken it := (Nat.le_add_right _ _).trans_lt (early.taken it)
  calls _ _ := early.clock.trans (Nat.le_add_left _ _)
  bound := early.clock.trans_lt (by decide)

theorem early_init {more : ℕ} (few : more < 2 ^ 16 - 2) (cache : LruLists) :
    (init cache 0).Early more where
  taken _ := by simpa [init] using few
  clock := Nat.zero_le _

theorem briskStep_of_exec {more : ℕ} {rest : List Action} (early : s.Early (more + 1))
    (valid : action.Valid keys) (positive : action.Positive)
    (sane : action.Sane s.threads.cache.slabs) (run : s.exec (action :: rest) = some s') :
    ∃ s₁, BriskStep keys s action s₁ ∧ s₁.Early more ∧ s₁.exec rest = some s' := by
  simp only [exec] at run
  split at run
  case isFalse => cases run
  case isTrue checked =>
    rcases checked with ⟨enabled, few, inOrder, young⟩
    rcases Option.bind_eq_some_iff.mp run with ⟨threads, ran, others⟩
    have proceeds : s.Proceeds keys action (s.after action threads) :=
      { regular := ⟨enabled, valid, sane, few⟩
        run := toOption_eq_some.mp ran
        positive := Or.inl positive
        inOrder := inOrder
        records := rfl }
    have early' : (s.after action threads).Early more := by
      refine ⟨fun a => ?_, young⟩
      have before := early.taken a
      have count := proceeds.taken_le a
      have one := action.references_le
      omega
    exact ⟨_, { proceeds with before := early.brisk, after := early'.brisk }, early', others⟩

/-- Sections of the first hours are brisk, if they are not very many. -/
theorem exec_induction {motive : ℕ → Aged → Prop}
    (next : ∀ n s s' action, BriskStep keys s action s' → motive n s → motive (n + 1) s')
    {more n : ℕ} {actions : List Action} (early : s.Early (more + actions.length))
    (contract : ∀ action ∈ actions, action.Valid keys ∧ action.Positive ∧
      ∀ slabs, action.Sane slabs)
    (start : motive n s) (run : s.exec actions = some s') :
    motive (n + actions.length) s' ∧ s'.Early more := by
  induction actions generalizing s n with
  | nil =>
      cases run
      exact ⟨start, early⟩
  | cons action rest ih =>
      rcases contract action List.mem_cons_self with ⟨valid, positive, sane⟩
      rcases briskStep_of_exec early valid positive (sane _) run with
        ⟨s₁, first, early₁, others⟩
      have later := ih early₁
        (fun later isLater => contract later (List.mem_cons_of_mem _ isLater))
        (next n s s₁ action first start) others
      rwa [Nat.add_right_comm] at later

theorem run_of_exec {more : ℕ} {actions : List Action} (early : s.Early (more + actions.length))
    (contract : ∀ action ∈ actions, action.Valid keys ∧ action.Positive ∧
      ∀ slabs, action.Sane slabs)
    (run : s.exec actions = some s') : ReflTransGen (Step keys) s s' ∧ s'.Early more :=
  exec_induction (motive := fun _ => ReflTransGen (Step keys) s) (n := 0)
    (fun _ _ _ action brisk before => before.tail ⟨action, brisk⟩) early contract .refl run

/-- What brisk sections keep holds after the run in which two threads share the cache. -/
theorem sharing_induction {motive : ℕ → Aged → Prop}
    (next : ∀ n s s' action, BriskStep Threads.oneByteKeys s action s' → motive n s →
      motive (n + 1) s')
    (start : motive 0 (init (DataCache.new .zero 64 0) 0)) :
    ∃ s, motive 14 s ∧ s.clock = 0 ∧ s.threads.obtained = [4288, 4192, 4096] := by
  have facts : ((init (DataCache.new .zero 64 0) 0).exec
      (Threads.firstStore :: Threads.sharing)).map (fun s => (s.clock, s.threads.obtained)) =
        some (0, [4288, 4192, 4096]) := by
    decide +kernel
  rcases Option.map_eq_some_iff.mp facts with ⟨s, run, all⟩
  rcases Prod.mk.inj all with ⟨clock, obtained⟩
  have early : (init (DataCache.new .zero 64 0) 0).Early (13 + 1) := early_init (by decide) _
  have isK : [107] ∈ Threads.oneByteKeys := ⟨rfl, by decide⟩
  have valid : Threads.firstStore.Valid Threads.oneByteKeys := ⟨isK, by decide⟩
  have positive : Threads.firstStore.Positive := show (0 : ℤ) ≤ 1 by decide
  have sane : Threads.firstStore.Sane (DataCache.newSlabs 64 0) :=
    DataCache.sane_onePage (DataCache.noSlabs_new 64 0) (by decide) 0
  rcases briskStep_of_exec early valid positive sane run with ⟨s₁, first, early₁, others⟩
  have early₁ : s₁.Early (0 + Threads.sharing.length) := early₁
  rcases exec_induction next early₁ Threads.contract_sharing (next 0 _ s₁ _ first start) others with
    ⟨reached, -⟩
  exact ⟨s, reached, clock, obtained⟩

/-! ## Brisk runs are linearizable -/

/-- In a brisk run no reference counter wraps and every tail repair spares the items in use, so that
the calls return as from a map, in an order that respects real time. -/
theorem linearizable_of_brisk (keySet : KeySet keys) {mem : Mem} {cacheSize : ℕ} {os : Os}
    {initialMalloc : Option ℕ}
    (created : DataCache.create .zero .zero mem cacheSize os initialMalloc = .ok c)
    {history : List CacheEvent}
    (trace : Trace (HistoryStep keys) (init c start) history s) :
    Trace (Threads.HistoryStep keys) (.init c) history s.threads ∧
      Linearizable mapSpec (fun _ => none) history := by
  have guarded : (∃ v, AgedInv keys s v) ∧
      Trace (Threads.HistoryStep keys) (.init c) history s.threads := by
    induction trace with
    | nil => exact ⟨⟨_, inv_init keys start created⟩, .nil⟩
    | snoc before step ih =>
        rcases step with ⟨action, brisk, rfl⟩
        rcases ih with ⟨⟨v, inv⟩, earlier⟩
        rcases inv.step keySet brisk with ⟨guarded, v', gone, reset, new, inv', advances, old⟩
        have spares : Threads.SparesUsed _ _ :=
          ⟨reset, advances.repaired, fun a isReset => (old a isReset).1⟩
        exact ⟨⟨v', inv'⟩, earlier.snoc ⟨action, guarded, spares, rfl⟩⟩
  refine ⟨guarded.2, ?_⟩
  exact (linearizable_of_simulation (Threads.represents_init keys created)
    (fun _ _ _ _ represents step => Threads.represents_step keySet represents step) guarded.2).1

/-- Two threads have stored `k`, replaced it and deleted it, and have stored `l`. -/
theorem linearizable_of_brisk_sharing : ∃ (history : List CacheEvent) (s : Aged),
    s.threads.obtained = [4288, 4192, 4096] ∧
      Trace (HistoryStep Threads.oneByteKeys) (init (DataCache.new .zero 64 0) 0) history s ∧
        Trace (Threads.HistoryStep Threads.oneByteKeys) (.init (DataCache.new .zero 64 0)) history
          s.threads ∧ Linearizable mapSpec (fun _ => none) history := by
  have created := DataCache.create_eq .zero 64 ((DataCache.onePage 0 0 0).os 0) none
  have next (n : ℕ) (s s' : Aged) (action : Action)
      (brisk : BriskStep Threads.oneByteKeys s action s')
      (before : ∃ history, Trace (HistoryStep Threads.oneByteKeys)
        (init (DataCache.new .zero 64 0) 0) history s) :
      ∃ history, Trace (HistoryStep Threads.oneByteKeys)
        (init (DataCache.new .zero 64 0) 0) history s' := by
    rcases before with ⟨history, trace⟩
    exact ⟨_, trace.snoc ⟨action, brisk, rfl⟩⟩
  rcases sharing_induction next ⟨[], .nil⟩ with ⟨s, ⟨history, trace⟩, -, obtained⟩
  exact ⟨history, s, obtained, trace,
    linearizable_of_brisk Threads.keySet_oneByteKeys created trace⟩

end Aged

end ChaosCache
