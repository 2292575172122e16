import ChaosCache.Library.Linearizability
import ChaosCache.Threads.Consistency

/-!
# Concurrent calls act as if made one after the other

A call acts when its section works on the table: `getItem` and `deleteItem` with the lookup if it
fails, `getItem` with the lookup that hits, `storeItem` with the section that links its item.
`deleteItem` acts with its own unlinking of the item, or just before another thread unlinks it.

The bindings of the items that an allocation evicts are lost at that moment, as if by a call of
its own that no thread makes. A `storeItem` that obtains no item returns 0 like any other. So the
history marks it as refused where it is made, in the section that decides this.
-/

namespace ChaosCache

open Linearizability

abbrev CacheOp := MapOp (List UInt8) (List UInt8)
abbrev CacheRet := MapRet (List UInt8)
abbrev CacheEvent := Linearizability.Event (Option ℕ) CacheOp CacheRet
abbrev CacheMap := List UInt8 → Option (List UInt8)

/-- The operation that a call stands for whose first section has led to a phase. A store that has
obtained no item is refused. -/
def Call.operation (phase : Phase) : Call → CacheOp
  | get key => .get key
  | store key inbuffer bufflen =>
      match phase with
      | .idle => .refuse key (readBytes inbuffer bufflen.toNat)
      | _ => .store key (readBytes inbuffer bufflen.toNat)
  | delete key => .delete key

/-- What a call returns that has found no item or obtained none: `getItem` returns -1, and the
others return 0. -/
def Call.missed : Call → CacheRet
  | get _ => .value none
  | store _ _ _ => .stored true
  | delete _ => .deleted

/-- How far the call of a thread is. A `deleteItem` has acted once its item is not linked. -/
def Phase.status (mem : Mem) : Phase → Status CacheOp CacheRet
  | idle => .idle
  | storing it inbuffer bufflen => .pending (.store (mem.key it) (readBytes inbuffer bufflen.toNat))
  | copied it => .pending (.store (mem.key it) (mem.data it))
  | getting it => .done (.value (some (mem.data it)))
  | deleting it => if mem.itemLinked it then .pending (.delete (mem.key it)) else .done .deleted
  | unlinked _ => .done .deleted

namespace Threads

/-! ## Histories -/

/-- The keys of the items that were in the table before a step and are not after it. -/
def lostKeys (s s' : Threads) : Set (List UInt8) :=
  {key | ∃ a, s.cache.InTable a ∧ ¬s'.cache.InTable a ∧ s.cache.mem.key a = key}

/-- The return of a call that its first section ends. -/
def missed (s' : Threads) (thread : ℕ) (call : Call) : List CacheEvent :=
  match s'.phase thread with
  | .idle => [.respond (some thread) call.missed]
  | _ => []

/-- The calls that are made and that return in a step. `getItem` returns the bytes that it has
copied at the start of the step. Every store returns 0. -/
def events (s s' : Threads) : Action → List CacheEvent
  | .call thread (.store key inbuffer bufflen) _ =>
      [.invoke (some thread) ((Call.store key inbuffer bufflen).operation (s'.phase thread)),
        .invoke none (.lose (s.lostKeys s')), .respond none .lost] ++
          s'.missed thread (.store key inbuffer bufflen)
  | .call thread call _ =>
      .invoke (some thread) (call.operation (s'.phase thread)) :: s'.missed thread call
  | .resume thread _ =>
      match s.phase thread with
      | .getting it => [.respond (some thread) (.value (some (s.cache.mem.data it)))]
      | .copied _ => [.respond (some thread) (.stored true)]
      | .unlinked _ => [.respond (some thread) .deleted]
      | _ => []
  | .maintain => []

/-- A step of a run without wrapped counters whose tail repairs spare the items in use, with its
events. -/
def HistoryStep (keys : Set (List UInt8)) (s : Threads) (events : List CacheEvent)
    (s' : Threads) : Prop :=
  ∃ action, Guarded keys s s' action ∧ SparesUsed s s' ∧ events = s.events s' action

end Threads

variable {keys : Set (List UInt8)} {c c' : LruLists} {v v' v'' : View} {s s' : Threads}
  {stored stored' : Finset ℕ} {map : CacheMap} {phase : Phase} {it thread : ℕ}
  {key : List UInt8} {sys : System}

/-! ## The map that the cache holds -/

theorem CacheInv.stored_unique (inv : CacheInv keys c v) (inv' : CacheInv keys c v') :
    v.stored = v'.stored := by
  ext a
  rw [← inv.inTable_iff, inv'.inTable_iff]

/-- The stored items are the bindings of the map. -/
def HoldsMap (c : LruLists) (stored : Finset ℕ) (map : CacheMap) : Prop :=
  ∀ key value, map key = some value ↔ ∃ it ∈ stored, c.mem.key it = key ∧ c.mem.data it = value

namespace HoldsMap

theorem of_stored (holds : HoldsMap c stored map) (isStored : it ∈ stored) :
    map (c.mem.key it) = some (c.mem.data it) :=
  (holds _ _).mpr ⟨it, isStored, rfl, rfl⟩

theorem eq_none (holds : HoldsMap c stored map) (missed : ∀ a ∈ stored, c.mem.key a ≠ key) :
    map key = none := by
  refine Option.eq_none_iff_forall_ne_some.mpr fun value bound => ?_
  rcases (holds key value).mp bound with ⟨a, isStored, sameKey, -⟩
  exact missed a isStored sameKey

theorem congr (holds : HoldsMap c stored map) (same : stored' = stored)
    (kept : ∀ a ∈ stored, c'.mem.key a = c.mem.key a ∧ c'.mem.data a = c.mem.data a) :
    HoldsMap c' stored' map := by
  subst same
  intro key value
  rw [holds]
  constructor
  · rintro ⟨a, isStored, sameKey, sameData⟩
    exact ⟨a, isStored, (kept a isStored).1.trans sameKey, (kept a isStored).2.trans sameData⟩
  · rintro ⟨a, isStored, sameKey, sameData⟩
    exact ⟨a, isStored, (kept a isStored).1.symm.trans sameKey,
      (kept a isStored).2.symm.trans sameData⟩

theorem of_frame (holds : HoldsMap c stored map) (frame : Frame c c') (same : stored' = stored) :
    HoldsMap c' stored' map :=
  holds.congr same fun a _ => ⟨frame.key a, frame.data a⟩

/-- Without some of the items, their keys are unbound. -/
theorem without (holds : HoldsMap c stored map)
    (distinct : ∀ a ∈ stored, ∀ b ∈ stored, c.mem.key a = c.mem.key b → a = b)
    (fewer : stored' ⊆ stored)
    (kept : ∀ a ∈ stored', c'.mem.key a = c.mem.key a ∧ c'.mem.data a = c.mem.data a)
    {map' : CacheMap}
    (unbound : ∀ a ∈ stored, a ∉ stored' → map' (c.mem.key a) = none)
    (others : ∀ key, (∀ a ∈ stored, a ∉ stored' → c.mem.key a ≠ key) → map' key = map key) :
    HoldsMap c' stored' map' := by
  intro key value
  by_cases gone : ∃ a ∈ stored, a ∉ stored' ∧ c.mem.key a = key
  · rcases gone with ⟨a, isStored, isGone, rfl⟩
    rw [unbound a isStored isGone]
    constructor
    · intro bound
      cases bound
    · rintro ⟨b, stays, sameKey, -⟩
      rw [(kept b stays).1] at sameKey
      exact absurd (distinct b (fewer stays) a isStored sameKey ▸ stays) isGone
  · have stays (a : ℕ) (isStored : a ∈ stored) (sameKey : c.mem.key a = key) : a ∈ stored' := by
      by_contra isGone
      exact gone ⟨a, isStored, isGone, sameKey⟩
    rw [others key fun a isStored isGone sameKey => isGone (stays a isStored sameKey), holds]
    constructor
    · rintro ⟨a, isStored, sameKey, sameData⟩
      have isStored' := stays a isStored sameKey
      exact ⟨a, isStored', (kept a isStored').1.trans sameKey, (kept a isStored').2.trans sameData⟩
    · rintro ⟨a, isStored', sameKey, sameData⟩
      exact ⟨a, fewer isStored', (kept a isStored').1.symm.trans sameKey,
        (kept a isStored').2.symm.trans sameData⟩

theorem erase (holds : HoldsMap c stored map)
    (distinct : ∀ a ∈ stored, ∀ b ∈ stored, c.mem.key a = c.mem.key b → a = b)
    (isStored : it ∈ stored) (frame : Frame c c') :
    HoldsMap c' (stored.erase it) (Function.update map (c.mem.key it) none) := by
  refine holds.without distinct (Finset.erase_subset it stored)
    (fun a _ => ⟨frame.key a, frame.data a⟩) (fun a isStored' isGone => ?_) fun key other => ?_
  · have same : a = it := by
      by_contra differs
      exact isGone (Finset.mem_erase.mpr ⟨differs, isStored'⟩)
    rw [same, Function.update_self]
  · exact Function.update_of_ne (other it isStored (Finset.notMem_erase it stored)).symm _ _

/-- A store binds its key, in place of any other item. -/
theorem store (holds : HoldsMap c v.stored map) {gone : List ℕ}
    (stores : Stores c c' v v' it gone) :
    HoldsMap c' v'.stored (Function.update map (c.mem.key it) (some (c.mem.data it))) := by
  intro key value
  by_cases same : key = c.mem.key it
  · subst same
    rw [Function.update_self, Option.some.injEq]
    constructor
    · rintro rfl
      exact ⟨it, (stores.stored it).mpr (Or.inl rfl), stores.key it, stores.data it⟩
    · rintro ⟨a, isStored, sameKey, sameData⟩
      rw [stores.key] at sameKey
      rcases (stores.stored a).mp isStored with rfl | ⟨-, differs⟩
      · rw [← sameData, stores.data]
      · exact absurd sameKey differs
  · rw [Function.update_of_ne same, holds]
    constructor
    · rintro ⟨a, isStored, rfl, rfl⟩
      exact ⟨a, (stores.stored a).mpr (Or.inr ⟨isStored, same⟩), stores.key a, stores.data a⟩
    · rintro ⟨a, isStored, sameKey, sameData⟩
      rw [stores.key] at sameKey
      rw [stores.data] at sameData
      rcases (stores.stored a).mp isStored with rfl | ⟨wasStored, -⟩
      · exact absurd sameKey.symm same
      · exact ⟨a, wasStored, sameKey, sameData⟩

end HoldsMap

/-! ## Threads as an atomic object -/

theorem Phase.status_congr {mem mem' : Mem}
    (same : ∀ a, phase.item = some a → mem'.key a = mem.key a ∧ mem'.data a = mem.data a)
    (linked : ∀ a, phase = .deleting a → mem'.itemLinked a = mem.itemLinked a) :
    phase.status mem' = phase.status mem := by
  cases phase with
  | idle => rfl
  | storing it inbuffer bufflen => simp only [status, (same it rfl).1]
  | copied it => simp only [status, (same it rfl).1, (same it rfl).2]
  | getting it => simp only [status, (same it rfl).2]
  | deleting it => simp only [status, (same it rfl).1, linked it rfl]
  | unlinked it => rfl

namespace Threads

/-- How far the calls are. Nobody but the threads is in one. -/
def status (s : Threads) (proc : Option ℕ) : Status CacheOp CacheRet :=
  proc.elim .idle fun thread => (s.phase thread).status s.cache.mem

/-- The threads as processes that share the map. -/
def atomic (s : Threads) (map : CacheMap) : Atomic CacheMap (Option ℕ) CacheOp CacheRet :=
  ⟨map, s.status⟩

theorem missed_enter {obtained : List ℕ} (call : Call) :
    ({ s.enter thread c' phase with obtained } : Threads).missed thread call =
      match phase with
      | .idle => [.respond (some thread) call.missed]
      | _ => [] := by
  simp [missed, enter]

/-- A section that the other threads do not notice. -/
theorem atomic_enter (phase : Phase) (map' : CacheMap) (obtained : List ℕ)
    (others : ∀ other, other ≠ thread →
      (s.phase other).status c'.mem = (s.phase other).status s.cache.mem) :
    ({ s.enter thread c' phase with obtained } : Threads).atomic map' =
      ⟨map', Function.update s.status (some thread) (phase.status c'.mem)⟩ := by
  simp only [atomic, enter, Atomic.mk.injEq, true_and]
  funext proc
  cases proc with
  | none => simp [status]
  | some other =>
      by_cases same : other = thread
      · simp [status, same]
      · simpa [status, same] using others other same

end Threads

namespace ThreadsInv

/-- The status of a thread whose item keeps its contents and stays in the table, or out of it. -/
theorem status_eq (inv : ThreadsInv keys s v) (inv' : ThreadsInv keys s' v') {other : ℕ}
    (phase : s'.phase other = s.phase other)
    (same : ∀ a, v.Live a → (s.phase other).item = some a →
      s'.cache.mem.key a = s.cache.mem.key a ∧ s'.cache.mem.data a = s.cache.mem.data a)
    (stored : ∀ a, s.phase other = .deleting a → (a ∈ v'.stored ↔ a ∈ v.stored)) :
    (s.phase other).status s'.cache.mem = (s.phase other).status s.cache.mem := by
  refine Phase.status_congr (fun a uses => same a (inv.live uses) uses) fun a deleting => ?_
  have uses : (s.phase other).item = some a := by
    rw [deleting]
    rfl
  have live' : v'.Live a := inv'.live (phase ▸ uses)
  rw [Bool.eq_iff_iff, inv'.cache.linked_iff_stored live', stored a deleting,
    inv.cache.linked_iff_stored (inv.live uses)]

/-- Finitely many threads are about to unlink an item. -/
theorem exists_deleters (inv : ThreadsInv keys s v) (live : v.Live it) :
    ∃ threads : Finset ℕ, ∀ thread, thread ∈ threads ↔ s.phase thread = .deleting it := by
  have finite : {thread | s.phase thread = .deleting it}.Finite := by
    by_contra infinite
    rcases Set.Infinite.exists_subset_card_eq infinite (s.cache.mem.refcount it) with
      ⟨threads, deleting, card⟩
    have counted := inv.counted it live threads
    have each (thread : ℕ) (isDeleter : thread ∈ threads) : (s.phase thread).refs it = 1 := by
      have phase : s.phase thread = .deleting it := deleting isDeleter
      rw [phase]
      simp [Phase.refs]
    rw [Finset.sum_congr rfl each, Finset.sum_const, card] at counted
    simp at counted
  exact ⟨finite.toFinset, fun thread => finite.mem_toFinset⟩

end ThreadsInv

/-- A step that shows some events is some steps of the atomic object. -/
def Threads.Acts (s s' : Threads) (stored : Finset ℕ) (map : CacheMap)
    (events : List CacheEvent) : Prop :=
  ∃ map', HoldsMap s'.cache stored map' ∧ Atomic.Run mapSpec (s.atomic map) events (s'.atomic map')

/-! ## The first section of a call -/

namespace ThreadsInv

variable {obtained : List ℕ}

theorem status_idle (idle : s.phase thread = .idle) : s.status (some thread) = .idle := by
  simp [Threads.status, idle, Phase.status]

theorem status_of_frame (inv : ThreadsInv keys s v)
    (inv' : ThreadsInv keys { s.enter thread c' phase with obtained } v')
    (frame : Frame s.cache c') (same : v'.stored = v.stored) (other : ℕ)
    (isOther : other ≠ thread) :
    (s.phase other).status c'.mem = (s.phase other).status s.cache.mem :=
  inv.status_eq inv' (by simp [Threads.enter, isOther]) (fun a _ _ => ⟨frame.key a, frame.data a⟩)
    fun a _ => by rw [same]

/-- A call that finds nothing acts and returns in its first section. -/
theorem acts_missed (holds : HoldsMap s.cache stored map) (idle : s.phase thread = .idle)
    (call : Call) (acts : mapSpec map (call.operation .idle) call.missed map) :
    s.Acts { s.enter thread s.cache .idle with obtained } stored map
      [.invoke (some thread) (call.operation .idle), .respond (some thread) call.missed] := by
  refine ⟨map, holds, ?_⟩
  have same : ({ s.enter thread s.cache .idle with obtained } : Threads).atomic map =
      s.atomic map := by
    rw [Threads.enter_idle idle]
    rfl
  rw [same]
  exact .call (status_idle idle) acts

/-- A lookup that misses. -/
theorem of_itemGet_none (inv : ThreadsInv keys s v) (keySet : KeySet keys) (isKey : key ∈ keys)
    (run : s.cache.itemGet (DataCache.cString key) sys = .ok (c', none)) :
    c' = s.cache ∧ ∀ a ∈ v.stored, s.cache.mem.key a ≠ key := by
  rw [DataCache.itemGet_cString keySet isKey] at run
  rcases LruLists.doItemGet_eq inv.cache keySet isKey (sys.now 0) with
    ⟨missed, none⟩ | ⟨_, _, _, hit, -⟩
  · cases missed.symm.trans run
    exact ⟨rfl, none⟩
  · cases hit.symm.trans run

/-- A lookup that hits. -/
theorem of_itemGet_some (inv : ThreadsInv keys s v)
    (inv' : ThreadsInv keys { s.enter thread c' phase with obtained } v') (keySet : KeySet keys)
    (isKey : key ∈ keys)
    (run : s.cache.itemGet (DataCache.cString key) sys = .ok (c', some it)) :
    it ∈ v.stored ∧ s.cache.mem.key it = key ∧ Frame s.cache c' ∧ v'.stored = v.stored := by
  rw [DataCache.itemGet_cString keySet isKey] at run
  rcases LruLists.doItemGet_eq inv.cache keySet isKey (sys.now 0) with
    ⟨missed, -⟩ | ⟨_, v'', a, hit, isStored, sameKey, after, drops, -, -, -, stored⟩
  · cases missed.symm.trans run
  · cases hit.symm.trans run
    exact ⟨isStored, sameKey, drops.toFrame, (inv'.cache.stored_unique after).trans stored⟩

theorem acts_get (inv : ThreadsInv keys s v) (keySet : KeySet keys) (isKey : key ∈ keys)
    (holds : HoldsMap s.cache v.stored map) (idle : s.phase thread = .idle) {found : Option ℕ}
    (run : s.cache.itemGet (DataCache.cString key) sys = .ok (c', found))
    (next : s' = { s.enter thread c' (found.elim .idle .getting) with obtained })
    (inv' : ThreadsInv keys s' v') :
    s.Acts s' v'.stored map
      (.invoke (some thread) (.get key) :: s'.missed thread (.get key)) := by
  subst next
  cases found with
  | none =>
      rcases inv.of_itemGet_none keySet isKey run with ⟨rfl, missed⟩
      rw [← inv.cache.stored_unique inv'.cache]
      simp only [Option.elim, Threads.missed_enter]
      exact acts_missed holds idle (.get key) ⟨by rw [holds.eq_none missed]; rfl, rfl⟩
  | some it =>
      rcases inv.of_itemGet_some inv' keySet isKey run with ⟨isStored, rfl, frame, same⟩
      refine ⟨map, holds.of_frame frame same, ?_⟩
      simp only [Option.elim, Threads.missed_enter]
      have value : Phase.status c'.mem (.getting it) =
          .done (.value (map (s.cache.mem.key it))) := by
        rw [holds.of_stored isStored, ← frame.data]
        rfl
      rw [Threads.atomic_enter _ _ _ (inv.status_of_frame inv' frame same), value]
      exact .invoke_act (status_idle idle) ⟨rfl, rfl⟩

theorem acts_delete (inv : ThreadsInv keys s v) (keySet : KeySet keys) (isKey : key ∈ keys)
    (holds : HoldsMap s.cache v.stored map) (idle : s.phase thread = .idle) {found : Option ℕ}
    (run : s.cache.itemGet (DataCache.cString key) sys = .ok (c', found))
    (next : s' = { s.enter thread c' (found.elim .idle .deleting) with obtained })
    (inv' : ThreadsInv keys s' v') :
    s.Acts s' v'.stored map
      (.invoke (some thread) (.delete key) :: s'.missed thread (.delete key)) := by
  subst next
  cases found with
  | none =>
      rcases inv.of_itemGet_none keySet isKey run with ⟨rfl, missed⟩
      rw [← inv.cache.stored_unique inv'.cache]
      simp only [Option.elim, Threads.missed_enter]
      refine acts_missed holds idle (.delete key) ⟨rfl, ?_⟩
      rw [← holds.eq_none missed, Function.update_eq_self]
  | some it =>
      rcases inv.of_itemGet_some inv' keySet isKey run with ⟨isStored, rfl, frame, same⟩
      refine ⟨map, holds.of_frame frame same, ?_⟩
      simp only [Option.elim, Threads.missed_enter]
      have status : Phase.status c'.mem (.deleting it) =
          .pending (.delete (s.cache.mem.key it)) := by
        rw [Phase.status, if_pos, frame.key]
        exact inv'.cache.linked_of_stored (same ▸ isStored)
      rw [Threads.atomic_enter _ _ _ (inv.status_of_frame inv' frame same), status]
      exact .single (.invoke _ (status_idle idle))

/-- What an allocation leaves in the table is bound as before. -/
theorem holds_forget (inv : ThreadsInv keys s v) (inv' : ThreadsInv keys s' v')
    (holds : HoldsMap s.cache v.stored map) (fewer : v'.stored ⊆ v.stored)
    (kept : ∀ a ∈ v'.stored,
      s'.cache.mem.key a = s.cache.mem.key a ∧ s'.cache.mem.data a = s.cache.mem.data a) :
    HoldsMap s'.cache v'.stored (forget map (s.lostKeys s')) := by
  refine holds.without inv.cache.distinct fewer kept (fun a isStored isGone => ?_)
    fun key others => ?_
  · refine if_pos ⟨a, inv.cache.inTable_iff.mpr isStored, ?_, rfl⟩
    rwa [inv'.cache.inTable_iff]
  · refine if_neg ?_
    rintro ⟨a, inTable, notInTable, sameKey⟩
    rw [inv.cache.inTable_iff] at inTable
    rw [inv'.cache.inTable_iff] at notInTable
    exact others a inTable notInTable sameKey

/-- The events of a store that has asked for an item. -/
theorem acts_alloc_of (inv : ThreadsInv keys s v)
    (inv' : ThreadsInv keys { s.enter thread c' phase with obtained } v')
    (holds : HoldsMap s.cache v.stored map) (idle : s.phase thread = .idle)
    {inbuffer : ℕ → UInt8} {bufflen : ℤ} (fewer : v'.stored ⊆ v.stored)
    (keptStored : ∀ a ∈ v'.stored,
      c'.mem.key a = s.cache.mem.key a ∧ c'.mem.data a = s.cache.mem.data a)
    (keptUsed : ∀ other a, (s.phase other).item = some a →
      (c'.mem.key a = s.cache.mem.key a ∧ c'.mem.data a = s.cache.mem.data a) ∧
        (a ∈ v'.stored ↔ a ∈ v.stored))
    (next : phase = .idle ∨ ∃ it, phase = .storing it inbuffer bufflen ∧ c'.mem.key it = key) :
    s.Acts { s.enter thread c' phase with obtained } v'.stored map
      (s.events { s.enter thread c' phase with obtained }
        (.call thread (.store key inbuffer bufflen) sys)) := by
  have others (other : ℕ) (isOther : other ≠ thread) :
      (s.phase other).status c'.mem = (s.phase other).status s.cache.mem := by
    refine inv.status_eq inv' ?_ (fun a _ uses => (keptUsed other a uses).1) fun a deleting => ?_
    · simp [Threads.enter, isOther]
    · refine (keptUsed other a ?_).2
      rw [deleting]
      rfl
  refine ⟨_, inv.holds_forget inv' holds fewer keptStored, ?_⟩
  rw [Threads.atomic_enter _ _ _ others]
  simp only [Threads.events, Threads.missed_enter]
  have left : ({ s.enter thread c' phase with obtained } : Threads).phase thread = phase := by
    simp [Threads.enter]
  rw [left]
  generalize s.lostKeys _ = lost
  generalize isOp : (Call.store key inbuffer bufflen).operation phase = op
  have made : Atomic.Run mapSpec (s.atomic map) [.invoke (some thread) op]
      ⟨map, Function.update s.status (some thread) (.pending op)⟩ :=
    .single (.invoke _ (status_idle idle))
  have forgets : Atomic.Run mapSpec
      ⟨map, Function.update s.status (some thread) (.pending op)⟩
      [.invoke none (.lose lost), .respond none .lost]
      ⟨forget map lost, Function.update s.status (some thread) (.pending op)⟩ :=
    .call (by simp [Threads.status]) (mapSpec_lose map lost)
  rcases next with rfl | ⟨it, rfl, rfl⟩
  · have refused : Atomic.Run mapSpec
        ⟨forget map lost, Function.update s.status (some thread) (.pending op)⟩
        [.respond (some thread) (.stored true)]
        ⟨forget map lost, Function.update (Function.update s.status (some thread)
          (.pending op)) (some thread) .idle⟩ :=
      .act_respond (Function.update_self ..) (isOp ▸ ⟨rfl, rfl⟩)
    rw [Function.update_idem] at refused
    exact (made.trans forgets).trans refused
  · subst isOp
    exact made.trans forgets

theorem acts_alloc (inv : ThreadsInv keys s v) (keySet : KeySet keys) (isKey : key ∈ keys)
    (sane : ∀ j, (sys.os j).Sane s.cache.slabs) {inbuffer : ℕ → UInt8} {bufflen : ℤ}
    (bound : bufflen < 2 ^ 31) {found : Option ℕ} (nonneg : found ≠ none → 0 ≤ bufflen)
    (holds : HoldsMap s.cache v.stored map) (idle : s.phase thread = .idle)
    (run : s.cache.itemAlloc (DataCache.cString key) bufflen sys = .ok (c', found))
    (spares : ∃ reset, c'.repaired = reset ++ s.cache.repaired ∧
      ∀ a ∈ reset, ∀ thread, (s.phase thread).item ≠ some a)
    (next : s' = { s.enter thread c' (found.elim .idle (.storing · inbuffer bufflen)) with
      obtained })
    (inv' : ThreadsInv keys s' v') :
    s.Acts s' v'.stored map (s.events s' (.call thread (.store key inbuffer bufflen) sys)) := by
  subst next
  rw [keySet.cString_eq isKey] at run
  rcases spares with ⟨spared, repaired, unused⟩
  have notGone {gone reset : List ℕ} (picked : ∀ a ∈ gone, a ∈ reset)
      (repaired' : c'.repaired = reset ++ s.cache.repaired) {other a : ℕ}
      (uses : (s.phase other).item = some a) : a ∉ gone := fun isGone => by
    have same := List.append_cancel_right (repaired.symm.trans repaired')
    exact unused a (same ▸ picked a isGone) other uses
  cases found with
  | none =>
      rcases LruLists.of_doItemAlloc inv.cache keySet sane run with ⟨-, reclaimed, -⟩
      rcases reclaimed rfl with ⟨v'', gone, reset, after, reclaims⟩
      have picked := inv.picked_of_noRef reclaims.wasStored reclaims.noRef
      have stored := reclaims.stored
      rw [← inv'.cache.stored_unique after] at stored
      have kept (a : ℕ) : c'.mem.key a = s.cache.mem.key a ∧ c'.mem.data a = s.cache.mem.data a :=
        ⟨reclaims.toFrame.key a, reclaims.toFrame.data a⟩
      refine inv.acts_alloc_of inv' holds idle (fun a isStored => ((stored a).mp isStored).1)
        (fun a _ => kept a) (fun other a uses => ⟨kept a, ?_⟩) (Or.inl rfl)
      rw [stored]
      exact and_iff_left (notGone picked reclaims.repaired uses)
  | some it =>
      rcases LruLists.doItemAlloc_eq inv.cache keySet sane (keySet.short key isKey)
        (nonneg (by simp)) bound with
        ⟨_, _, _, _, failed, -⟩ | ⟨_, v'', gone, reset, a, done, after, allocates, -⟩
      · cases failed.symm.trans run
      · cases done.symm.trans run
        have picked := inv.picked_of_noRef allocates.wasStored allocates.noRef
        have stored := allocates.stored
        rw [← inv'.cache.stored_unique after] at stored
        have kept {b : ℕ} (live : v.Live b) (stays : b ∉ gone) :
            c'.mem.key b = s.cache.mem.key b ∧ c'.mem.data b = s.cache.mem.data b := by
          have differs : b ≠ it := by
            rintro rfl
            exact allocates.fresh ⟨live, stays⟩
          have contents := allocates.contents b live differs
          exact ⟨contents.key, contents.data⟩
        refine inv.acts_alloc_of inv' holds idle (fun b isStored => ((stored b).mp isStored).1)
          (fun b isStored => ?_) (fun other b uses => ?_)
          (Or.inr ⟨it, rfl, allocates.key_new⟩)
        · rcases (stored b).mp isStored with ⟨wasStored, stays⟩
          exact kept (inv.cache.live_of_stored wasStored) stays
        · have stays := notGone picked allocates.repaired uses
          refine ⟨kept (inv.live uses) stays, ?_⟩
          rw [stored]
          exact and_iff_left stays

/-! ## The other sections -/

theorem acts_copy (inv : ThreadsInv keys s v) {inbuffer : ℕ → UInt8} {bufflen : ℤ}
    (storing : s.phase thread = .storing it inbuffer bufflen)
    (holds : HoldsMap s.cache v.stored map)
    (run : DataCache.copyIn s.cache it inbuffer bufflen = .ok c')
    (inv' : ThreadsInv keys (s.enter thread c' (.copied it)) v') :
    s.Acts (s.enter thread c' (.copied it)) v'.stored map [] := by
  have held := inv.held thread
  rw [storing] at held
  rcases held with ⟨⟨live, notStored, isKey⟩, length, positive, bound⟩
  cases (DataCache.copyIn_eq inv.cache live inbuffer positive bound length).symm.trans run
  have sameLength : s.cache.mem.nbytes it = (readBytes inbuffer bufflen.toNat).length := by
    rw [length_readBytes, length]
  generalize isValue : readBytes inbuffer bufflen.toNat = value at *
  have same : v'.stored = v.stored :=
    inv'.cache.stored_unique (DataCache.cacheInv_withData inv.cache notStored value)
  have owns : (s.phase thread).Owns it := by
    rw [storing]
    rfl
  have kept {a : ℕ} (differs : a ≠ it) :
      (DataCache.withData s.cache it value).mem.key a = s.cache.mem.key a ∧
        (DataCache.withData s.cache it value).mem.data a = s.cache.mem.data a :=
    ⟨DataCache.key_withData s.cache it value a, DataCache.data_withData_of_ne differs⟩
  have others (other : ℕ) (isOther : other ≠ thread) :
      (s.phase other).status (DataCache.withData s.cache it value).mem =
        (s.phase other).status s.cache.mem := by
    refine inv.status_eq inv' (by simp [Threads.enter, isOther]) (fun a _ uses => kept ?_)
      fun a _ => by rw [same]
    rintro rfl
    exact isOther (inv.alone thread a owns other uses)
  have own : Phase.status (DataCache.withData s.cache it value).mem (.copied it) =
      s.status (some thread) := by
    simp only [Threads.status, Option.elim, storing, Phase.status, DataCache.key_withData, isValue]
    rw [DataCache.data_withData sameLength]
  refine ⟨map, holds.congr same fun a isStored =>
    kept (ne_of_mem_of_not_mem isStored notStored), ?_⟩
  have unchanged := Threads.atomic_enter (.copied it) map s.obtained others
  rw [own, Function.update_eq_self] at unchanged
  exact unchanged ▸ .refl _

/-- A section that ends a call which has acted. -/
theorem acts_return (inv : ThreadsInv keys s v)
    (inv' : ThreadsInv keys (s.enter thread c' .idle) v') (holds : HoldsMap s.cache v.stored map)
    (frame : Frame s.cache c') (same : v'.stored = v.stored) {ret : CacheRet}
    (done : s.status (some thread) = .done ret) :
    s.Acts (s.enter thread c' .idle) v'.stored map [.respond (some thread) ret] := by
  refine ⟨map, holds.of_frame frame same, ?_⟩
  have returned : Atomic.Run mapSpec (s.atomic map) [.respond (some thread) ret]
      ((s.atomic map).set (some thread) .idle) :=
    .single (.respond done)
  have entered := Threads.atomic_enter .idle map s.obtained (inv.status_of_frame inv' frame same)
  exact entered ▸ returned

/-- The calls that wait to delete an item. -/
theorem exists_deletes (inv : ThreadsInv keys s v) (isStored : it ∈ v.stored) :
    ∃ procs : List (Option ℕ), procs.Nodup ∧
      (∀ thread, some thread ∈ procs ↔ s.phase thread = .deleting it) ∧ none ∉ procs ∧
      ∀ proc ∈ procs, s.status proc = .pending (.delete (s.cache.mem.key it)) := by
  rcases inv.exists_deleters (inv.cache.live_of_stored isStored) with ⟨threads, isDeleter⟩
  refine ⟨threads.toList.map some, ?_, fun thread => ?_, by simp, fun proc isProc => ?_⟩
  · exact threads.nodup_toList.map (Option.some_injective ℕ)
  · simp [isDeleter]
  · rcases List.mem_map.mp isProc with ⟨thread, inThreads, rfl⟩
    rw [Finset.mem_toList, isDeleter] at inThreads
    simp only [Threads.status, Option.elim, inThreads, Phase.status]
    exact if_pos (inv.cache.linked_of_stored isStored)

/-- A thread after another thread has taken an item out of the table: if it was about to unlink
that item, its call has acted. -/
theorem status_of_unlinked (inv : ThreadsInv keys s v) (inv' : ThreadsInv keys s' v') {other : ℕ}
    (phase : s'.phase other = s.phase other)
    (kept : ∀ a, s'.cache.mem.key a = s.cache.mem.key a ∧
      s'.cache.mem.data a = s.cache.mem.data a)
    (notStored : it ∉ v'.stored)
    (stored : ∀ a, a ≠ it → s.phase other = .deleting a → (a ∈ v'.stored ↔ a ∈ v.stored)) :
    (s.phase other = .deleting it →
        (s.phase other).status s'.cache.mem = .done .deleted) ∧
      (s.phase other ≠ .deleting it →
        (s.phase other).status s'.cache.mem = s.status (some other)) := by
  constructor
  · intro deleting
    have live' : v'.Live it := inv'.live (show (s'.phase other).item = some it by
      rw [phase, deleting]
      rfl)
    rw [deleting, Phase.status, if_neg]
    rwa [inv'.cache.linked_iff_stored live']
  · intro notDeleting
    refine inv.status_eq inv' phase (fun a _ _ => kept a) fun a deleting => stored a ?_ deleting
    rintro rfl
    exact notDeleting deleting

theorem acts_unlink (inv : ThreadsInv keys s v) (keySet : KeySet keys)
    (deleting : s.phase thread = .deleting it) (sane : ∀ j, (sys.os j).Sane s.cache.slabs)
    (holds : HoldsMap s.cache v.stored map) (run : s.cache.itemUnlink it sys = .ok c')
    (inv' : ThreadsInv keys (s.enter thread c' (.unlinked it)) v') :
    s.Acts (s.enter thread c' (.unlinked it)) v'.stored map [] := by
  have live : v.Live it :=
    inv.live (show (s.phase thread).item = some it by rw [deleting]; rfl)
  rcases LruLists.doItemUnlink_eq inv.cache keySet live (sane 0).fits with
    ⟨_, v'', run', after, unlinks⟩
  cases run'.symm.trans run
  have stored := unlinks.stored
  rw [← inv'.cache.stored_unique after] at stored
  have frame := unlinks.drops.toFrame
  by_cases isStored : it ∈ v.stored
  · rcases inv.exists_deletes isStored with ⟨procs, once, isDeleter, noProc, pending⟩
    have isFirst : some thread ∈ procs := (isDeleter thread).mpr deleting
    refine ⟨_, stored ▸ holds.erase inv.cache.distinct isStored frame, ?_⟩
    convert Atomic.Run.act_all (m := s.atomic map) once pending ⟨rfl, rfl⟩
      (mapSpec_delete_again map (s.cache.mem.key it)) (List.ne_nil_of_mem isFirst) using 1
    simp only [Threads.atomic, Atomic.mk.injEq, true_and]
    funext proc
    cases proc with
    | none => simp [Threads.status, noProc]
    | some other =>
        by_cases same : other = thread
        · subst same
          rw [if_pos isFirst]
          simp [Threads.status, Threads.enter, Phase.status]
        · have phase : (s.enter thread c' (.unlinked it)).phase other = s.phase other := by
            simp [Threads.enter, same]
          rcases inv.status_of_unlinked inv' phase (fun a => ⟨frame.key a, frame.data a⟩)
            (stored ▸ Finset.notMem_erase it v.stored)
            fun a differs _ => by rw [stored, Finset.mem_erase, and_iff_right differs] with
            ⟨acted, stays⟩
          simp only [Threads.status, Option.elim, phase]
          split
          case isTrue deletes => exact acted ((isDeleter other).mp deletes)
          case isFalse isNone => exact stays fun deletes => isNone ((isDeleter other).mpr deletes)
  · rw [Finset.erase_eq_of_notMem isStored] at stored
    refine ⟨map, holds.of_frame frame stored, ?_⟩
    have own : Phase.status c'.mem (.unlinked it) = s.status (some thread) := by
      simp only [Threads.status, Option.elim, deleting, Phase.status]
      rw [if_neg]
      rwa [inv.cache.linked_iff_stored live]
    have unchanged := Threads.atomic_enter (.unlinked it) map s.obtained
      (inv.status_of_frame inv' frame stored)
    rw [own, Function.update_eq_self] at unchanged
    exact unchanged ▸ .refl _

/-- Before a store replaces an item, the calls that wait to delete it act. -/
theorem deletes_before_store (inv : ThreadsInv keys s v) (map : CacheMap) (key : List UInt8) :
    ∃ (map₁ : CacheMap) (status₁ : Option ℕ → Status CacheOp CacheRet),
      Atomic.Run mapSpec (s.atomic map) [] ⟨map₁, status₁⟩ ∧
      (∀ value, Function.update map₁ key value = Function.update map key value) ∧
      status₁ none = .idle ∧
      ∀ thread, (∀ old ∈ v.stored, s.cache.mem.key old = key → s.phase thread = .deleting old →
          status₁ (some thread) = .done .deleted) ∧
        ((∀ old ∈ v.stored, s.cache.mem.key old = key → s.phase thread ≠ .deleting old) →
          status₁ (some thread) = s.status (some thread)) := by
  by_cases replaces : ∃ old ∈ v.stored, s.cache.mem.key old = key
  · rcases replaces with ⟨old, isStored, rfl⟩
    rcases inv.exists_deletes isStored with ⟨procs, once, isDeleter, noProc, pending⟩
    have only {a : ℕ} (isStored' : a ∈ v.stored)
        (sameKey : s.cache.mem.key a = s.cache.mem.key old) : a = old :=
      inv.cache.distinct a isStored' old isStored sameKey
    by_cases nobody : procs = []
    · subst nobody
      refine ⟨map, s.status, .refl _, fun _ => rfl, rfl, fun thread => ⟨?_, fun _ => rfl⟩⟩
      intro a isStored' sameKey deleting
      rw [only isStored' sameKey, ← isDeleter] at deleting
      simp at deleting
    · refine ⟨_, _, Atomic.Run.act_all (m := s.atomic map) once pending ⟨rfl, rfl⟩
        (mapSpec_delete_again map (s.cache.mem.key old)) nobody, fun _ => Function.update_idem ..,
        ?_, fun thread => ⟨?_, ?_⟩⟩
      · rw [if_neg noProc]
        rfl
      · intro a isStored' sameKey deleting
        rw [only isStored' sameKey] at deleting
        rw [if_pos ((isDeleter thread).mpr deleting)]
      · intro deletesNot
        rw [if_neg fun deletes =>
          deletesNot old isStored rfl ((isDeleter thread).mp deletes)]
        rfl
  · refine ⟨map, s.status, .refl _, fun _ => rfl, rfl, fun thread => ⟨?_, fun _ => rfl⟩⟩
    intro old isStored sameKey
    exact absurd ⟨old, isStored, sameKey⟩ replaces

theorem acts_store (inv : ThreadsInv keys s v) (keySet : KeySet keys)
    (copied : s.phase thread = .copied it) (few : s.cache.assoc.hashItems < 2 ^ 30)
    (sane : ∀ j, (sys.os j).Sane s.cache.slabs) (holds : HoldsMap s.cache v.stored map)
    (run : s.cache.storeItem it sys = .ok c')
    (inv' : ThreadsInv keys (s.enter thread c' .idle) v') :
    s.Acts (s.enter thread c' .idle) v'.stored map [.respond (some thread) (.stored true)] := by
  have held := inv.held thread
  rw [copied] at held
  rcases held with ⟨live, notStored, isKey⟩
  rcases LruLists.storeItem_eq inv.cache keySet live notStored isKey (inv.card_lt few) sys
    fun j => (sane j).fits with ⟨_, v'', gone, run', after, stores⟩
  cases run'.symm.trans run
  have stored := stores.stored
  rw [← inv'.cache.stored_unique after] at stored
  have owns : (s.phase thread).Owns it := by
    rw [copied]
    rfl
  rcases inv.deletes_before_store map (s.cache.mem.key it) with
    ⟨map₁, status₁, deletes, sameMap, nobody, others⟩
  have pending : status₁ (some thread) =
      .pending (.store (s.cache.mem.key it) (s.cache.mem.data it)) := by
    rw [(others thread).2 fun old _ _ deleting => by simp [copied] at deleting]
    simp [Threads.status, copied, Phase.status]
  have binds : Atomic.Run mapSpec ⟨map₁, status₁⟩ [.respond (some thread) (.stored true)]
      ⟨Function.update map (s.cache.mem.key it) (some (s.cache.mem.data it)),
        Function.update status₁ (some thread) .idle⟩ :=
    .act_respond pending ⟨rfl, (sameMap _).symm⟩
  have holds' := holds.store stores
  rw [← inv'.cache.stored_unique after] at holds'
  refine ⟨_, holds', ?_⟩
  convert deletes.after binds using 1
  simp only [Threads.atomic, Atomic.mk.injEq, true_and]
  funext proc
  cases proc with
  | none => simp [Threads.status, nobody]
  | some other =>
      by_cases same : other = thread
      · simp [same, Threads.status, Threads.enter, Phase.status]
      · have phase : (s.enter thread c' .idle).phase other = s.phase other := by
          simp [Threads.enter, same]
        rw [Function.update_of_ne (by simp [same])]
        simp only [Threads.status, Option.elim, phase]
        by_cases replaced : ∃ old ∈ v.stored, s.cache.mem.key old = s.cache.mem.key it ∧
            s.phase other = .deleting old
        · rcases replaced with ⟨old, isStored, sameKey, deleting⟩
          rw [(others other).1 old isStored sameKey deleting]
          refine (inv.status_of_unlinked inv' phase
            (fun a => ⟨stores.key a, stores.data a⟩) ?_ fun a differs deletes => ?_).1 deleting
          · rw [stored]
            rintro (rfl | ⟨-, otherKey⟩)
            · exact notStored isStored
            · exact otherKey sameKey
          · rw [deleting] at deletes
            cases deletes
            exact absurd rfl differs
        · have deletesNot (old : ℕ) (isStored : old ∈ v.stored)
              (sameKey : s.cache.mem.key old = s.cache.mem.key it) :
              s.phase other ≠ .deleting old :=
            fun deleting => replaced ⟨old, isStored, sameKey, deleting⟩
          rw [(others other).2 deletesNot]
          refine inv.status_eq inv' phase (fun a _ _ => ⟨stores.key a, stores.data a⟩)
            fun a deleting => ?_
          have differs : a ≠ it := by
            rintro rfl
            exact same (inv.alone thread a owns other (by rw [deleting]; rfl))
          rw [stored, or_iff_right differs]
          exact and_iff_left_of_imp fun isStored sameKey => deletesNot a isStored sameKey deleting

theorem acts_release (inv : ThreadsInv keys s v) (unlinked : s.phase thread = .unlinked it)
    (sane : ∀ j, (sys.os j).Sane s.cache.slabs) (holds : HoldsMap s.cache v.stored map)
    (run : s.cache.itemRelease it sys = .ok c')
    (inv' : ThreadsInv keys (s.enter thread c' .idle) v') :
    s.Acts (s.enter thread c' .idle) v'.stored map [.respond (some thread) .deleted] := by
  have live : v.Live it :=
    inv.live (show (s.phase thread).item = some it by rw [unlinked]; rfl)
  have isChunk := inv.cache.slabs.mem_chunks_of_mem_out (inv.cache.mem_out_clsid live)
  rcases LruLists.doItemRelease_eq inv.cache isChunk (fun notLive => absurd live notLive)
    (sane 0).fits with ⟨_, v'', run', after, drops, -, -, stored⟩
  cases run'.symm.trans run
  refine inv.acts_return inv' holds drops.toFrame
    ((inv'.cache.stored_unique after).trans stored) ?_
  simp [Threads.status, unlinked, Phase.status]

theorem acts_maintain (inv : ThreadsInv keys s v) (holds : HoldsMap s.cache v.stored map)
    (run : s.cache.maintenance = .ok c') (inv' : ThreadsInv keys { s with cache := c' } v') :
    s.Acts { s with cache := c' } v'.stored map [] := by
  rcases LruLists.maintenance_eq inv.cache with ⟨_, v'', run', after, migrates⟩
  cases run'.symm.trans run
  have same := (inv'.cache.stored_unique after).trans migrates.stored
  have frame := migrates.toFrame
  refine ⟨map, holds.of_frame frame same, ?_⟩
  have unchanged : ({ s with cache := c' } : Threads).status = s.status := by
    funext proc
    cases proc with
    | none => rfl
    | some thread =>
        exact inv.status_eq inv' rfl (fun a _ _ => ⟨frame.key a, frame.data a⟩)
          fun a _ => by rw [same]
  simp only [Threads.atomic, unchanged]
  exact .refl _

/-! ## Steps and runs -/

/-- Every guarded step is some steps of the atomic object, with the same events. -/
theorem acts_step (inv : ThreadsInv keys s v) (keySet : KeySet keys)
    (holds : HoldsMap s.cache v.stored map) {action : Action}
    (guarded : Threads.Guarded keys s s' action) (spares : Threads.SparesUsed s s')
    (inv' : ThreadsInv keys s' v') : s.Acts s' v'.stored map (s.events s' action) := by
  have regular := guarded.regular
  cases action with
  | call thread call sys =>
      rcases regular with ⟨idle, valid, sane, -⟩
      rcases bind_eq_ok.mp guarded.run with ⟨⟨_, _⟩, started, next⟩
      cases call with
      | get key =>
          rcases bind_eq_ok.mp started with ⟨⟨c', found⟩, got, rest⟩
          cases rest
          exact inv.acts_get keySet valid holds idle got (Except.ok.inj next).symm inv'
      | store key inbuffer bufflen =>
          rcases bind_eq_ok.mp started with ⟨⟨c', found⟩, obtained, rest⟩
          cases rest
          cases next
          have positive (isSome : found ≠ none) : 0 ≤ bufflen := by
            rcases Option.ne_none_iff_exists'.mp isSome with ⟨it, rfl⟩
            refine guarded.positive.resolve_right ?_
            simp [Phase.allocated]
          exact inv.acts_alloc keySet valid.1 sane valid.2 positive holds idle obtained spares rfl
            inv'
      | delete key =>
          rcases bind_eq_ok.mp started with ⟨⟨c', found⟩, got, rest⟩
          cases rest
          exact inv.acts_delete keySet valid holds idle got (Except.ok.inj next).symm inv'
  | resume thread sys =>
      rcases regular with ⟨busy, -, sane, few⟩
      rcases bind_eq_ok.mp guarded.run with ⟨⟨_, _⟩, resumed, next⟩
      simp only [Threads.events]
      cases current : s.phase thread with
      | idle => exact absurd current busy
      | storing it inbuffer bufflen =>
          rw [current] at resumed
          rcases bind_eq_ok.mp resumed with ⟨c', copied, rest⟩
          cases rest
          cases next
          exact inv.acts_copy current holds copied inv'
      | copied it =>
          rw [current] at resumed
          rcases bind_eq_ok.mp resumed with ⟨c', stored, rest⟩
          cases rest
          cases next
          exact inv.acts_store keySet current few sane holds stored inv'
      | getting it =>
          rw [current] at resumed
          cases resumed
          cases next
          refine inv.acts_return inv' holds (.refl s.cache) ?_ ?_
          · exact (inv.cache.stored_unique inv'.cache).symm
          · simp [Threads.status, current, Phase.status]
      | deleting it =>
          rw [current] at resumed
          rcases bind_eq_ok.mp resumed with ⟨c', isUnlinked, rest⟩
          cases rest
          cases next
          exact inv.acts_unlink keySet current sane holds isUnlinked inv'
      | unlinked it =>
          rw [current] at resumed
          rcases bind_eq_ok.mp resumed with ⟨c', released, rest⟩
          cases rest
          cases next
          exact inv.acts_release current sane holds released inv'
  | maintain =>
      rcases bind_eq_ok.mp guarded.run with ⟨c', pass, next⟩
      cases next
      exact inv.acts_maintain holds pass inv'

end ThreadsInv

namespace Threads

/-- The threads hold the map of an atomic object, and their calls are as far as its. -/
def Represents (keys : Set (List UInt8)) (s : Threads)
    (m : Atomic CacheMap (Option ℕ) CacheOp CacheRet) : Prop :=
  ∃ v map, ThreadsInv keys s v ∧ HoldsMap s.cache v.stored map ∧ m = s.atomic map

theorem represents_step (keySet : KeySet keys) {m : Atomic CacheMap (Option ℕ) CacheOp CacheRet}
    {events : List CacheEvent} (represents : s.Represents keys m)
    (step : HistoryStep keys s events s') :
    ∃ m', Atomic.Run mapSpec m events m' ∧ s'.Represents keys m' := by
  rcases represents with ⟨v, map, inv, holds, rfl⟩
  rcases step with ⟨action, guarded, spares, rfl⟩
  rcases inv.advance keySet guarded spares with ⟨v', gone, reset, new, inv', -⟩
  rcases inv.acts_step keySet holds guarded spares inv' with ⟨map', holds', run⟩
  exact ⟨_, run, v', map', inv', holds', rfl⟩

theorem represents_init (keys : Set (List UInt8)) {mem : Mem} {cacheSize : ℕ} {os : Os}
    {initialMalloc : Option ℕ}
    (created : DataCache.create .zero .zero mem cacheSize os initialMalloc = .ok c) :
    (init c).Represents keys ⟨fun _ => none, fun _ => .idle⟩ := by
  refine ⟨View.empty, fun _ => none, inv_init keys created, fun key value => ?_, ?_⟩
  · simp [View.empty]
  · simp only [atomic, Atomic.mk.injEq, true_and]
    funext proc
    cases proc <;> rfl

/-- In every run without wrapped counters whose tail repairs spare the items in use, the calls
return as they would from a map if made one after the other, in an order that respects which call
had returned when another was made. The map loses the bindings of evicted items when they are
evicted, and no others. It is bound by every store but those that obtain no item, which return 0
too. -/
theorem linearizable_of_run (keySet : KeySet keys) {mem : Mem} {cacheSize : ℕ} {os : Os}
    {initialMalloc : Option ℕ}
    (created : DataCache.create .zero .zero mem cacheSize os initialMalloc = .ok c)
    {history : List CacheEvent} (trace : Trace (HistoryStep keys) (init c) history s) :
    Linearizable mapSpec (fun _ => none) history :=
  (linearizable_of_simulation (represents_init keys created)
    (fun _ _ _ _ represents step => represents_step keySet represents step) trace).1

/-- Two threads have stored `k`, replaced it and deleted it, and have stored `l`. -/
theorem linearizable_of_run_sharing : ∃ (history : List CacheEvent) (s : Threads),
    s.Quiescent ∧ s.obtained = [4288, 4192, 4096] ∧
      Trace (HistoryStep oneByteKeys) (init (DataCache.new .zero 64 0)) history s ∧
        Linearizable mapSpec (fun _ => none) history := by
  have created := DataCache.create_eq .zero 64 ((DataCache.onePage 0 0 0).os 0) none
  have next (s s' : Threads) (action : Action) (guarded : Guarded oneByteKeys s s' action)
      (quiet : s'.cache.repaired = s.cache.repaired) (_ : s.Due action)
      (before : ∃ history,
        Trace (HistoryStep oneByteKeys) (init (DataCache.new .zero 64 0)) history s) :
      ∃ history, Trace (HistoryStep oneByteKeys) (init (DataCache.new .zero 64 0)) history s' := by
    rcases before with ⟨history, trace⟩
    exact ⟨_, trace.snoc ⟨action, guarded, ⟨[], quiet, by simp⟩, rfl⟩⟩
  rcases sharing_induction next ⟨[], .nil⟩ with ⟨s, ⟨history, trace⟩, quiescent, obtained, -⟩
  exact ⟨history, s, quiescent, obtained, trace,
    linearizable_of_run keySet_oneByteKeys created trace⟩

end Threads

end ChaosCache
