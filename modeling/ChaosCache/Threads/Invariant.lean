import Mathlib.Algebra.BigOperators.Group.Finset.Basic
import Mathlib.Algebra.Order.BigOperators.Group.Finset
import ChaosCache.DataCache.Calls
import ChaosCache.DataCache.Initial
import ChaosCache.Threads

/-!
# What holds while threads share the cache

As long as no reference count wraps, and the tail repair leaves the items alone that are in use,
every thread may rely on its item: it is handed out, nobody else writes to it, and it carries
one reference more than the threads that are about to release one.
-/

namespace ChaosCache

open Hash

variable {keys : Set (List UInt8)} {c c' : LruLists} {v v' : View} {s s' : Threads}
  {phase : Phase} {it : ℕ}

/-! ## Conditions on runs -/

/-- The arguments of a call respect the contract of the cache. -/
def Call.Valid (keys : Set (List UInt8)) : Call → Prop
  | get key => key ∈ keys
  | store key _ bufflen => key ∈ keys ∧ bufflen < 2 ^ 31
  | delete key => key ∈ keys

namespace Action

def Valid (keys : Set (List UInt8)) : Action → Prop
  | call _ started _ => started.Valid keys
  | _ => True

/-- The system answers sanely in the section. -/
def Sane (slabs : SlabAllocator) : Action → Prop
  | call _ _ sys => ∀ j, (sys.os j).Sane slabs
  | resume _ sys => ∀ j, (sys.os j).Sane slabs
  | maintain => True

/-- Values that are stored have a length. -/
def Positive : Action → Prop
  | call _ (.store _ _ bufflen) _ => 0 ≤ bufflen
  | _ => True

end Action

/-- The item that `do_item_get` finds for the key can take another reference. -/
def LruLists.CountsOn (c : LruLists) (key : List UInt8) : Prop :=
  ∀ it, c.assoc.assocFind c.mem (hashKey key) key = .ok (some it) →
    c.mem.refcount it + 1 < 2 ^ 16

namespace Threads

/-- A step in which the system answers sanely. -/
def SaneStep (s s' : Threads) : Prop :=
  ∃ action, s.Enabled action ∧ action.Sane s.cache.slabs ∧ s.step action = .ok s'

/-- The action may come next, it respects the contract of the cache, the system answers sanely,
and few items are linked. -/
structure Regular (keys : Set (List UInt8)) (s : Threads) (action : Action) : Prop where
  enabled : s.Enabled action
  valid : action.Valid keys
  sane : action.Sane s.cache.slabs
  few : s.cache.assoc.hashItems < 2 ^ 30

/-- No reference count wraps. -/
def NoWrap (s : Threads) : Action → Prop
  | .call _ (.get key) _ => s.cache.CountsOn key
  | .call _ (.store _ _ _) _ => True
  | .call _ (.delete key) _ => s.cache.CountsOn key
  | .resume thread _ => ∀ it, s.phase thread = .copied it → s.cache.CountsOn (s.cache.mem.key it)
  | .maintain => True

/-- Every item that the tail repair has picked is used by no thread. -/
def SparesUsed (s s' : Threads) : Prop :=
  ∃ reset, s'.cache.repaired = reset ++ s.cache.repaired ∧
    ∀ a ∈ reset, ∀ thread, (s.phase thread).item ≠ some a

/-- A step of a run that respects all contracts and wraps no counter. No value of a negative length
is ever copied in: a store of one obtains nothing. -/
structure Guarded (keys : Set (List UInt8)) (s s' : Threads) (action : Action) : Prop where
  regular : s.Regular keys action
  noWrap : s.NoWrap action
  run : s.step action = .ok s'
  positive : action.Positive ∨ s'.obtained = s.obtained

end Threads

/-! ## What a thread relies on -/

namespace Phase

/-- The references to an item that the thread will release. -/
def refs (it : ℕ) : Phase → ℕ
  | deleting a => if a = it then 1 else 0
  | unlinked a => if a = it then 1 else 0
  | _ => 0

/-- Nobody else knows the item yet. -/
def Owns (it : ℕ) : Phase → Prop
  | storing a _ _ => a = it
  | copied a => a = it
  | _ => False

/-- What the thread relies on. -/
def Held (keys : Set (List UInt8)) (c : LruLists) (v : View) : Phase → Prop
  | idle => True
  | storing it _ bufflen => (v.Live it ∧ it ∉ v.stored ∧ c.mem.key it ∈ keys) ∧
      c.mem.nbytes it = bufflen.toNat ∧ 0 ≤ bufflen ∧ bufflen < 2 ^ 31
  | copied it => v.Live it ∧ it ∉ v.stored ∧ c.mem.key it ∈ keys
  | getting it => v.Live it
  | deleting it => v.Live it
  | unlinked it => v.Live it

theorem refs_of_item_ne (other : phase.item ≠ some it) : phase.refs it = 0 := by
  cases phase <;> simp_all [item, refs]

theorem item_of_owns (owns : phase.Owns it) : phase.item = some it := by
  cases phase <;> simp_all [item, Owns]

theorem Held.live (held : phase.Held keys c v) (uses : phase.item = some it) : v.Live it := by
  cases phase <;> simp_all [item, Held]

theorem Held.notStored (held : phase.Held keys c v) (owns : phase.Owns it) : it ∉ v.stored := by
  cases phase <;> simp_all [Owns, Held]

end Phase

/-- What a section leaves alone about an item that it does not work on. -/
structure Untouched (c c' : LruLists) (v v' : View) (it : ℕ) : Prop where
  live : v'.Live it
  notStored : it ∉ v.stored → it ∉ v'.stored
  contents : SameContents c.mem c'.mem it

theorem Phase.Held.congr (held : phase.Held keys c v)
    (untouched : ∀ it, phase.item = some it → Untouched c c' v v' it) :
    phase.Held keys c' v' := by
  cases phase with
  | idle => trivial
  | storing it inbuffer bufflen =>
      rcases held with ⟨⟨live, notStored, isKey⟩, length, bounds⟩
      have kept := untouched it rfl
      exact ⟨⟨kept.live, kept.notStored notStored, kept.contents.key ▸ isKey⟩,
        kept.contents.nbytes.trans length, bounds⟩
  | copied it =>
      rcases held with ⟨live, notStored, isKey⟩
      have kept := untouched it rfl
      exact ⟨kept.live, kept.notStored notStored, kept.contents.key ▸ isKey⟩
  | getting it => exact (untouched it rfl).live
  | deleting it => exact (untouched it rfl).live
  | unlinked it => exact (untouched it rfl).live

/-- The invariant of the threads. -/
structure ThreadsInv (keys : Set (List UInt8)) (s : Threads) (v : View) : Prop where
  cache : CacheInv keys s.cache v
  card : v.stored.card ≤ 2 ^ 30
  held : ∀ thread, (s.phase thread).Held keys s.cache v
  alone : ∀ thread it, (s.phase thread).Owns it → ∀ other, (s.phase other).item = some it →
    other = thread
  counted : ∀ it, v.Live it → ∀ threads : Finset ℕ,
    ∑ thread ∈ threads, (s.phase thread).refs it < s.cache.mem.refcount it

namespace ThreadsInv

theorem live (inv : ThreadsInv keys s v) {thread : ℕ} (uses : (s.phase thread).item = some it) :
    v.Live it :=
  (inv.held thread).live uses

theorem refcount_pos (inv : ThreadsInv keys s v) (live : v.Live it) :
    0 < s.cache.mem.refcount it := by
  simpa using inv.counted it live ∅

/-- A thread that owes a release holds a second reference. -/
theorem refcount_gt (inv : ThreadsInv keys s v) (live : v.Live it) (thread : ℕ) :
    (s.phase thread).refs it < s.cache.mem.refcount it := by
  simpa using inv.counted it live {thread}

theorem card_lt (inv : ThreadsInv keys s v) (few : s.cache.assoc.hashItems < 2 ^ 30) :
    v.stored.card < 2 ^ 30 :=
  inv.cache.card_lt inv.card few

/-- Items of other threads are not among those that a thread owns. -/
theorem not_owns_of_stored (inv : ThreadsInv keys s v) (isStored : it ∈ v.stored) (thread : ℕ) :
    ¬(s.phase thread).Owns it := fun owns =>
  (inv.held thread).notStored owns isStored

theorem enter (inv : ThreadsInv keys s v) {thread : ℕ} (obtained : List ℕ)
    (cache : CacheInv keys c' v') (card : v'.stored.card ≤ 2 ^ 30)
    (held : phase.Held keys c' v')
    (untouched : ∀ other, other ≠ thread → ∀ it, (s.phase other).item = some it →
      Untouched s.cache c' v v' it)
    (alone : ∀ it, phase.Owns it → ∀ other, other ≠ thread → (s.phase other).item ≠ some it)
    (notOwned : ∀ it, phase.item = some it → ∀ other, other ≠ thread → ¬(s.phase other).Owns it)
    (counted : ∀ it, v'.Live it →
      (v.Live it ∧ s.cache.mem.refcount it + phase.refs it ≤
        c'.mem.refcount it + (s.phase thread).refs it) ∨
      (0 < c'.mem.refcount it ∧ phase.refs it = 0 ∧
        ∀ other, other ≠ thread → (s.phase other).item ≠ some it)) :
    ThreadsInv keys { s.enter thread c' phase with obtained } v' where
  cache := cache
  card := card
  held other := by
    by_cases same : other = thread
    · subst same
      simpa [Threads.enter] using held
    · simpa [Threads.enter, same] using (inv.held other).congr (untouched other same)
  alone owner it owns other uses := by
    simp only [Threads.enter] at owns uses
    by_cases isOwner : owner = thread <;> by_cases isUser : other = thread
    · rw [isOwner, isUser]
    · subst isOwner
      rw [Function.update_self] at owns
      rw [Function.update_of_ne isUser] at uses
      exact absurd uses (alone it owns other isUser)
    · subst isUser
      rw [Function.update_of_ne isOwner] at owns
      rw [Function.update_self] at uses
      exact absurd owns (notOwned it uses owner isOwner)
    · rw [Function.update_of_ne isOwner] at owns
      rw [Function.update_of_ne isUser] at uses
      exact inv.alone owner it owns other uses
  counted it live threads := by
    simp only [Threads.enter]
    have rest : ∑ other ∈ threads, (Function.update s.phase thread phase other).refs it ≤
        phase.refs it + ∑ other ∈ threads.erase thread, (s.phase other).refs it := by
      have sameRest : ∑ other ∈ threads.erase thread,
          (Function.update s.phase thread phase other).refs it =
            ∑ other ∈ threads.erase thread, (s.phase other).refs it :=
        Finset.sum_congr rfl fun other isOther => by
          rw [Function.update_of_ne (Finset.ne_of_mem_erase isOther)]
      rw [← sameRest]
      by_cases isThread : thread ∈ threads
      · rw [← Finset.add_sum_erase threads _ isThread, Function.update_self]
      · rw [Finset.erase_eq_of_notMem isThread]
        exact Nat.le_add_left _ _
    rcases counted it live with ⟨wasLive, count⟩ | ⟨positive, noRefs, unused⟩
    · have before := inv.counted it wasLive (insert thread (threads.erase thread))
      rw [Finset.sum_insert (Finset.notMem_erase _ _)] at before
      omega
    · have noOther : ∑ other ∈ threads.erase thread, (s.phase other).refs it = 0 :=
        Finset.sum_eq_zero fun other isOther =>
          Phase.refs_of_item_ne (unused other (Finset.ne_of_mem_erase isOther))
      omega

/-! ## The sections -/

end ThreadsInv

/-- What a step does to the items that are handed out. -/
structure Advances (s s' : Threads) (v v' : View) (gone reset new : List ℕ) : Prop where
  freed : s'.cache.freed = gone ++ s.cache.freed
  repaired : s'.cache.repaired = reset ++ s.cache.repaired
  obtained : s'.obtained = new ++ s.obtained
  picked : ∀ a ∈ gone, a ∈ reset
  live : ∀ a, v'.Live a ↔ v.Live a ∧ a ∉ gone ∨ a ∈ new

theorem Untouched.of_drops {gone : List ℕ} (drops : Drops c c' v v' gone) (live : v.Live it)
    (notGone : it ∉ gone) (notStored : it ∉ v.stored → it ∉ v'.stored) :
    Untouched c c' v v' it where
  live := (drops.live it).mpr ⟨live, notGone⟩
  notStored := notStored
  contents := .of_frame drops.toFrame it

namespace ThreadsInv

variable {thread : ℕ} {key : List UInt8} {sys : System}

theorem leave (inv : ThreadsInv keys s v) (thread : ℕ) :
    ThreadsInv keys (s.enter thread s.cache .idle) v ∧
      Advances s (s.enter thread s.cache .idle) v v [] [] [] := by
  refine ⟨?_, rfl, rfl, rfl, by simp, by simp⟩
  exact inv.enter s.obtained inv.cache inv.card trivial
    (fun other _ it uses => ⟨inv.live uses, id, rfl, rfl, rfl, rfl⟩)
    (fun it owns => owns.elim) (fun it uses => by simp [Phase.item] at uses)
    fun it live => Or.inl ⟨live, Nat.le_add_right _ _⟩

theorem get (inv : ThreadsInv keys s v) (keySet : KeySet keys) (isKey : key ∈ keys)
    (counts : s.cache.CountsOn key) {found : Option ℕ}
    (run : s.cache.itemGet (DataCache.cString key) sys = .ok (c', found)) :
    (found = none ∧ c' = s.cache) ∨
      ∃ it v', found = some it ∧ ∀ phase, phase = .getting it ∨ phase = .deleting it →
        ThreadsInv keys (s.enter thread c' phase) v' ∧
          Advances s (s.enter thread c' phase) v v' [] [] [] := by
  rw [DataCache.itemGet_cString keySet isKey] at run
  rcases LruLists.doItemGet_eq inv.cache keySet isKey (sys.now 0) with
    ⟨missed, -⟩ | ⟨_, v', it, hit, isStored, sameKey, inv', drops, count, repaired, -, stored⟩
  · cases missed.symm.trans run
    exact Or.inl ⟨rfl, rfl⟩
  · cases hit.symm.trans run
    refine Or.inr ⟨it, v', rfl, fun phase isRef => ⟨?_, ?_⟩⟩
    · have room := counts it (inv.cache.assocFind_of_stored keySet isKey isStored sameKey)
      have live := inv.cache.live_of_stored isStored
      refine inv.enter s.obtained inv' (stored ▸ inv.card) ?_ (fun other _ a uses => ?_)
        (fun a owns => ?_) (fun a uses other _ owns => ?_) fun a liveAfter => Or.inl ?_
      · have live' := (drops.live it).mpr ⟨live, List.not_mem_nil⟩
        rcases isRef with rfl | rfl
        · exact live'
        · exact live'
      · exact .of_drops drops (inv.live uses) List.not_mem_nil (stored ▸ id)
      · rcases isRef with rfl | rfl
        · exact owns.elim
        · exact owns.elim
      · have same : it = a := by
          rcases isRef with rfl | rfl
          · exact Option.some.inj uses
          · exact Option.some.inj uses
        exact inv.not_owns_of_stored isStored other (same ▸ owns)
      · refine ⟨((drops.live a).mp liveAfter).1, ?_⟩
        rw [count]
        by_cases same : a = it
        · subst same
          have one : phase.refs a ≤ 1 := by
            rcases isRef with rfl | rfl <;> simp [Phase.refs]
          rw [Function.update_self, Nat.mod_eq_of_lt room]
          exact (Nat.add_le_add_left one _).trans (Nat.le_add_right _ _)
        · have none : phase.refs a = 0 := by
            rcases isRef with rfl | rfl <;> simp [Phase.refs, Ne.symm same]
          rw [Function.update_of_ne same, none]
          simp
    · exact
        { freed := drops.freed
          repaired := repaired
          obtained := rfl
          picked := by simp
          live := fun a => by simp [drops.live] }

/-- Tail repairs that spare the items in use leave no other way to free one. -/
theorem picked_of_noRef (inv : ThreadsInv keys s v) {gone reset : List ℕ}
    (wasStored : ∀ a ∈ gone, a ∈ v.stored)
    (noRef : ∀ a ∈ gone, s.cache.mem.refcount a = 0 ∨ a ∈ reset) : ∀ a ∈ gone, a ∈ reset :=
  fun a isGone => (noRef a isGone).resolve_left
    (inv.refcount_pos (inv.cache.live_of_stored (wasStored a isGone))).ne'

theorem alloc (inv : ThreadsInv keys s v) (keySet : KeySet keys) (isKey : key ∈ keys)
    (sane : ∀ j, (sys.os j).Sane s.cache.slabs) {inbuffer : ℕ → UInt8}
    {bufflen : ℤ} (bound : bufflen < 2 ^ 31) {found : Option ℕ}
    (nonneg : found ≠ none → 0 ≤ bufflen)
    (run : s.cache.itemAlloc (DataCache.cString key) bufflen sys = .ok (c', found))
    (spares : ∃ reset, c'.repaired = reset ++ s.cache.repaired ∧
      ∀ a ∈ reset, ∀ thread, (s.phase thread).item ≠ some a) {phase : Phase}
    (isNext : phase = found.elim .idle (.storing · inbuffer bufflen)) {s' : Threads}
    (next : s' = { s.enter thread c' phase with
      obtained := phase.allocated.toList ++ s.obtained }) :
    ∃ v' gone reset, ThreadsInv keys s' v' ∧
      Advances s s' v v' gone reset phase.allocated.toList := by
  rw [keySet.cString_eq isKey] at run
  rcases spares with ⟨spared, repaired, unused⟩
  have notGone {gone reset : List ℕ} (picked : ∀ a ∈ gone, a ∈ reset)
      (repaired' : c'.repaired = reset ++ s.cache.repaired) {other a : ℕ}
      (uses : (s.phase other).item = some a) : a ∉ gone := fun isGone => by
    have same := List.append_cancel_right (repaired.symm.trans repaired')
    exact unused a (same ▸ picked a isGone) other uses
  cases found with
  | none =>
      rcases LruLists.of_doItemAlloc inv.cache keySet sane run with ⟨-, reclaimed, -⟩
      rcases reclaimed rfl with ⟨v', gone, reset, inv', reclaims⟩
      obtain rfl : phase = .idle := isNext
      subst next
      have picked := inv.picked_of_noRef reclaims.wasStored reclaims.noRef
      refine ⟨v', gone, reset, ?_, ?_⟩
      · refine inv.enter _ inv' ?_ trivial (fun other _ a uses => ?_)
          (fun a owns => owns.elim) (fun a uses => by simp [Phase.item] at uses)
          fun a liveAfter => Or.inl ?_
        · refine (Finset.card_le_card fun b isStored => ?_).trans inv.card
          exact ((reclaims.stored b).mp isStored).1
        · refine .of_drops reclaims.toDrops (inv.live uses)
            (notGone picked reclaims.repaired uses) ?_
          exact fun notStored isStored => notStored ((reclaims.stored a).mp isStored).1
        · rcases (reclaims.live a).mp liveAfter with ⟨live, stays⟩
          refine ⟨live, ?_⟩
          rw [reclaims.refcount a fun isReset => stays (reclaims.resetGone a isReset)]
          exact Nat.le_add_right _ _
      · exact
          { freed := reclaims.freed
            repaired := reclaims.repaired
            obtained := rfl
            picked := picked
            live := fun a => by simp [reclaims.live, Phase.allocated] }
  | some it =>
      obtain rfl : phase = .storing it inbuffer bufflen := isNext
      subst next
      have positive := nonneg (by simp)
      rcases LruLists.doItemAlloc_eq inv.cache keySet sane (keySet.short key isKey) positive bound
        with ⟨_, _, _, _, failed, -⟩ | ⟨_, v', gone, reset, a, done, inv', allocates, -⟩
      · cases failed.symm.trans run
      · cases done.symm.trans run
        have picked := inv.picked_of_noRef allocates.wasStored allocates.noRef
        have other_ne {other b : ℕ} (uses : (s.phase other).item = some b) : b ≠ it := by
          rintro rfl
          exact allocates.fresh ⟨inv.live uses, notGone picked allocates.repaired uses⟩
        have notStored : it ∉ v'.stored := fun isStored => by
          have wasStored := (allocates.stored it).mp isStored
          exact allocates.fresh ⟨inv.cache.live_of_stored wasStored.1, wasStored.2⟩
        refine ⟨v', gone, reset, ?_, ?_⟩
        · refine inv.enter _ inv' ?_ ?_ (fun other _ b uses => ?_) (fun b owns other _ uses => ?_)
            (fun b uses other _ owns => ?_) fun b liveAfter => ?_
          · refine (Finset.card_le_card fun b isStored => ?_).trans inv.card
            exact ((allocates.stored b).mp isStored).1
          · exact ⟨⟨(allocates.live it).mpr (Or.inr rfl), notStored,
              allocates.key_new.symm ▸ isKey⟩, allocates.nbytes_new, positive, bound⟩
          · have stays := notGone picked allocates.repaired uses
            exact
              { live := (allocates.live b).mpr (Or.inl ⟨inv.live uses, stays⟩)
                notStored := fun notStored isStored =>
                  notStored ((allocates.stored b).mp isStored).1
                contents := allocates.contents b (inv.live uses) (other_ne uses) }
          · obtain rfl : it = b := owns
            exact other_ne uses rfl
          · obtain rfl : it = b := Option.some.inj uses
            exact other_ne (Phase.item_of_owns owns) rfl
          · by_cases same : b = it
            · subst same
              refine Or.inr ⟨?_, rfl, fun other _ uses => other_ne uses rfl⟩
              rw [allocates.refcount_new]
              exact Nat.one_pos
            · rcases ((allocates.live b).mp liveAfter).resolve_right same with ⟨live, stays⟩
              refine Or.inl ⟨live, ?_⟩
              rw [allocates.refcount b live
                (fun isReset => stays (allocates.resetGone b isReset)) same]
              exact Nat.le_add_right _ _
        · exact
            { freed := allocates.freed
              repaired := allocates.repaired
              obtained := rfl
              picked := picked
              live := fun b => by simp [allocates.live, Phase.allocated] }

theorem copy (inv : ThreadsInv keys s v) {inbuffer : ℕ → UInt8} {bufflen : ℤ}
    (storing : s.phase thread = .storing it inbuffer bufflen)
    (run : DataCache.copyIn s.cache it inbuffer bufflen = .ok c') :
    ThreadsInv keys (s.enter thread c' (.copied it)) v ∧
      Advances s (s.enter thread c' (.copied it)) v v [] [] [] := by
  have held := inv.held thread
  rw [storing] at held
  rcases held with ⟨⟨live, notStored, isKey⟩, length, positive, bound⟩
  cases (DataCache.copyIn_eq inv.cache live inbuffer positive bound length).symm.trans run
  have owns : (s.phase thread).Owns it := by
    rw [storing]
    rfl
  refine ⟨?_, rfl, rfl, rfl, by simp, by simp⟩
  refine inv.enter s.obtained (DataCache.cacheInv_withData inv.cache notStored _) inv.card
    ⟨live, notStored, ?_⟩ (fun other isOther a uses => ?_) (fun a owned other isOther uses => ?_)
    (fun a uses other isOther owned => ?_) fun a live => Or.inl ⟨live, Nat.le_add_right _ _⟩
  · change (DataCache.withData s.cache it _).mem.key it ∈ keys
    rwa [DataCache.key_withData]
  · have differs : a ≠ it := by
      rintro rfl
      exact isOther (inv.alone thread a owns other uses)
    exact ⟨inv.live uses, id, rfl, rfl, Function.update_of_ne differs _ _, rfl⟩
  · obtain rfl : it = a := owned
    exact isOther (inv.alone thread it owns other uses)
  · obtain rfl : it = a := Option.some.inj uses
    exact isOther (inv.alone thread it owns other (Phase.item_of_owns owned))

theorem store (inv : ThreadsInv keys s v) (keySet : KeySet keys)
    (copied : s.phase thread = .copied it) (few : s.cache.assoc.hashItems < 2 ^ 30)
    (counts : s.cache.CountsOn (s.cache.mem.key it)) (sane : ∀ j, (sys.os j).Sane s.cache.slabs)
    (run : s.cache.storeItem it sys = .ok c') :
    ∃ v', ThreadsInv keys (s.enter thread c' .idle) v' ∧
      Advances s (s.enter thread c' .idle) v v' [] [] [] := by
  have held := inv.held thread
  rw [copied] at held
  rcases held with ⟨live, notStored, isKey⟩
  have card : v.stored.card < 2 ^ 30 := inv.card_lt few
  rcases LruLists.storeItem_eq inv.cache keySet live notStored
    isKey card sys fun j => (sane j).fits with ⟨_, v', gone, run', inv', stores⟩
  cases run'.symm.trans run
  have owns : (s.phase thread).Owns it := by
    rw [copied]
    rfl
  -- the item that is replaced carries a reference, so that its counter does not return to zero
  have room {a : ℕ} (isStored : a ∈ v.stored)
      (sameKey : s.cache.mem.key a = s.cache.mem.key it) :
      (s.cache.mem.refcount a + 1) % 2 ^ 16 = s.cache.mem.refcount a + 1 := by
    refine Nat.mod_eq_of_lt (counts a ?_)
    exact inv.cache.assocFind_of_stored keySet isKey isStored sameKey
  obtain rfl : gone = [] := by
    refine List.eq_nil_iff_forall_not_mem.mpr fun a isGone => ?_
    rcases (stores.mem_gone a).mp isGone with ⟨isStored, sameKey, last⟩
    have positive := inv.refcount_pos (inv.cache.live_of_stored isStored)
    rw [room isStored sameKey] at last
    omega
  have refcount (a : ℕ) : c'.mem.refcount a = s.cache.mem.refcount a := by
    by_cases replaced : a ∈ v.stored ∧ s.cache.mem.key a = s.cache.mem.key it
    · rw [stores.refcount_old a replaced.1 replaced.2, room replaced.1 replaced.2,
        Nat.add_sub_cancel]
    · exact stores.refcount a fun isStored sameKey => replaced ⟨isStored, sameKey⟩
  refine ⟨v', ?_, stores.freed, stores.repaired, rfl, by simp, fun a => by simp [stores.live]⟩
  refine inv.enter s.obtained inv' ?_ trivial (fun other isOther a uses => ?_)
    (fun a owned => owned.elim) (fun a uses => by simp [Phase.item] at uses)
    fun a liveAfter => Or.inl ⟨((stores.live a).mp liveAfter).1, ?_⟩
  · exact stores.card.trans card
  · have differs : a ≠ it := by
      rintro rfl
      exact isOther (inv.alone thread a owns other uses)
    exact
      { live := (stores.live a).mpr ⟨inv.live uses, List.not_mem_nil⟩
        notStored := fun notStored isStored =>
          notStored (((stores.stored a).mp isStored).resolve_left differs).1
        contents := ⟨congrFun stores.nkey a, congrFun stores.nbytes a, congrFun stores.bytes a,
          stores.hv a differs⟩ }
  · rw [refcount]
    exact Nat.le_add_right _ _

theorem unlink (inv : ThreadsInv keys s v) (keySet : KeySet keys)
    (deleting : s.phase thread = .deleting it) (sane : ∀ j, (sys.os j).Sane s.cache.slabs)
    (run : s.cache.itemUnlink it sys = .ok c') :
    ∃ v', ThreadsInv keys (s.enter thread c' (.unlinked it)) v' ∧
      Advances s (s.enter thread c' (.unlinked it)) v v' [] [] [] := by
  have live : v.Live it :=
    inv.live (show (s.phase thread).item = some it by rw [deleting]; rfl)
  rcases LruLists.doItemUnlink_eq inv.cache keySet live (sane 0).fits with
    ⟨_, v', run', inv', unlinks⟩
  cases run'.symm.trans run
  have drops := unlinks.drops
  rw [if_neg fun ⟨_, noRef⟩ => (inv.refcount_pos live).ne' noRef] at drops
  refine ⟨v', ?_, drops.freed, unlinks.repaired, rfl, by simp, fun a => by simp [drops.live]⟩
  refine inv.enter s.obtained inv' ?_ ((drops.live it).mpr ⟨live, List.not_mem_nil⟩)
    (fun other _ a uses => ?_) (fun a owned => owned.elim) (fun a uses other isOther owned => ?_)
    fun a liveAfter => Or.inl ⟨((drops.live a).mp liveAfter).1, ?_⟩
  · rw [unlinks.stored]
    exact Finset.card_erase_le.trans inv.card
  · refine .of_drops drops (inv.live uses) List.not_mem_nil fun notStored isStored => ?_
    rw [unlinks.stored] at isStored
    exact notStored (Finset.mem_of_mem_erase isStored)
  · obtain rfl : it = a := Option.some.inj uses
    have own := inv.alone other it owned thread (by rw [deleting]; rfl)
    exact isOther own.symm
  · rw [unlinks.refcount, deleting]
    exact le_rfl

theorem release (inv : ThreadsInv keys s v) (unlinked : s.phase thread = .unlinked it)
    (sane : ∀ j, (sys.os j).Sane s.cache.slabs) (run : s.cache.itemRelease it sys = .ok c') :
    ∃ v', ThreadsInv keys (s.enter thread c' .idle) v' ∧
      Advances s (s.enter thread c' .idle) v v' [] [] [] := by
  have live : v.Live it :=
    inv.live (show (s.phase thread).item = some it by rw [unlinked]; rfl)
  have isChunk := inv.cache.slabs.mem_chunks_of_mem_out (inv.cache.mem_out_clsid live)
  rcases LruLists.doItemRelease_eq inv.cache isChunk (fun notLive => absurd live notLive)
    (sane 0).fits with ⟨_, v', run', inv', drops, count, repaired, stored⟩
  cases run'.symm.trans run
  have second : 1 < s.cache.mem.refcount it := by
    simpa [unlinked, Phase.refs] using inv.refcount_gt live thread
  rw [if_neg (by omega)] at drops
  refine ⟨v', ?_, drops.freed, repaired, rfl, by simp, fun a => by simp [drops.live]⟩
  refine inv.enter s.obtained inv' (stored ▸ inv.card) trivial (fun other _ a uses => ?_)
    (fun a owned => owned.elim) (fun a uses => by simp [Phase.item] at uses)
    fun a liveAfter => Or.inl ⟨((drops.live a).mp liveAfter).1, ?_⟩
  · exact .of_drops drops (inv.live uses) List.not_mem_nil (stored ▸ id)
  · rw [count, unlinked]
    by_cases same : a = it
    · subst same
      simp only [Function.update_self, Phase.refs, if_true]
      omega
    · simp [same, Phase.refs]

theorem maintain (inv : ThreadsInv keys s v) (run : s.cache.maintenance = .ok c') :
    ∃ v', ThreadsInv keys { s with cache := c' } v' ∧
      Advances s { s with cache := c' } v v' [] [] [] := by
  rcases LruLists.maintenance_eq inv.cache with ⟨_, v', run', inv', migrates⟩
  cases run'.symm.trans run
  have drops := migrates.toDrops
  refine ⟨v', ?_, drops.freed, migrates.repaired, rfl, by simp, fun a => by simp [drops.live]⟩
  exact
    { cache := inv'
      card := migrates.stored ▸ inv.card
      held := fun thread => (inv.held thread).congr fun a uses =>
        .of_drops drops (inv.live uses) List.not_mem_nil (migrates.stored ▸ id)
      alone := inv.alone
      counted := fun a live threads => by
        change _ < c'.mem.refcount a
        rw [migrates.refcount]
        exact inv.counted a (migrates.live.mp live) threads }

/-! ## Steps and runs -/

/-- A guarded step whose tail repair spares the items in use keeps the invariant. -/
theorem advance (inv : ThreadsInv keys s v) (keySet : KeySet keys) {action : Action}
    (guarded : Threads.Guarded keys s s' action) (spares : Threads.SparesUsed s s') :
    ∃ v' gone reset new, ThreadsInv keys s' v' ∧ Advances s s' v v' gone reset new := by
  have regular := guarded.regular
  have noWrap := guarded.noWrap
  cases action with
  | call thread call sys =>
      rcases regular with ⟨-, valid, sane, -⟩
      rcases bind_eq_ok.mp guarded.run with ⟨⟨_, _⟩, started, next⟩
      cases call with
      | get key =>
          rcases bind_eq_ok.mp started with ⟨⟨c', found⟩, got, rest⟩
          cases rest
          cases next
          rcases inv.get keySet valid noWrap got with ⟨rfl, rfl⟩ | ⟨it, v', rfl, result⟩
          · exact ⟨v, [], [], [], inv.leave thread⟩
          · exact ⟨v', [], [], [], result _ (Or.inl rfl)⟩
      | store key inbuffer bufflen =>
          rcases bind_eq_ok.mp started with ⟨⟨c', found⟩, obtained, rest⟩
          cases rest
          cases next
          have positive (isSome : found ≠ none) : 0 ≤ bufflen := by
            rcases Option.ne_none_iff_exists'.mp isSome with ⟨it, rfl⟩
            refine guarded.positive.resolve_right ?_
            simp [Phase.allocated]
          rcases inv.alloc keySet valid.1 sane valid.2 positive obtained spares rfl rfl with
            ⟨v', gone, reset, result⟩
          exact ⟨v', gone, reset, _, result⟩
      | delete key =>
          rcases bind_eq_ok.mp started with ⟨⟨c', found⟩, got, rest⟩
          cases rest
          cases next
          rcases inv.get keySet valid noWrap got with ⟨rfl, rfl⟩ | ⟨it, v', rfl, result⟩
          · exact ⟨v, [], [], [], inv.leave thread⟩
          · exact ⟨v', [], [], [], result _ (Or.inr rfl)⟩
  | resume thread sys =>
      rcases regular with ⟨busy, -, sane, few⟩
      rcases bind_eq_ok.mp guarded.run with ⟨⟨_, _⟩, resumed, next⟩
      cases current : s.phase thread with
      | idle => exact absurd current busy
      | storing it inbuffer bufflen =>
          rw [current] at resumed
          rcases bind_eq_ok.mp resumed with ⟨c', copied, rest⟩
          cases rest
          cases next
          exact ⟨v, [], [], [], inv.copy current copied⟩
      | copied it =>
          rw [current] at resumed
          rcases bind_eq_ok.mp resumed with ⟨c', stored, rest⟩
          cases rest
          cases next
          rcases inv.store keySet current few (noWrap it current) sane stored with ⟨v', result⟩
          exact ⟨v', [], [], [], result⟩
      | getting it =>
          rw [current] at resumed
          cases resumed
          cases next
          exact ⟨v, [], [], [], inv.leave thread⟩
      | deleting it =>
          rw [current] at resumed
          rcases bind_eq_ok.mp resumed with ⟨c', isUnlinked, rest⟩
          cases rest
          cases next
          rcases inv.unlink keySet current sane isUnlinked with ⟨v', result⟩
          exact ⟨v', [], [], [], result⟩
      | unlinked it =>
          rw [current] at resumed
          rcases bind_eq_ok.mp resumed with ⟨c', released, rest⟩
          cases rest
          cases next
          rcases inv.release current sane released with ⟨v', result⟩
          exact ⟨v', [], [], [], result⟩
  | maintain =>
      rcases bind_eq_ok.mp guarded.run with ⟨c', pass, next⟩
      cases next
      rcases inv.maintain pass with ⟨v', result⟩
      exact ⟨v', [], [], [], result⟩

theorem returns (inv : ThreadsInv keys s v) (keySet : KeySet keys) {action : Action}
    (regular : s.Regular keys action) (positive : action.Positive) :
    ∃ s', s.step action = .ok s' := by
  cases action with
  | call thread call sys =>
      rcases regular with ⟨-, valid, sane, -⟩
      obtain ⟨result, started⟩ : ∃ result, call.start s.cache sys = .ok result := by
        cases call with
        | get key =>
            have got := DataCache.itemGet_cString keySet valid s.cache sys
            rcases LruLists.doItemGet_eq inv.cache keySet valid (sys.now 0) with
              ⟨run, -⟩ | ⟨c', v', it, run, -⟩
            · exact ⟨_, bind_of_ok (got.trans run) rfl⟩
            · exact ⟨_, bind_of_ok (got.trans run) rfl⟩
        | store key inbuffer bufflen =>
            rcases valid with ⟨isKey, bound⟩
            have cString := keySet.cString_eq isKey
            rcases LruLists.doItemAlloc_eq inv.cache keySet sane (keySet.short key isKey) positive
              bound with ⟨c', v', gone, reset, run, -⟩ | ⟨c', v', gone, reset, a, run, -⟩
            · rw [← cString] at run
              exact ⟨_, bind_of_ok run rfl⟩
            · rw [← cString] at run
              exact ⟨_, bind_of_ok run rfl⟩
        | delete key =>
            have got := DataCache.itemGet_cString keySet valid s.cache sys
            rcases LruLists.doItemGet_eq inv.cache keySet valid (sys.now 0) with
              ⟨run, -⟩ | ⟨c', v', it, run, -⟩
            · exact ⟨_, bind_of_ok (got.trans run) rfl⟩
            · exact ⟨_, bind_of_ok (got.trans run) rfl⟩
      exact ⟨_, bind_of_ok started rfl⟩
  | resume thread sys =>
      rcases regular with ⟨busy, -, sane, few⟩
      have held := inv.held thread
      obtain ⟨result, resumed⟩ :
          ∃ result, (s.phase thread).resume s.cache sys = .ok result := by
        cases current : s.phase thread with
        | idle => exact absurd current busy
        | storing it inbuffer bufflen =>
            rw [current] at held
            rcases held with ⟨⟨live, -, -⟩, length, positive, bound⟩
            have run := DataCache.copyIn_eq inv.cache live inbuffer positive bound length
            exact ⟨_, bind_of_ok run rfl⟩
        | copied it =>
            rw [current] at held
            rcases held with ⟨live, notStored, isKey⟩
            rcases LruLists.storeItem_eq inv.cache keySet live notStored
              isKey (inv.card_lt few) sys fun j => (sane j).fits with ⟨c', v', gone, run, -⟩
            exact ⟨_, bind_of_ok run rfl⟩
        | getting it => exact ⟨_, rfl⟩
        | deleting it =>
            rw [current] at held
            rcases LruLists.doItemUnlink_eq inv.cache keySet held (sane 0).fits with
              ⟨c', v', run, -⟩
            exact ⟨_, bind_of_ok run rfl⟩
        | unlinked it =>
            rw [current] at held
            have live : v.Live it := held
            have isChunk := inv.cache.slabs.mem_chunks_of_mem_out (inv.cache.mem_out_clsid live)
            rcases LruLists.doItemRelease_eq inv.cache isChunk
              (fun notLive => absurd live notLive) (sane 0).fits with ⟨c', v', run, -⟩
            exact ⟨_, bind_of_ok run rfl⟩
      exact ⟨_, bind_of_ok resumed rfl⟩
  | maintain =>
      rcases LruLists.maintenance_eq inv.cache with ⟨c', v', run, -⟩
      exact ⟨_, bind_of_ok run rfl⟩

end ThreadsInv

namespace Threads

open Relation

/-- A step whose tail repair spares the items in use. -/
def SparingStep (keys : Set (List UInt8)) (s s' : Threads) : Prop :=
  ∃ action, Guarded keys s s' action ∧ SparesUsed s s'

/-- A step in which the tail repair does not fire. -/
def QuietStep (keys : Set (List UInt8)) (s s' : Threads) : Prop :=
  ∃ action, Guarded keys s s' action ∧ s'.cache.repaired = s.cache.repaired

theorem sparingStep_of_quietStep (step : QuietStep keys s s') :
    SparingStep keys s s' := by
  rcases step with ⟨action, guarded, quiet⟩
  exact ⟨action, guarded, [], quiet, by simp⟩

theorem of_exec_cons {action : Action} {rest : List Action}
    (run : s.exec (action :: rest) = some s') :
    s.Enabled action ∧ ∃ s₁, s.step action = .ok s₁ ∧ s₁.exec rest = some s' := by
  by_cases enabled : s.Enabled action
  · rw [exec, if_pos enabled] at run
    cases next : s.step action with
    | error fault => simp [next, Except.toOption] at run
    | ok s₁ => exact ⟨enabled, s₁, rfl, by simpa [next, Except.toOption] using run⟩
  · rw [exec, if_neg enabled] at run
    cases run

theorem run_of_exec {actions : List Action}
    (sane : ∀ action ∈ actions, ∀ slabs, action.Sane slabs) (run : s.exec actions = some s') :
    ReflTransGen SaneStep s s' := by
  induction actions generalizing s with
  | nil =>
      cases run
      exact .refl
  | cons action rest ih =>
      rcases of_exec_cons run with ⟨enabled, s₁, next, run⟩
      have first : SaneStep s s₁ := ⟨action, enabled, sane action (by simp) _, next⟩
      exact .head first (ih (fun later isLater => sane later (by simp [isLater])) run)

/-- No thread is in a call of a new cache. -/
theorem inv_of_new (cache : CacheInv keys c View.empty) : ThreadsInv keys (init c) View.empty where
  cache := cache
  card := Nat.zero_le _
  held _ := trivial
  alone _ _ owns := owns.elim
  counted it live := by simp [View.Live, View.empty] at live

theorem inv_init (keys : Set (List UInt8)) {mem : Mem} {cacheSize : ℕ} {os : Os}
    {initialMalloc : Option ℕ}
    (created : DataCache.create .zero .zero mem cacheSize os initialMalloc = .ok c) :
    ThreadsInv keys (init c) View.empty := by
  cases (DataCache.create_eq mem cacheSize os initialMalloc).symm.trans created
  exact inv_of_new (DataCache.cacheInv_new keys mem cacheSize _)

theorem inv_of_run (keySet : KeySet keys) {mem : Mem} {cacheSize : ℕ} {os : Os}
    {initialMalloc : Option ℕ}
    (created : DataCache.create .zero .zero mem cacheSize os initialMalloc = .ok c)
    (run : ReflTransGen (SparingStep keys) (init c) s) : ∃ v, ThreadsInv keys s v := by
  induction run with
  | refl => exact ⟨_, inv_init keys created⟩
  | tail _ step ih =>
      rcases ih with ⟨v, inv⟩
      rcases step with ⟨action, guarded, spares⟩
      rcases inv.advance keySet guarded spares with ⟨v', gone, reset, new, inv', -⟩
      exact ⟨v', inv'⟩

end Threads

/-! ## Runs that can be computed -/

instance (c : LruLists) (key : List UInt8) : Decidable (c.CountsOn key) :=
  match found : c.assoc.assocFind c.mem (hashKey key) key with
  | .ok (some it) =>
      decidable_of_iff (c.mem.refcount it + 1 < 2 ^ 16) (by simp [LruLists.CountsOn, found])
  | .ok none => .isTrue (by simp [LruLists.CountsOn, found])
  | .error _ => .isTrue (by simp [LruLists.CountsOn, found])

namespace Threads

instance (s : Threads) (action : Action) : Decidable (s.NoWrap action) :=
  match action with
  | .call _ (.get key) _ => inferInstanceAs (Decidable (s.cache.CountsOn key))
  | .call _ (.store _ _ _) _ => .isTrue trivial
  | .call _ (.delete key) _ => inferInstanceAs (Decidable (s.cache.CountsOn key))
  | .resume thread _ =>
      match phase : s.phase thread with
      | .copied it =>
          decidable_of_iff (s.cache.CountsOn (s.cache.mem.key it)) (by simp [NoWrap, phase])
      | .idle => .isTrue (by simp [NoWrap, phase])
      | .storing _ _ _ => .isTrue (by simp [NoWrap, phase])
      | .getting _ => .isTrue (by simp [NoWrap, phase])
      | .deleting _ => .isTrue (by simp [NoWrap, phase])
      | .unlinked _ => .isTrue (by simp [NoWrap, phase])
  | .maintain => .isTrue trivial

/-- The maintenance thread makes a pass only while the table expands. -/
def Due (s : Threads) : Action → Prop
  | .maintain => s.cache.assoc.expanding = true
  | _ => True

instance (s : Threads) (action : Action) : Decidable (s.Due action) :=
  match action with
  | .call _ _ _ => .isTrue trivial
  | .resume _ _ => .isTrue trivial
  | .maintain => inferInstanceAs (Decidable (_ = _))

/-- The state after an action that is due, may come next and wraps no counter, if it returns and no
tail repair fires. -/
def calmStep (s : Threads) (action : Action) : Option Threads :=
  if s.Due action ∧ s.Enabled action ∧ s.NoWrap action ∧ s.cache.assoc.hashItems < 2 ^ 30 then
    (s.step action).toOption.filter fun s' => s'.cache.repaired = s.cache.repaired
  else none

def calmExec (s : Threads) (actions : List Action) : Option Threads := actions.foldlM calmStep s

theorem of_calmStep {action : Action} (valid : action.Valid keys) (positive : action.Positive)
    (sane : action.Sane s.cache.slabs) (run : s.calmStep action = some s') :
    Guarded keys s s' action ∧ s'.cache.repaired = s.cache.repaired ∧ s.Due action := by
  simp only [calmStep] at run
  split at run
  case isTrue conditions =>
    rcases conditions with ⟨due, enabled, noWrap, few⟩
    rcases Option.filter_eq_some_iff.mp run with ⟨step, quiet⟩
    exact ⟨⟨⟨enabled, valid, sane, few⟩, noWrap, toOption_eq_some.mp step, Or.inl positive⟩,
      of_decide_eq_true quiet, due⟩
  case isFalse => cases run

/-- What the steps of a computed run keep holds at its end. -/
theorem calmExec_induction {motive : Threads → Prop}
    (next : ∀ s s' action, Guarded keys s s' action → s'.cache.repaired = s.cache.repaired →
      s.Due action → motive s → motive s') {actions : List Action}
    (contract : ∀ action ∈ actions,
      action.Valid keys ∧ action.Positive ∧ ∀ slabs, action.Sane slabs)
    (start : motive s) (run : s.calmExec actions = some s') : motive s' := by
  induction actions generalizing s with
  | nil =>
      cases run
      exact start
  | cons action rest ih =>
      rw [calmExec, List.foldlM_cons] at run
      rcases Option.bind_eq_some_iff.mp run with ⟨s₁, first, others⟩
      rcases List.forall_mem_cons.mp contract with ⟨⟨valid, positive, sane⟩, contracts⟩
      rcases of_calmStep valid positive (sane _) first with ⟨guarded, quiet, due⟩
      exact ih contracts (next s s₁ action guarded quiet due start) others

theorem phase_of_calmExec {actions : List Action} {thread : ℕ}
    (others : ∀ action ∈ actions, action.actor ≠ some thread)
    (run : s.calmExec actions = some s') : s'.phase thread = s.phase thread := by
  induction actions generalizing s with
  | nil =>
      cases run
      rfl
  | cons action rest ih =>
      rw [calmExec, List.foldlM_cons] at run
      rcases Option.bind_eq_some_iff.mp run with ⟨s₁, first, run⟩
      rcases List.forall_mem_cons.mp others with ⟨other, others⟩
      simp only [calmStep] at first
      split at first
      case isTrue =>
        have step := toOption_eq_some.mp (Option.filter_eq_some_iff.mp first).1
        exact (ih others run).trans (phase_of_step step other)
      case isFalse => cases first

abbrev oneByteKeys : Set (List UInt8) := keysOfLength 1

theorem keySet_oneByteKeys : KeySet oneByteKeys := keySet_keysOfLength (by decide)

/-- A thread allocates an item for the key `k`, in the first page. -/
def firstStore : Action := .call 0 (.store [107] (fun _ => 7) 1) (DataCache.onePage 1048512 4096 0)

theorem of_calmStep_firstStore (noSlabs : ∀ id, (s.cache.slabs.slabclass id).slabList = [])
    (run : s.calmStep firstStore = some s') :
    Guarded oneByteKeys s s' firstStore ∧ s'.cache.repaired = s.cache.repaired ∧
      s.Due firstStore :=
  of_calmStep ⟨⟨rfl, by decide⟩, by decide⟩ (show (0 : ℤ) ≤ 1 by decide)
    (DataCache.sane_onePage noSlabs (by decide) 0) run

/-- Two threads share the cache: `k` is stored, copied out while it is replaced, and deleted while
`l` is stored. -/
def sharing : List Action :=
  let quietly := DataCache.outOfMemory 0
  [.resume 0 quietly, .resume 0 quietly, .call 1 (.get [107]) quietly,
    .call 0 (.store [107] (fun _ => 8) 1) quietly, .resume 0 quietly, .resume 1 quietly,
    .resume 0 quietly, .call 1 (.delete [107]) quietly,
    .call 0 (.store [108] (fun _ => 9) 1) quietly, .resume 1 quietly, .resume 0 quietly,
    .resume 1 quietly, .resume 0 quietly]

theorem contract_sharing : ∀ action ∈ sharing,
    action.Valid oneByteKeys ∧ action.Positive ∧ ∀ slabs, action.Sane slabs := by
  have isK : [107] ∈ oneByteKeys := ⟨rfl, by decide⟩
  have isL : [108] ∈ oneByteKeys := ⟨rfl, by decide⟩
  simp [sharing, Action.Valid, Call.Valid, Action.Positive, Action.Sane,
    DataCache.sane_outOfMemory, isK, isL]

theorem actor_sharing : ∀ action ∈ firstStore :: sharing,
    action.actor = some 0 ∨ action.actor = some 1 := by
  simp [firstStore, sharing, Action.actor]

/-- What quiet steps keep holds in a state in which all calls have returned, three items have been
obtained, and one of them is linked. -/
theorem sharing_induction {motive : Threads → Prop}
    (next : ∀ s s' action, Guarded oneByteKeys s s' action →
      s'.cache.repaired = s.cache.repaired → s.Due action → motive s → motive s')
    (start : motive (init (DataCache.new .zero 64 0))) :
    ∃ s, motive s ∧ s.Quiescent ∧ s.obtained = [4288, 4192, 4096] ∧
      s.cache.assoc.assocFind s.cache.mem (hashKey [108]) [108] = .ok (some 4288) ∧
      s.cache.assoc.assocFind s.cache.mem (hashKey [107]) [107] = .ok none := by
  have facts : ((init (DataCache.new .zero 64 0)).calmExec (firstStore :: sharing)).map
      (fun s => (decide ((s.phase 0).item = none ∧ (s.phase 1).item = none), s.obtained,
        (s.cache.assoc.assocFind s.cache.mem (hashKey [108]) [108]).toOption,
        (s.cache.assoc.assocFind s.cache.mem (hashKey [107]) [107]).toOption)) =
      some (true, [4288, 4192, 4096], some (some 4288), some none) := by
    decide +kernel
  rcases Option.map_eq_some_iff.mp facts with ⟨s, run, all⟩
  simp only [Prod.mk.injEq, decide_eq_true_eq, Phase.item_eq_none, toOption_eq_some] at all
  rcases all with ⟨⟨idle₀, idle₁⟩, obtained, linked, deleted⟩
  have idle (thread : ℕ) (other : 1 < thread) : s.phase thread = .idle := by
    refine phase_of_calmExec (fun action isIn own => ?_) run
    rcases actor_sharing action isIn with isFirst | isSecond
    · cases isFirst.symm.trans own
      exact absurd other (by decide)
    · cases isSecond.symm.trans own
      exact absurd other (by decide)
  rw [calmExec, List.foldlM_cons] at run
  rcases Option.bind_eq_some_iff.mp run with ⟨s₁, first, others⟩
  rcases of_calmStep_firstStore (DataCache.noSlabs_new 64 0) first with ⟨guarded, quiet, due⟩
  have stored := next _ s₁ firstStore guarded quiet due start
  have reached := calmExec_induction next contract_sharing stored others
  refine ⟨s, reached, fun thread => ?_, obtained, linked, deleted⟩
  match thread with
  | 0 => exact idle₀
  | 1 => exact idle₁
  | thread + 2 => exact idle _ (by omega)

/-- The run of the two threads is quiet. -/
theorem quiet_sharing : ∃ s,
    Relation.ReflTransGen (QuietStep oneByteKeys) (init (DataCache.new .zero 64 0)) s ∧
      s.Quiescent ∧ s.obtained = [4288, 4192, 4096] ∧
      s.cache.assoc.assocFind s.cache.mem (hashKey [108]) [108] = .ok (some 4288) ∧
      s.cache.assoc.assocFind s.cache.mem (hashKey [107]) [107] = .ok none :=
  sharing_induction (fun _ _ action guarded quiet _ run => run.tail ⟨action, guarded, quiet⟩) .refl

end Threads

end ChaosCache
