import ChaosCache.Threads.Linearizability

/-!
# The copies outside the lock

`getItem` and `storeItem` copy the value while they do not hold the cache lock. Here a `memcpy`
goes byte by byte, in any order, and between two of its bytes the other threads take any steps of
theirs: sections of the cache and bytes of their own copies.
-/

namespace ChaosCache

open Linearizability

/-- The arguments of a `memcpy` of a value, and the bytes that have been copied. The value of an
item starts at an offset behind its header. -/
structure Memcpy where
  offset : ℕ
  length : ℕ
  copied : Finset ℕ
  deriving DecidableEq

/-- Threads that may be in a `memcpy`, with the buffers that `getItem` copies to. -/
structure FineThreads where
  threads : Threads
  memcpy : ℕ → Option Memcpy
  outbuffer : ℕ → ℕ → UInt8

/-- What a thread does next. -/
inductive FineAction where
  /-- A section under the cache lock -/
  | locked (action : Action)
  /-- The evaluation of the arguments of `memcpy` -/
  | arguments (thread : ℕ)
  | copyByte (thread : ℕ) (i : ℕ)
  /-- The return of `memcpy` -/
  | copied (thread : ℕ)

/-- The byte at a position behind the header of an item is written. -/
def LruLists.setByte (c : LruLists) (it position : ℕ) (byte : UInt8) : LruLists :=
  { c with
    mem := { c.mem with
      bytes := Function.update c.mem.bytes it
        (Function.update (c.mem.bytes it) position byte) } }

namespace FineThreads

def init (cache : LruLists) (outbuffer : ℕ → ℕ → UInt8) : FineThreads where
  threads := .init cache
  memcpy _ := none
  outbuffer := outbuffer

variable (f : FineThreads)

def setMemcpy (thread : ℕ) (memcpy : Option Memcpy) : FineThreads :=
  { f with memcpy := Function.update f.memcpy thread memcpy }

/-- What a call of `memcpy` has to copy. A length is converted to `size_t`. -/
def memcpyOf (mem : Mem) : Phase → Option Memcpy
  | .storing it _ bufflen => some ⟨mem.nkey it, (bufflen % 2 ^ 64).toNat, ∅⟩
  | .getting it => some ⟨mem.nkey it, mem.nbytes it, ∅⟩
  | _ => none

/-- A thread copies outside the lock. -/
def Copies (thread : ℕ) : Prop := memcpyOf f.threads.cache.mem (f.threads.phase thread) ≠ none

def step : FineAction → Result FineThreads
  | .locked action => do
      let threads ← f.threads.step action
      return { f with threads }
  | .arguments thread =>
      .ok (f.setMemcpy thread (memcpyOf f.threads.cache.mem (f.threads.phase thread)))
  | .copyByte thread i =>
      let cache := f.threads.cache
      match f.threads.phase thread, f.memcpy thread with
      | .storing it inbuffer _, some copy =>
          if (cache.slabs.slabclass (cache.mem.slabsClsid it)).size ≤
              sizeofHashItem + copy.offset + i then
            .error .outOfBounds
          else
            .ok { f.setMemcpy thread (some { copy with copied := insert i copy.copied }) with
              threads := { f.threads with
                cache := cache.setByte it (copy.offset + i) (inbuffer i) } }
      | .getting it, some copy =>
          .ok { f.setMemcpy thread (some { copy with copied := insert i copy.copied }) with
            outbuffer := Function.update f.outbuffer thread
              (Function.update (f.outbuffer thread) i (cache.mem.bytes it (copy.offset + i))) }
      | _, _ => .ok f
  | .copied thread =>
      let cache := f.threads.cache
      match f.threads.phase thread with
      | .storing it _ _ =>
          .ok { f.setMemcpy thread none with threads := f.threads.enter thread cache (.copied it) }
      | .getting _ =>
          .ok { f.setMemcpy thread none with threads := f.threads.enter thread cache .idle }
      | _ => .ok f

/-- A `memcpy` may copy its bytes in any order, and returns when it has copied all of them. -/
def Enabled : FineAction → Prop
  | .locked (.resume thread _) => f.threads.phase thread ≠ .idle ∧ ¬f.Copies thread
  | .locked action => f.threads.Enabled action
  | .arguments thread => f.Copies thread ∧ f.memcpy thread = none
  | .copyByte thread i => ∃ copy, f.memcpy thread = some copy ∧ i < copy.length
  | .copied thread => ∃ copy, f.memcpy thread = some copy ∧ ∀ i < copy.length, i ∈ copy.copied

/-- What a thread returns from `getItem`: the bytes in its buffer. -/
def returned (thread : ℕ) : List UInt8 :=
  readBytes (f.outbuffer thread) ((f.memcpy thread).elim 0 Memcpy.length)

/-- The calls that are made and that return in a step. -/
def events (f f' : FineThreads) : FineAction → List CacheEvent
  | .locked action => f.threads.events f'.threads action
  | .copied thread =>
      match f.threads.phase thread with
      | .getting _ => [.respond (some thread) (.value (some (f.returned thread)))]
      | _ => []
  | _ => []

/-- A step of a run without wrapped counters whose tail repairs spare the items in use, with its
events. -/
def HistoryStep (keys : Set (List UInt8)) (f : FineThreads) (events : List CacheEvent)
    (f' : FineThreads) : Prop :=
  ∃ action, f.Enabled action ∧ f.step action = .ok f' ∧ events = f.events f' action ∧
    ∀ locked, action = .locked locked →
      Threads.Guarded keys f.threads f'.threads locked ∧ f.threads.SparesUsed f'.threads

end FineThreads

variable {keys : Set (List UInt8)} {c c' : LruLists} {v v' : View} {s s' : Threads}
  {f f' : FineThreads} {it thread : ℕ} {key : List UInt8} {sys : System}

/-! ## What the other threads leave alone -/

namespace ThreadsInv

/-- A lookup changes the contents of no item. -/
theorem contents_of_get (inv : ThreadsInv keys s v) (keySet : KeySet keys) (isKey : key ∈ keys)
    {found : Option ℕ} (run : s.cache.itemGet (DataCache.cString key) sys = .ok (c', found))
    (a : ℕ) : SameContents s.cache.mem c'.mem a := by
  rw [DataCache.itemGet_cString keySet isKey] at run
  rcases LruLists.doItemGet_eq inv.cache keySet isKey (sys.now 0) with
    ⟨missed, -⟩ | ⟨_, _, _, hit, -, -, -, drops, -⟩
  · cases missed.symm.trans run
    exact ⟨rfl, rfl, rfl, rfl⟩
  · cases hit.symm.trans run
    exact .of_frame drops.toFrame a

/-- An allocation changes the contents of no item in use. -/
theorem contents_of_alloc (inv : ThreadsInv keys s v) (keySet : KeySet keys) (isKey : key ∈ keys)
    (sane : ∀ j, (sys.os j).Sane s.cache.slabs) {bufflen : ℤ} (bound : bufflen < 2 ^ 31)
    {found : Option ℕ} (nonneg : found ≠ none → 0 ≤ bufflen)
    (run : s.cache.itemAlloc (DataCache.cString key) bufflen sys = .ok (c', found))
    (spares : ∃ reset, c'.repaired = reset ++ s.cache.repaired ∧
      ∀ a ∈ reset, ∀ thread, (s.phase thread).item ≠ some a)
    {a : ℕ} (uses : (s.phase thread).item = some a) : SameContents s.cache.mem c'.mem a := by
  rw [keySet.cString_eq isKey] at run
  cases found with
  | none =>
      rcases LruLists.of_doItemAlloc inv.cache keySet sane run with ⟨-, reclaimed, -⟩
      rcases reclaimed rfl with ⟨_, _, _, -, reclaims⟩
      exact .of_frame reclaims.toFrame a
  | some it =>
      rcases LruLists.doItemAlloc_eq inv.cache keySet sane (keySet.short key isKey)
        (nonneg (by simp)) bound with
        ⟨_, _, _, _, failed, -⟩ | ⟨_, _, gone, reset, _, done, -, allocates, -⟩
      · cases failed.symm.trans run
      · cases done.symm.trans run
        rcases spares with ⟨spared, repaired, unused⟩
        have picked := inv.picked_of_noRef allocates.wasStored allocates.noRef
        have same := List.append_cancel_right (repaired.symm.trans allocates.repaired)
        have notGone : a ∉ gone := fun isGone =>
          unused a (same ▸ picked a isGone) thread uses
        refine allocates.contents a (inv.live uses) ?_
        rintro rfl
        exact allocates.fresh ⟨inv.live uses, notGone⟩

/-- A section changes the contents of no item that another thread uses. -/
theorem contents_of_step (inv : ThreadsInv keys s v) (keySet : KeySet keys) {action : Action}
    (guarded : Threads.Guarded keys s s' action) (spares : s.SparesUsed s')
    (other : action.actor ≠ some thread) {a : ℕ} (uses : (s.phase thread).item = some a) :
    SameContents s.cache.mem s'.cache.mem a := by
  have regular := guarded.regular
  cases action with
  | call actor call sys =>
      rcases regular with ⟨idle, valid, sane, -⟩
      rcases bind_eq_ok.mp guarded.run with ⟨⟨_, _⟩, started, next⟩
      cases call with
      | get key =>
          rcases bind_eq_ok.mp started with ⟨⟨c', found⟩, got, rest⟩
          cases rest
          cases next
          exact inv.contents_of_get keySet valid got a
      | store key inbuffer bufflen =>
          rcases bind_eq_ok.mp started with ⟨⟨c', found⟩, obtained, rest⟩
          cases rest
          cases next
          have positive (isSome : found ≠ none) : 0 ≤ bufflen := by
            rcases Option.ne_none_iff_exists'.mp isSome with ⟨it, rfl⟩
            refine guarded.positive.resolve_right ?_
            simp [Phase.allocated]
          exact inv.contents_of_alloc keySet valid.1 sane valid.2 positive obtained spares uses
      | delete key =>
          rcases bind_eq_ok.mp started with ⟨⟨c', found⟩, got, rest⟩
          cases rest
          cases next
          exact inv.contents_of_get keySet valid got a
  | resume actor sys =>
      rcases regular with ⟨busy, -, sane, few⟩
      rcases bind_eq_ok.mp guarded.run with ⟨⟨_, _⟩, resumed, next⟩
      have held := inv.held actor
      have differs {it : ℕ} (owns : (s.phase actor).Owns it) : a ≠ it := by
        rintro rfl
        exact other (congrArg some (inv.alone actor a owns thread uses).symm)
      cases next
      cases current : s.phase actor <;> rw [current] at resumed held differs
      case idle | getting =>
        cases resumed
        exact ⟨rfl, rfl, rfl, rfl⟩
      case storing it inbuffer bufflen =>
        rcases bind_eq_ok.mp resumed with ⟨c', copied, rest⟩
        cases rest
        rcases held with ⟨⟨live, notStored, isKey⟩, length, positive, bound⟩
        cases (DataCache.copyIn_eq inv.cache live inbuffer positive bound length).symm.trans copied
        exact ⟨rfl, rfl, Function.update_of_ne (differs rfl) _ _, rfl⟩
      case copied it =>
        rcases bind_eq_ok.mp resumed with ⟨c', stored, rest⟩
        cases rest
        rcases held with ⟨live, notStored, isKey⟩
        rcases LruLists.storeItem_eq inv.cache keySet live notStored isKey (inv.card_lt few) sys
          fun j => (sane j).fits with ⟨_, _, _, run, -, stores⟩
        cases run.symm.trans stored
        exact ⟨congrFun stores.nkey a, congrFun stores.nbytes a, congrFun stores.bytes a,
          stores.hv a (differs rfl)⟩
      case deleting it =>
        rcases bind_eq_ok.mp resumed with ⟨c', isUnlinked, rest⟩
        cases rest
        rcases LruLists.doItemUnlink_eq inv.cache keySet held (sane 0).fits with
          ⟨_, _, run, -, unlinks⟩
        cases run.symm.trans isUnlinked
        exact .of_frame unlinks.drops.toFrame a
      case unlinked it =>
        rcases bind_eq_ok.mp resumed with ⟨c', released, rest⟩
        cases rest
        have live : v.Live it := held
        have isChunk := inv.cache.slabs.mem_chunks_of_mem_out (inv.cache.mem_out_clsid live)
        rcases LruLists.doItemRelease_eq inv.cache isChunk (fun notLive => absurd live notLive)
          (sane 0).fits with ⟨_, _, run, -, drops, -⟩
        cases run.symm.trans released
        exact .of_frame drops.toFrame a
  | maintain =>
      rcases bind_eq_ok.mp guarded.run with ⟨c', pass, next⟩
      cases next
      rcases LruLists.maintenance_eq inv.cache with ⟨_, _, run, -, migrates⟩
      cases run.symm.trans pass
      exact .of_frame migrates.toFrame a

end ThreadsInv

/-! ## A byte of a value -/

namespace LruLists

theorem contents_setByte (c : LruLists) (position : ℕ) (byte : UInt8) {a : ℕ} (differs : a ≠ it) :
    SameContents c.mem (c.setByte it position byte).mem a :=
  ⟨rfl, rfl, Function.update_of_ne differs _ _, rfl⟩

theorem key_setByte {position : ℕ} (behind : c.mem.nkey it ≤ position) (byte : UInt8) (a : ℕ) :
    (c.setByte it position byte).mem.key a = c.mem.key a := by
  by_cases same : a = it
  · subst same
    refine readBytes_congr fun i inKey => ?_
    have differs : i ≠ position := (inKey.trans_le behind).ne
    simp only [setByte, Function.update_self, Function.update_of_ne differs]
  · exact (contents_setByte c position byte same).key

end LruLists

theorem Phase.Held.setByte {phase : Phase} {position : ℕ} {byte : UInt8}
    (held : phase.Held keys c v) (behind : c.mem.nkey it ≤ position) :
    phase.Held keys (c.setByte it position byte) v := by
  have key := LruLists.key_setByte behind byte
  cases phase with
  | storing a inbuffer bufflen =>
      rcases held with ⟨⟨live, notStored, isKey⟩, bounds⟩
      exact ⟨⟨live, notStored, key a ▸ isKey⟩, bounds⟩
  | copied a =>
      rcases held with ⟨live, notStored, isKey⟩
      exact ⟨live, notStored, key a ▸ isKey⟩
  | idle => trivial
  | getting a => exact held
  | deleting a => exact held
  | unlinked a => exact held

namespace ThreadsInv

variable {position : ℕ} {map : CacheMap} {inbuffer : ℕ → UInt8} {bufflen : ℤ}

/-- A thread writes a byte behind the key of an item that is not in the table. -/
theorem setByte (inv : ThreadsInv keys s v) (notStored : it ∉ v.stored)
    (behind : s.cache.mem.nkey it ≤ position) (byte : UInt8) :
    ThreadsInv keys { s with cache := s.cache.setByte it position byte } v where
  cache := inv.cache.setContents (fun _ _ => rfl) fun _ isStored =>
    Function.update_of_ne (ne_of_mem_of_not_mem isStored notStored) _ _
  card := inv.card
  held other := (inv.held other).setByte behind
  alone := inv.alone
  counted := inv.counted

/-- No call notices a byte of a value that is being copied in. -/
theorem atomic_setByte (inv : ThreadsInv keys s v)
    (storing : s.phase thread = .storing it inbuffer bufflen)
    (behind : s.cache.mem.nkey it ≤ position) (byte : UInt8) (map : CacheMap) :
    ({ s with cache := s.cache.setByte it position byte } : Threads).atomic map =
      s.atomic map := by
  have owns : (s.phase thread).Owns it := by
    rw [storing]
    rfl
  simp only [Threads.atomic, Atomic.mk.injEq, true_and]
  funext proc
  cases proc with
  | none => rfl
  | some other =>
      simp only [Threads.status, Option.elim]
      by_cases same : other = thread
      · subst same
        simp only [storing, Phase.status, LruLists.key_setByte behind]
      · refine Phase.status_congr (fun a uses => ?_) fun a _ => rfl
        have differs : a ≠ it := by
          rintro rfl
          exact same (inv.alone thread a owns other uses)
        have contents := LruLists.contents_setByte s.cache position byte differs
        exact ⟨contents.key, contents.data⟩

theorem holds_setByte (holds : HoldsMap s.cache v.stored map) (notStored : it ∉ v.stored)
    (byte : UInt8) : HoldsMap (s.cache.setByte it position byte) v.stored map := by
  refine holds.congr rfl fun a isStored => ?_
  have contents := LruLists.contents_setByte s.cache position byte
    (ne_of_mem_of_not_mem isStored notStored)
  exact ⟨contents.key, contents.data⟩

end ThreadsInv

/-! ## The invariant -/

/-- What has been copied is in its place. -/
def Memcpy.Correct (copy : Memcpy) (mem : Mem) (outbuffer : ℕ → UInt8) : Phase → Prop
  | .storing it inbuffer _ => copy.offset = mem.nkey it ∧ copy.length = mem.nbytes it ∧
      ∀ i ∈ copy.copied, mem.bytes it (copy.offset + i) = inbuffer i
  | .getting it => copy.offset = mem.nkey it ∧ copy.length = mem.nbytes it ∧
      ∀ i ∈ copy.copied, outbuffer i = mem.bytes it (copy.offset + i)
  | _ => False

theorem Memcpy.Correct.congr {copy : Memcpy} {mem mem' : Mem} {outbuffer : ℕ → UInt8}
    {phase : Phase} (correct : copy.Correct mem outbuffer phase)
    (same : ∀ a, phase.item = some a → SameContents mem mem' a) :
    copy.Correct mem' outbuffer phase := by
  cases phase with
  | storing it inbuffer bufflen =>
      rcases correct with ⟨offset, length, copied⟩
      have contents := same it rfl
      exact ⟨offset.trans contents.nkey.symm, length.trans contents.nbytes.symm,
        fun i isCopied => by rw [contents.bytes, copied i isCopied]⟩
  | getting it =>
      rcases correct with ⟨offset, length, copied⟩
      have contents := same it rfl
      exact ⟨offset.trans contents.nkey.symm, length.trans contents.nbytes.symm,
        fun i isCopied => by rw [contents.bytes, copied i isCopied]⟩
  | idle => exact correct
  | copied it => exact correct
  | deleting it => exact correct
  | unlinked it => exact correct

namespace FineThreads

/-- The threads keep their invariant, and every copy that is under way is correct so far. -/
structure Inv (keys : Set (List UInt8)) (f : FineThreads) (v : View) : Prop where
  threads : ThreadsInv keys f.threads v
  copying : ∀ thread copy, f.memcpy thread = some copy →
    copy.Correct f.threads.cache.mem (f.outbuffer thread) (f.threads.phase thread)

/-- The threads hold the map of an atomic object, and their calls are as far as its. -/
def Represents (keys : Set (List UInt8)) (f : FineThreads)
    (m : Atomic CacheMap (Option ℕ) CacheOp CacheRet) : Prop :=
  ∃ v map, f.Inv keys v ∧ HoldsMap f.threads.cache v.stored map ∧ m = f.threads.atomic map

/-- A thread that copies nothing is in no `memcpy`. -/
theorem Inv.memcpy_eq_none (inv : f.Inv keys v) (rests : ¬f.Copies thread) :
    f.memcpy thread = none := by
  refine Option.eq_none_iff_forall_ne_some.mpr fun copy isCopy => rests ?_
  have correct := inv.copying thread copy isCopy
  simp only [Copies]
  cases current : f.threads.phase thread <;> rw [current] at correct
  case storing | getting => simp [memcpyOf]
  case idle | copied | deleting | unlinked => exact correct.elim

/-! ## Steps -/

variable {m : Atomic CacheMap (Option ℕ) CacheOp CacheRet} {map : CacheMap}

theorem represents_locked (keySet : KeySet keys) (inv : f.Inv keys v)
    (holds : HoldsMap f.threads.cache v.stored map) {action : Action}
    (enabled : f.Enabled (.locked action)) (run : f.step (.locked action) = .ok f')
    (guarded : Threads.Guarded keys f.threads f'.threads action)
    (spares : f.threads.SparesUsed f'.threads) :
    ∃ m', Atomic.Run mapSpec (f.threads.atomic map) (f.threads.events f'.threads action) m' ∧
      f'.Represents keys m' := by
  rcases bind_eq_ok.mp run with ⟨threads', -, next⟩
  cases next
  rcases inv.threads.advance keySet guarded spares with ⟨v', _, _, _, inv', -⟩
  rcases inv.threads.acts_step keySet holds guarded spares inv' with ⟨map', holds', acts⟩
  refine ⟨_, acts, v', map', ⟨inv', fun thread copy isCopy => ?_⟩, holds', rfl⟩
  have copying : f.memcpy thread ≠ none := fun none => by simp [none] at isCopy
  have other : action.actor ≠ some thread := by
    intro isActor
    refine copying (inv.memcpy_eq_none ?_)
    cases action with
    | call actor call sys =>
        cases isActor
        have idle : f.threads.phase thread = .idle := enabled
        simp [Copies, idle, memcpyOf]
    | resume actor sys =>
        cases isActor
        exact enabled.2
    | maintain => cases isActor
  rw [Threads.phase_of_step guarded.run other]
  exact (inv.copying thread copy isCopy).congr fun a uses =>
    inv.threads.contents_of_step keySet guarded spares other uses

theorem Inv.arguments (inv : f.Inv keys v) (thread : ℕ) :
    (f.setMemcpy thread (memcpyOf f.threads.cache.mem (f.threads.phase thread))).Inv keys v where
  threads := inv.threads
  copying other copy isCopy := by
    by_cases same : other = thread
    · subst same
      have held := inv.threads.held other
      simp only [setMemcpy, Function.update_self] at isCopy ⊢
      cases current : f.threads.phase other with
      | storing it inbuffer bufflen =>
          rw [current] at isCopy held
          rcases held with ⟨-, length, positive, bound⟩
          cases isCopy
          refine ⟨rfl, ?_, by simp⟩
          change (bufflen % 2 ^ 64).toNat = f.threads.cache.mem.nbytes it
          rw [length]
          omega
      | getting it =>
          rw [current] at isCopy
          cases isCopy
          exact ⟨rfl, rfl, by simp⟩
      | idle => simp [current, memcpyOf] at isCopy
      | copied it => simp [current, memcpyOf] at isCopy
      | deleting it => simp [current, memcpyOf] at isCopy
      | unlinked it => simp [current, memcpyOf] at isCopy
    · simp only [setMemcpy, Function.update_of_ne same] at isCopy
      exact inv.copying other copy isCopy

theorem represents_copyByte (inv : f.Inv keys v) (holds : HoldsMap f.threads.cache v.stored map)
    {i : ℕ} {copy : Memcpy} (isCopy : f.memcpy thread = some copy)
    (run : f.step (.copyByte thread i) = .ok f') :
    f'.Represents keys (f.threads.atomic map) := by
  have correct := inv.copying thread copy isCopy
  simp only [step, isCopy] at run
  cases current : f.threads.phase thread with
  | storing it inbuffer bufflen =>
      rw [current] at run correct
      simp only at run
      split at run
      · cases run
      · cases run
        rcases correct with ⟨offset, length, copied⟩
        have owns : (f.threads.phase thread).Owns it := by
          rw [current]
          rfl
        have notStored := (inv.threads.held thread).notStored owns
        have behind : f.threads.cache.mem.nkey it ≤ copy.offset + i := by omega
        refine ⟨v, map, ⟨inv.threads.setByte notStored behind _, fun other copy' isCopy' => ?_⟩,
          ThreadsInv.holds_setByte holds notStored _,
          (inv.threads.atomic_setByte current behind _ map).symm⟩
        by_cases same : other = thread
        · subst same
          simp only [setMemcpy, Function.update_self, Option.some.injEq] at isCopy'
          subst isCopy'
          simp only [current]
          refine ⟨offset, length, fun j isCopied => ?_⟩
          simp only [LruLists.setByte, Function.update_self]
          by_cases here : j = i
          · rw [here, Function.update_self]
          · rw [Function.update_of_ne (by omega)]
            exact copied j ((Finset.mem_insert.mp isCopied).resolve_left here)
        · simp only [setMemcpy, Function.update_of_ne same] at isCopy'
          refine (inv.copying other copy' isCopy').congr fun a uses => ?_
          refine LruLists.contents_setByte _ _ _ ?_
          rintro rfl
          exact same (inv.threads.alone thread a owns other uses)
  | getting it =>
      rw [current] at run correct
      cases run
      rcases correct with ⟨offset, length, copied⟩
      refine ⟨v, map, ⟨inv.threads, fun other copy' isCopy' => ?_⟩, holds, rfl⟩
      by_cases same : other = thread
      · subst same
        simp only [setMemcpy, Function.update_self, Option.some.injEq] at isCopy'
        subst isCopy'
        simp only [setMemcpy, current, Function.update_self]
        refine ⟨offset, length, fun j isCopied => ?_⟩
        by_cases here : j = i
        · rw [here, Function.update_self]
        · rw [Function.update_of_ne here]
          exact copied j ((Finset.mem_insert.mp isCopied).resolve_left here)
      · simp only [setMemcpy, Function.update_of_ne same] at isCopy' ⊢
        exact inv.copying other copy' isCopy'
  | idle => exact (current ▸ correct).elim
  | copied it => exact (current ▸ correct).elim
  | deleting it => exact (current ▸ correct).elim
  | unlinked it => exact (current ▸ correct).elim

/-- A `memcpy` that has copied all bytes has done what one step of `copyIn` does. -/
theorem Inv.copyIn_of_copied (inv : f.Inv keys v) {inbuffer : ℕ → UInt8} {bufflen : ℤ}
    (storing : f.threads.phase thread = .storing it inbuffer bufflen) {copy : Memcpy}
    (isCopy : f.memcpy thread = some copy) (all : ∀ i < copy.length, i ∈ copy.copied) :
    DataCache.copyIn f.threads.cache it inbuffer bufflen = .ok f.threads.cache := by
  have held := inv.threads.held thread
  have correct := inv.copying thread copy isCopy
  rw [storing] at held correct
  rcases held with ⟨⟨live, -, -⟩, sameLength, positive, bound⟩
  rcases correct with ⟨offset, length, copied⟩
  rw [DataCache.copyIn_eq inv.threads.cache live inbuffer positive bound sameLength]
  have bytes : writeBytes (f.threads.cache.mem.bytes it) (f.threads.cache.mem.nkey it)
      (readBytes inbuffer bufflen.toNat) = f.threads.cache.mem.bytes it := by
    funext position
    simp only [writeBytes, length_readBytes]
    split
    case isTrue inValue =>
      have here := copied (position - copy.offset) (all _ (by omega))
      rw [show copy.offset + (position - copy.offset) = position by omega] at here
      rw [here, offset]
      simp [readBytes, List.getD_eq_getElem?_getD, show position - f.threads.cache.mem.nkey it <
        bufflen.toNat by omega]
    case isFalse => rfl
  simp only [DataCache.withData, bytes, Function.update_eq_self]

theorem represents_copied (inv : f.Inv keys v) (holds : HoldsMap f.threads.cache v.stored map)
    {copy : Memcpy} (isCopy : f.memcpy thread = some copy)
    (all : ∀ i < copy.length, i ∈ copy.copied) (run : f.step (.copied thread) = .ok f') :
    ∃ m', Atomic.Run mapSpec (f.threads.atomic map) (f.events f' (.copied thread)) m' ∧
      f'.Represents keys m' := by
  have correct := inv.copying thread copy isCopy
  have others {phase : Phase} (other : ℕ) (copy' : Memcpy)
      (isCopy' : (f.setMemcpy thread none).memcpy other = some copy') :
      copy'.Correct f.threads.cache.mem (f.outbuffer other)
        (Function.update f.threads.phase thread phase other) := by
    by_cases same : other = thread
    · simp [setMemcpy, same] at isCopy'
    · rw [Function.update_of_ne same]
      simp only [setMemcpy, Function.update_of_ne same] at isCopy'
      exact inv.copying other copy' isCopy'
  simp only [step] at run
  simp only [events]
  cases current : f.threads.phase thread with
  | storing it inbuffer bufflen =>
      rw [current] at run
      cases run
      have copyIn := inv.copyIn_of_copied current isCopy all
      have inv' := (inv.threads.copy current copyIn).1
      rcases inv.threads.acts_copy current holds copyIn inv' with ⟨map', holds', acts⟩
      exact ⟨_, acts, v, map', ⟨inv', others⟩, holds', rfl⟩
  | getting it =>
      rw [current] at run correct
      cases run
      rcases correct with ⟨offset, length, copied⟩
      have value : f.returned thread = f.threads.cache.mem.data it := by
        simp only [returned, isCopy, Option.elim, Mem.data, ← length]
        refine readBytes_congr fun i inValue => ?_
        rw [copied i (all i inValue), offset]
      have inv' := (inv.threads.leave thread).1
      have done : f.threads.status (some thread) =
          .done (.value (some (f.threads.cache.mem.data it))) := by
        simp [Threads.status, current, Phase.status]
      rcases inv.threads.acts_return inv' holds (.refl f.threads.cache) rfl done with
        ⟨map', holds', acts⟩
      rw [← value] at acts
      exact ⟨_, acts, v, map', ⟨inv', others⟩, holds', rfl⟩
  | idle => exact (current ▸ correct).elim
  | copied it => exact (current ▸ correct).elim
  | deleting it => exact (current ▸ correct).elim
  | unlinked it => exact (current ▸ correct).elim

/-- Every step is some steps of the atomic object, with the same events. -/
theorem represents_step (keySet : KeySet keys) {events : List CacheEvent}
    (represents : f.Represents keys m) (step : HistoryStep keys f events f') :
    ∃ m', Atomic.Run mapSpec m events m' ∧ f'.Represents keys m' := by
  rcases represents with ⟨v, map, inv, holds, rfl⟩
  rcases step with ⟨action, enabled, run, rfl, guarded⟩
  cases action with
  | locked action =>
      rcases guarded action rfl with ⟨isGuarded, spares⟩
      exact represents_locked keySet inv holds enabled run isGuarded spares
  | arguments thread =>
      cases run
      exact ⟨_, .refl _, v, map, inv.arguments thread, holds, rfl⟩
  | copyByte thread i =>
      rcases enabled with ⟨copy, isCopy, -⟩
      exact ⟨_, .refl _, represents_copyByte inv holds isCopy run⟩
  | copied thread =>
      rcases enabled with ⟨copy, isCopy, all⟩
      exact represents_copied inv holds isCopy all run

end FineThreads

end ChaosCache
