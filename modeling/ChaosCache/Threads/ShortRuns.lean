import ChaosCache.Threads.Aging
import ChaosCache.Threads.Lifetime

/-!
# Short runs

That no reference counter wraps and that no tail repair fires need not be assumed of a run that is
short. A counter grows by one with a call of `getItem` or `deleteItem`, and not otherwise. What the
tail repair unlinks was not accessed for almost `TAIL_REPAIR_TIME`, and every item of a list was
accessed since the run has begun.
-/

namespace ChaosCache

open Hash LazyLru Linearizability Links Relation

/-- The threads, how many calls of `getItem` and `deleteItem` were made, and the last reading of the
clock. -/
structure Timed where
  threads : Threads
  calls : ℕ
  clock : ℕ

namespace Timed

def init (cache : LruLists) (start : ℕ) : Timed where
  threads := .init cache
  calls := 0
  clock := start

/-- A section of any run that respects the contract of the cache, under a clock that does not go
back. -/
structure Proceeds (keys : Set (List UInt8)) (s : Timed) (action : Action) (s' : Timed) :
    Prop where
  regular : s.threads.Regular keys action
  run : s.threads.step action = .ok s'.threads
  positive : action.Positive ∨ s'.threads.obtained = s.threads.obtained
  inOrder : (s.clock :: s.threads.readings action).Pairwise (· ≤ ·)
  calls : s'.calls = s.calls + action.references
  clock : s'.clock = (s.threads.readings action).getLastD s.clock

/-- A section, with its events. -/
def HistoryStep (keys : Set (List UInt8)) (s : Timed) (events : List CacheEvent) (s' : Timed) :
    Prop :=
  ∃ action, Proceeds keys s action s' ∧ events = s.threads.events s'.threads action

/-- Fewer than 65534 references were taken, the last reading is at most two hours and 59 minutes
after the start, and the test of the tail repair does not wrap. -/
structure Short (start : ℕ) (s : Timed) : Prop where
  calls : s.calls < 2 ^ 16 - 2
  young : s.clock ≤ start + (tailRepairTime - itemUpdateInterval)
  bound : s.clock < 2 ^ 32 - tailRepairTime

variable {keys : Set (List UInt8)} {s s' : Timed} {action : Action} {start : ℕ}

theorem Proceeds.clock_le (proceeds : s.Proceeds keys action s') : s.clock ≤ s'.clock := by
  rw [proceeds.clock]
  exact Threads.clock_le_of_inOrder proceeds.inOrder

theorem Proceeds.short (proceeds : s.Proceeds keys action s') (short : s'.Short start) :
    s.Short start where
  calls := by
    have fewer := short.calls
    rw [proceeds.calls] at fewer
    omega
  young := proceeds.clock_le.trans short.young
  bound := proceeds.clock_le.trans_lt short.bound

end Timed

/-! ## Short runs are brisk -/

variable {keys : Set (List UInt8)} {c : LruLists} {start : ℕ}

/-- The records of a short run: no item was taken more references to than there were calls, and
nothing was accessed or begun before the start. -/
structure Records (start : ℕ) (s : Timed) (aged : Aged) : Prop where
  threads : aged.threads = s.threads
  clock : aged.clock = s.clock
  taken : ∀ a, aged.taken a ≤ s.calls
  young : ∀ a, start ≤ aged.lastAccess a
  begun : ∀ thread, start ≤ aged.begun thread
  started : start ≤ s.clock

namespace Records

variable {s s' : Timed} {aged : Aged} {action : Action}

theorem brisk (records : Records start s aged) (short : s.Short start) : aged.Brisk where
  taken a := (records.taken a).trans_lt short.calls
  calls thread _ := by
    rw [records.clock]
    exact short.young.trans (Nat.add_le_add_right (records.begun thread) _)
  bound := by
    rw [records.clock]
    exact short.bound

theorem proceeds (records : Records start s aged) (proceeds : s.Proceeds keys action s') :
    aged.Proceeds keys action (aged.after action s'.threads) := by
  rcases records with ⟨threads, clock, -, -, -, -⟩
  have inOrder := proceeds.inOrder
  rw [← clock, ← threads] at inOrder
  exact
    { regular := threads ▸ proceeds.regular
      run := threads ▸ proceeds.run
      positive := by
        rw [threads]
        exact proceeds.positive
      inOrder := inOrder
      records := rfl }

theorem step (records : Records start s aged) (proceeds : s.Proceeds keys action s') :
    Records start s' (aged.after action s'.threads) := by
  have recorded := records.proceeds proceeds
  have clock : (aged.after action s'.threads).clock = s'.clock := by
    rw [proceeds.clock, ← records.clock, ← records.threads]
    rfl
  have started := records.started.trans proceeds.clock_le
  refine ⟨rfl, clock, ?_, ?_, ?_, started⟩
  · intro a
    rw [proceeds.calls]
    exact (recorded.taken_le a).trans (Nat.add_le_add_right (records.taken a) _)
  · intro a
    rcases recorded.access a with same | later
    · rw [same]
      exact records.young a
    · rw [records.clock] at later
      exact records.started.trans later
  · intro thread
    rcases recorded.begun thread with ⟨_, _, -, now⟩ | ⟨-, same⟩
    · rw [now, clock]
      exact started
    · rw [same]
      exact records.begun thread

end Records

namespace Threads

/-- In a short run under a clock that does not go back no reference counter wraps and no tail repair
fires, whatever the threads do. -/
theorem quiet_of_short (keySet : KeySet keys) {mem : Mem} {cacheSize : ℕ} {os : Os}
    {initialMalloc : Option ℕ}
    (created : DataCache.create .zero .zero mem cacheSize os initialMalloc = .ok c)
    {history : List CacheEvent} {s : Timed}
    (trace : Trace (Timed.HistoryStep keys) (.init c start) history s) (short : s.Short start) :
    Trace (QuietHistoryStep keys) (init c) history s.threads := by
  suffices (∃ aged v, Records start s aged ∧ AgedInv keys aged v) ∧
      Trace (QuietHistoryStep keys) (init c) history s.threads from this.2
  induction trace with
  | nil =>
      have none : Records start (.init c start) (.init c start) :=
        { threads := rfl
          clock := rfl
          taken := fun _ => Nat.le_refl _
          young := fun _ => Nat.le_refl _
          begun := fun _ => Nat.le_refl _
          started := Nat.le_refl _ }
      exact ⟨⟨_, _, none, Aged.inv_init keys start created⟩, .nil⟩
  | snoc before step ih =>
      rcases step with ⟨action, proceeds, rfl⟩
      have shorter := proceeds.short short
      rcases ih shorter with ⟨⟨aged, v, records, inv⟩, quiet⟩
      have records' := records.step proceeds
      have brisk : aged.BriskStep keys action (aged.after action _) :=
        { records.proceeds proceeds with
          before := records.brisk shorter
          after := records'.brisk short }
      rcases inv.step keySet brisk with ⟨guarded, v', gone, reset, new, inv', advances, old⟩
      -- what the tail repair picks was accessed before the start of the run
      obtain rfl : reset = [] := by
        refine List.eq_nil_iff_forall_not_mem.mpr fun a isReset => ?_
        have longAgo := (old a isReset).2
        have accessed := records.young a
        have young := short.young
        rw [records'.clock] at longAgo
        omega
      rw [records.threads] at guarded advances
      exact ⟨⟨_, v', records', inv'⟩, quiet.snoc ⟨action, guarded, advances.repaired, rfl⟩⟩

/-- A section of a brisk run goes on with a run that counts the calls. -/
theorem timed_of_briskStep {aged aged' : Aged} {action : Action}
    (brisk : Aged.BriskStep keys aged action aged') {history : List CacheEvent} {s : Timed}
    (trace : Trace (Timed.HistoryStep keys) (.init c start) history s)
    (threads : s.threads = aged.threads) (clock : s.clock = aged.clock) :
    ∃ later s', Trace (Timed.HistoryStep keys) (.init c start) later s' ∧
      s'.threads = aged'.threads ∧ s'.clock = aged'.clock ∧ s'.calls ≤ s.calls + 1 := by
  let s' : Timed :=
    { threads := aged'.threads
      calls := s.calls + action.references
      clock := (s.threads.readings action).getLastD s.clock }
  have proceeds : s.Proceeds keys action s' := by
    refine ⟨?_, ?_, ?_, ?_, rfl, rfl⟩
    · rw [threads]
      exact brisk.regular
    · rw [threads]
      exact brisk.run
    · rw [threads]
      exact brisk.positive
    · rw [threads, clock]
      exact brisk.inOrder
  have sameClock : s'.clock = aged'.clock := by
    rw [brisk.records]
    simp only [s', Aged.after, threads, clock]
  exact ⟨_, s', trace.snoc ⟨action, proceeds, rfl⟩, rfl, sameClock,
    Nat.add_le_add_left action.references_le _⟩

/-- Two threads have stored `k`, replaced it and deleted it, and have stored `l`. -/
theorem quiet_of_short_sharing : ∃ (history : List CacheEvent) (s : Timed),
    s.threads.obtained = [4288, 4192, 4096] ∧ s.Short 0 ∧
      Trace (Timed.HistoryStep oneByteKeys) (.init (DataCache.new .zero 64 0) 0) history s ∧
        Trace (QuietHistoryStep oneByteKeys) (init (DataCache.new .zero 64 0)) history
          s.threads := by
  have created := DataCache.create_eq .zero 64 ((DataCache.onePage 0 0 0).os 0) none
  have next (n : ℕ) (aged aged' : Aged) (action : Action)
      (brisk : Aged.BriskStep oneByteKeys aged action aged')
      (before : ∃ history s, Trace (Timed.HistoryStep oneByteKeys)
        (.init (DataCache.new .zero 64 0) 0) history s ∧ s.threads = aged.threads ∧
          s.clock = aged.clock ∧ s.calls ≤ n) :
      ∃ history s, Trace (Timed.HistoryStep oneByteKeys)
        (.init (DataCache.new .zero 64 0) 0) history s ∧ s.threads = aged'.threads ∧
          s.clock = aged'.clock ∧ s.calls ≤ n + 1 := by
    rcases before with ⟨history, s, trace, threads, clock, calls⟩
    rcases timed_of_briskStep brisk trace threads clock with
      ⟨later, s', trace', threads', clock', calls'⟩
    exact ⟨later, s', trace', threads', clock', calls'.trans (Nat.add_le_add_right calls 1)⟩
  rcases Aged.sharing_induction next ⟨[], _, .nil, rfl, rfl, Nat.le_refl 0⟩ with
    ⟨aged, ⟨history, s, trace, threads, sameClock, calls⟩, clock, obtained⟩
  have atStart : s.clock = 0 := sameClock.trans clock
  have short : s.Short 0 :=
    { calls := calls.trans_lt (by decide)
      young := by simp [atStart]
      bound := by simp [atStart, tailRepairTime] }
  exact ⟨history, s, threads ▸ obtained, short, trace,
    quiet_of_short keySet_oneByteKeys created trace short⟩

end Threads

end ChaosCache
