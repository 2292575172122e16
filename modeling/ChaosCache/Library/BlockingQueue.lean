import Mathlib.Data.List.Basic
import Mathlib.Logic.Function.Basic

/-!
# Queues behind a mutex and a condition variable

Threads push to a queue and pop from it while they hold its mutex. A thread that finds
the queue empty waits on the condition variable. A thread that pushes wakes all waiters
if its element is the only one, and nobody otherwise. The queue can be closed, by a store
outside the mutex; closing is complete when all waiters have been woken after it.

A wait releases the mutex and blocks the thread in one step. A waiter may also wake up
for no reason. A thread that has been woken competes for the mutex again.
-/

namespace BlockingQueue

/-- Where a thread is with respect to the queue. -/
inductive Phase where
  | outside
  /-- It holds the mutex. -/
  | inside
  /-- It holds the mutex, and has seen an element or a closed queue. -/
  | passed
  /-- It holds the mutex, and has seen an element. -/
  | ready
  /-- It holds the mutex, has seen neither, and is about to wait. -/
  | dozing
  /-- It is blocked, and has not been notified. -/
  | waiting
  /-- It holds the mutex, and has pushed an element. -/
  | signalling
  deriving DecidableEq

def Phase.holds : Phase → Bool
  | outside => false
  | waiting => false
  | _ => true

/-- The queue, the owner of the mutex and the threads. -/
structure Monitor (τ α : Type) where
  items : List α
  owner : Option τ
  phase : τ → Phase
  closed : Bool
  flushed : Bool

variable {τ α : Type}

namespace Monitor

/-- The threads after a broadcast. -/
def notified (m : Monitor τ α) (u : τ) : Phase :=
  if m.phase u = .waiting then .outside else m.phase u

def NobodyWaits (m : Monitor τ α) : Prop := ∀ u, m.phase u ≠ .waiting

/-- What a thread may rely on in its phase. -/
def Knows (m : Monitor τ α) : Phase → Prop
  | .passed => m.items ≠ [] ∨ m.closed = true
  | .ready => m.items ≠ []
  | .dozing => m.items = [] ∧ m.flushed = false
  | .signalling => m.items ≠ [] ∧ (m.items.length ≠ 1 → m.NobodyWaits)
  | _ => True

structure Inv (m : Monitor τ α) : Prop where
  owner : ∀ t, m.owner = some t ↔ (m.phase t).holds = true
  knows : ∀ t, m.Knows (m.phase t)
  notified : m.items ≠ [] → m.NobodyWaits ∨ ∃ t, m.phase t = .signalling
  flushed : m.flushed = true → m.closed = true ∧ m.NobodyWaits

variable {m m' : Monitor τ α} {t u : τ}

theorem knows_of_not_holds {phase : Phase} (free : phase.holds = false) : m.Knows phase := by
  cases phase <;> simp_all [Phase.holds, Knows]

theorem notified_ne_waiting (m : Monitor τ α) (u : τ) : m.notified u ≠ .waiting := by
  unfold notified
  split
  · simp
  · assumption

theorem holds_notified (m : Monitor τ α) (u : τ) :
    (m.notified u).holds = (m.phase u).holds := by
  unfold notified
  split
  · simp_all [Phase.holds]
  · rfl

namespace Inv

theorem alone (inv : m.Inv) (holds : (m.phase t).holds = true) (other : u ≠ t) :
    (m.phase u).holds = false := by
  by_contra alsoHolds
  simp only [Bool.not_eq_false] at alsoHolds
  have owner := (inv.owner t).mpr holds
  rw [(inv.owner u).mpr alsoHolds] at owner
  exact other (Option.some.inj owner)

/-- While a thread holds the mutex no other thread is about to notify. -/
theorem nobodyWaits (inv : m.Inv) (holds : (m.phase t).holds = true)
    (quiet : m.phase t ≠ .signalling) (some : m.items ≠ []) : m.NobodyWaits := by
  rcases inv.notified some with nobody | ⟨u, signals⟩
  · exact nobody
  · by_cases same : u = t
    · exact absurd (same ▸ signals) quiet
    · have free := inv.alone holds same
      rw [signals] at free
      simp [Phase.holds] at free

theorem init {items : List α} {phase : τ → Phase} (outside : ∀ t, phase t = .outside) :
    ({ items, owner := none, phase, closed := false, flushed := false } : Monitor τ α).Inv where
  owner t := by simp [outside t, Phase.holds]
  knows t := by simp [outside t, Knows]
  notified _ := Or.inl fun t => by simp [outside t]
  flushed := by simp

/-- Whenever the mutex is free, nobody waits for an element that is there. -/
theorem nobodyWaits_of_free (inv : m.Inv) (free : m.owner = none) (some : m.items ≠ []) :
    m.NobodyWaits := by
  rcases inv.notified some with nobody | ⟨t, signals⟩
  · exact nobody
  · have owner := (inv.owner t).mpr (by simp [signals, Phase.holds])
    simp [free] at owner

/-- A thread that has seen an element finds it when it pops. -/
theorem items_ne_nil (inv : m.Inv) (ready : m.phase t = .ready) : m.items ≠ [] := by
  simpa [ready, Knows] using inv.knows t

end Inv

section Steps

variable [DecidableEq τ]

/-- The state after a step that leaves a thread in a phase. -/
def go (m : Monitor τ α) (t : τ) (phase : Phase) : Monitor τ α :=
  { m with phase := Function.update m.phase t phase }

inductive Step : Monitor τ α → Monitor τ α → Prop
  | enter {m : Monitor τ α} (t : τ) (free : m.owner = none) (outside : m.phase t = .outside) :
      Step m { m.go t .inside with owner := some t }
  | leave {m : Monitor τ α} (t : τ) (inside : m.phase t = .inside) :
      Step m { m.go t .outside with owner := none }
  | pass {m : Monitor τ α} (t : τ) (inside : m.phase t = .inside)
      (goesOn : m.items ≠ [] ∨ m.closed = true) : Step m (m.go t .passed)
  | find {m : Monitor τ α} (t : τ) (inside : m.phase t = .inside) (found : m.items ≠ []) :
      Step m (m.go t .ready)
  | confirm {m : Monitor τ α} (t : τ) (passed : m.phase t = .passed) (isOpen : m.closed = false) :
      Step m (m.go t .ready)
  | abandon {m : Monitor τ α} (t : τ) (passed : m.phase t = .passed) : Step m (m.go t .inside)
  | doze {m : Monitor τ α} (t : τ) (inside : m.phase t = .inside) (empty : m.items = [])
      (isOpen : m.closed = false) : Step m (m.go t .dozing)
  | wait {m : Monitor τ α} (t : τ) (dozing : m.phase t = .dozing) :
      Step m { m.go t .waiting with owner := none }
  | wake {m : Monitor τ α} (t : τ) (waiting : m.phase t = .waiting) : Step m (m.go t .outside)
  | pop {m : Monitor τ α} (t : τ) (x : α) (rest : List α) (ready : m.phase t = .ready)
      (front : m.items = x :: rest) : Step m { m.go t .inside with items := rest }
  | push {m : Monitor τ α} (t : τ) (x : α) (inside : m.phase t = .inside) :
      Step m { m.go t .signalling with items := m.items ++ [x] }
  | keepQuiet {m : Monitor τ α} (t : τ) (signalling : m.phase t = .signalling)
      (several : m.items.length ≠ 1) : Step m (m.go t .inside)
  | broadcast {m : Monitor τ α} (t : τ) (signalling : m.phase t = .signalling)
      (single : m.items.length = 1) :
      Step m { m with phase := Function.update m.notified t .inside }
  | close {m : Monitor τ α} : Step m { m with closed := true }
  | flush {m : Monitor τ α} (t : τ) (inside : m.phase t = .inside) (isClosed : m.closed = true) :
      Step m { m with phase := m.notified, flushed := true }

namespace Inv

/-- The invariant of a state in which at most one given thread holds the mutex. -/
theorem of_alone (others : ∀ u, u ≠ t → (m.phase u).holds = false)
    (owner : m.owner = if (m.phase t).holds then some t else none)
    (knows : m.Knows (m.phase t))
    (notified : m.items ≠ [] → m.NobodyWaits ∨ ∃ t, m.phase t = .signalling)
    (flushed : m.flushed = true → m.closed = true ∧ m.NobodyWaits) : m.Inv where
  owner u := by
    rw [owner]
    by_cases same : u = t
    · subst same
      cases (m.phase u).holds <;> simp
    · rw [others u same]
      split
      · simp [Ne.symm same]
      · simp
  knows u := by
    by_cases same : u = t
    · rwa [same]
    · exact knows_of_not_holds (others u same)
  notified := notified
  flushed := flushed

theorem nobodyWaits_go (nobody : m.NobodyWaits) {phase : Phase} (awake : phase ≠ .waiting) :
    (m.go t phase).NobodyWaits := by
  intro u
  by_cases same : u = t
  · simpa [go, same] using awake
  · simpa [go, same] using nobody u

/-- A step of the owner inside the mutex that leaves the queue alone. -/
theorem go (inv : m.Inv) (holds : (m.phase t).holds = true) (quiet : m.phase t ≠ .signalling)
    {phase : Phase} (stays : phase.holds = true) (knows : (m.go t phase).Knows phase) :
    (m.go t phase).Inv := by
  have awake : phase ≠ .waiting := by
    rintro rfl
    simp [Phase.holds] at stays
  apply of_alone (t := t)
  · intro u other
    simpa [Monitor.go, other] using inv.alone holds other
  · simpa [Monitor.go, stays] using (inv.owner t).mpr holds
  · simpa [Monitor.go] using knows
  · intro some
    exact Or.inl (nobodyWaits_go (inv.nobodyWaits holds quiet some) awake)
  · intro flushed
    exact ⟨(inv.flushed flushed).1, nobodyWaits_go (inv.flushed flushed).2 awake⟩

theorem step (inv : m.Inv) (step : Step m m') : m'.Inv := by
  cases step with
  | enter t free outside =>
      have nobody : ∀ u, (m.phase u).holds = false := by
        intro u
        by_contra holds
        simp only [Bool.not_eq_false] at holds
        simp [(inv.owner u).mpr holds] at free
      apply of_alone (t := t)
      · intro u other
        simpa [Monitor.go, other] using nobody u
      · simp [Monitor.go, Phase.holds]
      · simp [Monitor.go, Knows]
      · intro some
        rcases inv.notified some with awake | ⟨u, signals⟩
        · exact Or.inl (nobodyWaits_go awake (by simp))
        · have holds := nobody u
          rw [signals] at holds
          simp [Phase.holds] at holds
      · intro flushed
        exact ⟨(inv.flushed flushed).1, nobodyWaits_go (inv.flushed flushed).2 (by simp)⟩
  | leave t inside =>
      have holds : (m.phase t).holds = true := by simp [inside, Phase.holds]
      apply of_alone (t := t)
      · intro u other
        simpa [Monitor.go, other] using inv.alone holds other
      · simp [Monitor.go, Phase.holds]
      · simp [Monitor.go, Knows]
      · intro some
        exact Or.inl (nobodyWaits_go (inv.nobodyWaits holds (by simp [inside]) some) (by simp))
      · intro flushed
        exact ⟨(inv.flushed flushed).1, nobodyWaits_go (inv.flushed flushed).2 (by simp)⟩
  | pass t inside goesOn =>
      apply inv.go
      · simp [inside, Phase.holds]
      · simp [inside]
      · rfl
      · exact goesOn
  | find t inside found =>
      apply inv.go
      · simp [inside, Phase.holds]
      · simp [inside]
      · rfl
      · exact found
  | confirm t passed isOpen =>
      have known := inv.knows t
      simp only [passed, Knows, isOpen, Bool.false_eq_true, or_false] at known
      apply inv.go
      · simp [passed, Phase.holds]
      · simp [passed]
      · rfl
      · exact known
  | abandon t passed =>
      apply inv.go
      · simp [passed, Phase.holds]
      · simp [passed]
      · rfl
      · trivial
  | doze t inside empty isOpen =>
      apply inv.go
      · simp [inside, Phase.holds]
      · simp [inside]
      · rfl
      · refine ⟨empty, ?_⟩
        by_contra flushed
        simp only [Bool.not_eq_false] at flushed
        simp [(inv.flushed flushed).1] at isOpen
  | wait t dozing =>
      have known := inv.knows t
      simp only [dozing, Knows] at known
      rcases known with ⟨empty, open'⟩
      apply of_alone (t := t)
      · intro u other
        simpa [Monitor.go, other] using inv.alone (by simp [dozing, Phase.holds]) other
      · simp [Monitor.go, Phase.holds]
      · simp [Monitor.go, Knows]
      · intro some
        exact absurd empty some
      · intro flushed
        simp [Monitor.go, open'] at flushed
  | wake t waiting =>
      have stays : ∀ u, ((m.go t .outside).phase u).holds = (m.phase u).holds := by
        intro u
        by_cases same : u = t
        · simp [Monitor.go, same, waiting, Phase.holds]
        · simp [Monitor.go, same]
      refine ⟨?_, ?_, ?_, ?_⟩
      · intro u
        rw [stays]
        exact inv.owner u
      · intro u
        by_cases same : u = t
        · simp [Monitor.go, same, Knows]
        · have known := inv.knows u
          simp only [Monitor.go, Function.update_of_ne same]
          cases phase : m.phase u <;> simp only [phase, Knows] at known ⊢
          all_goals try exact known
          exact ⟨known.1, fun several => nobodyWaits_go (known.2 several) (by simp)⟩
      · intro some
        rcases inv.notified some with awake | ⟨u, signals⟩
        · exact Or.inl (nobodyWaits_go awake (by simp))
        · right
          refine ⟨u, ?_⟩
          have other : u ≠ t := by
            rintro rfl
            simp [waiting] at signals
          simpa [Monitor.go, other] using signals
      · intro flushed
        exact ⟨(inv.flushed flushed).1, nobodyWaits_go (inv.flushed flushed).2 (by simp)⟩
  | pop t x rest ready front =>
      have holds : (m.phase t).holds = true := by simp [ready, Phase.holds]
      have awake := inv.nobodyWaits holds (by simp [ready]) (by simp [front])
      apply of_alone (t := t)
      · intro u other
        simpa [Monitor.go, other] using inv.alone holds other
      · simpa [Monitor.go, Phase.holds] using (inv.owner t).mpr holds
      · simp [Monitor.go, Knows]
      · intro _
        exact Or.inl (nobodyWaits_go awake (by simp))
      · intro flushed
        exact ⟨(inv.flushed flushed).1, nobodyWaits_go awake (by simp)⟩
  | push t x inside =>
      have holds : (m.phase t).holds = true := by simp [inside, Phase.holds]
      apply of_alone (t := t)
      · intro u other
        simpa [Monitor.go, other] using inv.alone holds other
      · simpa [Monitor.go, Phase.holds] using (inv.owner t).mpr holds
      · simp only [Monitor.go, Function.update_self, Knows]
        refine ⟨by simp, ?_⟩
        intro several
        -- with a second element in the queue nobody was left waiting before the push
        have before : m.items ≠ [] := by
          rintro empty
          simp [empty] at several
        exact nobodyWaits_go (inv.nobodyWaits holds (by simp [inside]) before) (by simp)
      · intro _
        exact Or.inr ⟨t, by simp [Monitor.go]⟩
      · intro flushed
        exact ⟨(inv.flushed flushed).1, nobodyWaits_go (inv.flushed flushed).2 (by simp)⟩
  | keepQuiet t signalling several =>
      have holds : (m.phase t).holds = true := by simp [signalling, Phase.holds]
      have known := inv.knows t
      simp only [signalling, Knows] at known
      apply of_alone (t := t)
      · intro u other
        simpa [Monitor.go, other] using inv.alone holds other
      · simpa [Monitor.go, Phase.holds] using (inv.owner t).mpr holds
      · simp [Monitor.go, Knows]
      · intro _
        exact Or.inl (nobodyWaits_go (known.2 several) (by simp))
      · intro flushed
        exact ⟨(inv.flushed flushed).1, nobodyWaits_go (inv.flushed flushed).2 (by simp)⟩
  | broadcast t signalling single =>
      have holds : (m.phase t).holds = true := by simp [signalling, Phase.holds]
      have awake : ({ m with phase := Function.update m.notified t .inside } :
          Monitor τ α).NobodyWaits := by
        intro u
        by_cases same : u = t
        · simp [same]
        · simpa [same] using m.notified_ne_waiting u
      apply of_alone (t := t)
      · intro u other
        simpa [other, holds_notified] using inv.alone holds other
      · simpa [Phase.holds] using (inv.owner t).mpr holds
      · simp [Knows]
      · intro _
        exact Or.inl awake
      · intro flushed
        exact ⟨(inv.flushed flushed).1, awake⟩
  | close =>
      refine ⟨inv.owner, ?_, inv.notified, ?_⟩
      · intro u
        have known := inv.knows u
        cases phase : m.phase u <;> simp only [phase, Knows] at known ⊢
        · exact Or.inr trivial
        · exact known
        · exact known
        · exact known
      · intro flushed
        exact ⟨rfl, (inv.flushed flushed).2⟩
  | flush t inside isClosed =>
      have holds : (m.phase t).holds = true := by simp [inside, Phase.holds]
      apply of_alone (t := t)
      · intro u other
        simpa [holds_notified] using inv.alone holds other
      · simpa [holds_notified, holds] using (inv.owner t).mpr holds
      · simp [Monitor.notified, inside, Knows]
      · intro _
        exact Or.inl m.notified_ne_waiting
      · intro _
        exact ⟨isClosed, m.notified_ne_waiting⟩

end Inv

end Steps

end Monitor

end BlockingQueue
