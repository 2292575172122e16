import Mathlib.Data.List.Nodup
import Mathlib.Data.Set.Basic
import Mathlib.Logic.Function.Basic

/-!
# Linearizability

Processes call the operations of an object. A history records where calls are made and where they
return, the first event first, and a call is known by the position of its invocation. A history is
linearizable if some of its calls, all those among them that have returned, can be put in an order
in which the object itself may give the same answers, and in which no call stands before one that
had returned when it was made.

An atomic object answers a call at one moment between its invocation and its return. Its histories
are linearizable, and so are those of every system that it simulates.
-/

namespace Linearizability

inductive Event (Proc Op Ret : Type*) where
  | invoke (proc : Proc) (op : Op)
  | respond (proc : Proc) (ret : Ret)

variable {State Proc Op Ret : Type*}

def Event.proc : Event Proc Op Ret → Proc
  | invoke proc _ => proc
  | respond proc _ => proc

/-- What an operation may return in a state, and the state that it leaves. -/
abbrev Spec (State Op Ret : Type*) := State → Op → Ret → State → Prop

/-- Operations that the object has answered one after the other. -/
inductive Legal (spec : Spec State Op Ret) (init : State) : List (Op × Ret) → State → Prop
  | nil : Legal spec init [] init
  | snoc {calls : List (Op × Ret)} {state state' : State} {op : Op} {ret : Ret} :
      Legal spec init calls state → spec state op ret state' →
        Legal spec init (calls ++ [(op, ret)]) state'

/-- The call that was made at a position, and what it has returned or will return. -/
structure Answer (Op Ret : Type*) where
  call : ℕ
  op : Op
  ret : Ret

/-- The call made at position `i` has returned at position `j`. -/
structure Returned (history : List (Event Proc Op Ret)) (i j : ℕ) (proc : Proc) (op : Op)
    (ret : Ret) : Prop where
  before : i < j
  invoked : history[i]? = some (.invoke proc op)
  responded : history[j]? = some (.respond proc ret)
  between : ∀ k, i < k → k < j → ∀ event, history[k]? = some event → event.proc ≠ proc

/-- An order of calls that explains a history. -/
structure Linearization (spec : Spec State Op Ret) (init : State)
    (history : List (Event Proc Op Ret)) (order : List (Answer Op Ret)) : Prop where
  legal : ∃ final, Legal spec init (order.map fun answer => (answer.op, answer.ret)) final
  once : (order.map Answer.call).Nodup
  invoked : ∀ answer ∈ order, ∃ proc, history[answer.call]? = some (.invoke proc answer.op)
  returned : ∀ i j proc op ret, Returned history i j proc op ret → ⟨i, op, ret⟩ ∈ order
  realTime : ∀ i j proc op ret, Returned history i j proc op ret →
    ∀ answer ∈ order, j < answer.call → [i, answer.call].Sublist (order.map Answer.call)

def Linearizable (spec : Spec State Op Ret) (init : State) (history : List (Event Proc Op Ret)) :
    Prop :=
  ∃ order, Linearization spec init history order

/-! ## Events one after the other -/

variable {history : List (Event Proc Op Ret)} {event : Event Proc Op Ret} {i j : ℕ} {proc : Proc}
  {op : Op} {ret : Ret}

theorem getElem?_snoc {α : Type*} {xs : List α} {x y : α} {k : ℕ} :
    (xs ++ [x])[k]? = some y ↔ xs[k]? = some y ∨ k = xs.length ∧ x = y := by
  rcases Nat.lt_trichotomy k xs.length with inside | rfl | outside
  · simp [List.getElem?_append_left inside, inside.ne]
  · simp
  · have past : (xs ++ [x])[k]? = none := by
      rw [List.getElem?_eq_none_iff, List.length_append, List.length_singleton]
      exact outside
    have past' : xs[k]? = none := List.getElem?_eq_none_iff.mpr outside.le
    simp [past, past', outside.ne']

theorem lt_length_of_getElem? {α : Type*} {xs : List α} {x : α} {k : ℕ} (here : xs[k]? = some x) :
    k < xs.length :=
  (List.getElem?_eq_some_iff.mp here).1

/-- The call that a process has made at position `i` is the last event of it. -/
structure Open (history : List (Event Proc Op Ret)) (proc : Proc) (i : ℕ) (op : Op) : Prop where
  invoked : history[i]? = some (.invoke proc op)
  last : ∀ k, i < k → ∀ event, history[k]? = some event → event.proc ≠ proc

theorem Open.of_invoke (history : List (Event Proc Op Ret)) (proc : Proc) (op : Op) :
    Open (history ++ [.invoke proc op]) proc history.length op where
  invoked := getElem?_snoc.mpr (Or.inr ⟨rfl, rfl⟩)
  last k later event' here := by
    have inside := lt_length_of_getElem? here
    simp only [List.length_append, List.length_singleton] at inside
    omega

/-- Events of other processes do not answer a call. -/
theorem Open.snoc (isOpen : Open history proc i op) (other : event.proc ≠ proc) :
    Open (history ++ [event]) proc i op where
  invoked := getElem?_snoc.mpr (Or.inl isOpen.invoked)
  last k later event' here := by
    rcases getElem?_snoc.mp here with old | ⟨-, rfl⟩
    · exact isOpen.last k later event' old
    · exact other

/-- A process has one open call. -/
theorem Open.unique {i' : ℕ} {op' : Op} (isOpen : Open history proc i op)
    (isOpen' : Open history proc i' op') : i = i' ∧ op = op' := by
  have same : i = i' := by
    rcases Nat.lt_trichotomy i i' with before | same | after
    · exact absurd rfl (isOpen.last i' before _ isOpen'.invoked)
    · exact same
    · exact absurd rfl (isOpen'.last i after _ isOpen.invoked)
  subst same
  have invoked := isOpen.invoked.symm.trans isOpen'.invoked
  simp only [Option.some.injEq, Event.invoke.injEq, true_and] at invoked
  exact ⟨rfl, invoked⟩

/-- A call that has returned had returned before, or returns with the last event. -/
theorem Returned.of_snoc (returned : Returned (history ++ [event]) i j proc op ret) :
    Returned history i j proc op ret ∨
      j = history.length ∧ event = .respond proc ret ∧ Open history proc i op := by
  have invoked : history[i]? = some (.invoke proc op) := by
    rcases getElem?_snoc.mp returned.invoked with old | ⟨atEnd, -⟩
    · exact old
    · have inside := lt_length_of_getElem? returned.responded
      have before := returned.before
      simp only [List.length_append, List.length_singleton] at inside
      omega
  have old {k : ℕ} {event' : Event Proc Op Ret} (here : history[k]? = some event') :
      (history ++ [event])[k]? = some event' :=
    getElem?_snoc.mpr (Or.inl here)
  rcases getElem?_snoc.mp returned.responded with responded | ⟨atEnd, isResponse⟩
  · left
    exact ⟨returned.before, invoked, responded,
      fun k after before event' here => returned.between k after before event' (old here)⟩
  · refine Or.inr ⟨atEnd, isResponse, invoked, fun k after event' here => ?_⟩
    have inside := lt_length_of_getElem? here
    exact returned.between k after (atEnd ▸ inside) event' (old here)

/-! ## The atomic object -/

/-- How far a process is in a call. -/
inductive Status (Op Ret : Type*) where
  | idle
  | pending (op : Op)
  | done (ret : Ret)

/-- An object whose operations act at one moment. -/
structure Atomic (State Proc Op Ret : Type*) where
  object : State
  status : Proc → Status Op Ret

namespace Atomic

variable {spec : Spec State Op Ret} {init : State} {m m' m'' : Atomic State Proc Op Ret}

/-- What the status of a process says about the history and the order of the calls that have
acted. -/
def Tracks (history : List (Event Proc Op Ret)) (order : List (Answer Op Ret)) (proc : Proc) :
    Status Op Ret → Prop
  | .idle => True
  | .pending op => ∃ i, Open history proc i op ∧ i ∉ order.map Answer.call
  | .done ret => ∃ i op, Open history proc i op ∧ ⟨i, op, ret⟩ ∈ order

theorem Tracks.snoc {order : List (Answer Op Ret)} {status : Status Op Ret}
    (tracks : Tracks history order proc status) (other : event.proc ≠ proc) :
    Tracks (history ++ [event]) order proc status := by
  cases status with
  | idle => trivial
  | pending op =>
      rcases tracks with ⟨i, isOpen, notActed⟩
      exact ⟨i, isOpen.snoc other, notActed⟩
  | done ret =>
      rcases tracks with ⟨i, op, isOpen, acted⟩
      exact ⟨i, op, isOpen.snoc other, acted⟩

/-- The calls that have acted, in this order, explain the history and have led to the object. -/
structure Explains (spec : Spec State Op Ret) (init : State) (history : List (Event Proc Op Ret))
    (order : List (Answer Op Ret)) (m : Atomic State Proc Op Ret) : Prop where
  legal : Legal spec init (order.map fun answer => (answer.op, answer.ret)) m.object
  linearization : Linearization spec init history order
  tracks : ∀ proc, Tracks history order proc (m.status proc)

namespace Explains

variable {order : List (Answer Op Ret)}

theorem start (spec : Spec State Op Ret) (init : State) :
    Explains spec init ([] : List (Event Proc Op Ret)) [] ⟨init, fun _ => .idle⟩ where
  legal := .nil
  linearization :=
    { legal := ⟨init, .nil⟩
      once := List.nodup_nil
      invoked := by simp
      returned := fun i j proc op ret returned => by simpa using returned.invoked
      realTime := by simp }
  tracks _ := trivial

theorem lt_length (explains : Explains spec init history order m) {call : ℕ}
    (isCall : call ∈ order.map Answer.call) : call < history.length := by
  rcases List.mem_map.mp isCall with ⟨answer, acted, rfl⟩
  rcases explains.linearization.invoked answer acted with ⟨proc, invoked⟩
  exact lt_length_of_getElem? invoked

end Explains

section Runs

variable [DecidableEq Proc]

def set (m : Atomic State Proc Op Ret) (proc : Proc) (status : Status Op Ret) :
    Atomic State Proc Op Ret :=
  ⟨m.object, Function.update m.status proc status⟩

@[simp]
theorem set_status_self {status : Status Op Ret} : (m.set proc status).status proc = status :=
  Function.update_self ..

/-- The steps of the object, with the events that they show. -/
inductive Step (spec : Spec State Op Ret) :
    Atomic State Proc Op Ret → List (Event Proc Op Ret) → Atomic State Proc Op Ret → Prop
  | invoke {m : Atomic State Proc Op Ret} {proc : Proc} (op : Op) (idle : m.status proc = .idle) :
      Step spec m [.invoke proc op] (m.set proc (.pending op))
  | act {m : Atomic State Proc Op Ret} {proc : Proc} {op : Op} {ret : Ret} {object : State}
      (pending : m.status proc = .pending op) (acts : spec m.object op ret object) :
      Step spec m [] ⟨object, Function.update m.status proc (.done ret)⟩
  | respond {m : Atomic State Proc Op Ret} {proc : Proc} {ret : Ret}
      (done : m.status proc = .done ret) : Step spec m [.respond proc ret] (m.set proc .idle)

inductive Run (spec : Spec State Op Ret) :
    Atomic State Proc Op Ret → List (Event Proc Op Ret) → Atomic State Proc Op Ret → Prop
  | refl (m : Atomic State Proc Op Ret) : Run spec m [] m
  | snoc {m m' m'' : Atomic State Proc Op Ret} {history events : List (Event Proc Op Ret)} :
      Run spec m history m' → Step spec m' events m'' → Run spec m (history ++ events) m''

namespace Run

variable {history history' : List (Event Proc Op Ret)}

theorem single {events : List (Event Proc Op Ret)} (step : Step spec m events m') :
    Run spec m events m' :=
  .snoc (.refl m) step

theorem trans (first : Run spec m history m') (second : Run spec m' history' m'') :
    Run spec m (history ++ history') m'' := by
  induction second with
  | refl => simpa using first
  | snoc run step ih =>
      rw [← List.append_assoc]
      exact .snoc ih step

theorem after (first : Run spec m [] m') (second : Run spec m' history m'') :
    Run spec m history m'' := by
  simpa using first.trans second

/-- A call that is made and acts at once. -/
theorem invoke_act {object : State} (idle : m.status proc = .idle)
    (acts : spec m.object op ret object) :
    Run spec m [.invoke proc op] ⟨object, Function.update m.status proc (.done ret)⟩ := by
  have made : Run spec m [.invoke proc op] (m.set proc (.pending op)) :=
    .single (.invoke op idle)
  have acted : Run spec (m.set proc (.pending op)) []
      ⟨object, Function.update m.status proc (.done ret)⟩ := by
    convert Run.single (Step.act (m := m.set proc (.pending op)) set_status_self acts) using 1
    simp [set]
  exact made.trans acted

/-- A call that is made, acts and returns at once. -/
theorem call {object : State} (idle : m.status proc = .idle)
    (acts : spec m.object op ret object) :
    Run spec m [.invoke proc op, .respond proc ret] ⟨object, m.status⟩ := by
  have returned : Run spec ⟨object, Function.update m.status proc (.done ret)⟩
      [.respond proc ret] ⟨object, m.status⟩ := by
    have idle : Function.update m.status proc .idle = m.status := by
      rw [← idle, Function.update_eq_self]
    have returns : Step spec ⟨object, Function.update m.status proc (.done ret)⟩
        [.respond proc ret]
        (Atomic.set ⟨object, Function.update m.status proc (.done ret)⟩ proc .idle) :=
      .respond (Function.update_self ..)
    simpa [set, idle] using Run.single returns
  exact (invoke_act idle acts).trans returned

/-- A pending call that acts and returns at once. -/
theorem act_respond {object : State} (pending : m.status proc = .pending op)
    (acts : spec m.object op ret object) :
    Run spec m [.respond proc ret] ⟨object, Function.update m.status proc .idle⟩ := by
  have acted : Run spec m [] ⟨object, Function.update m.status proc (.done ret)⟩ :=
    .single (.act pending acts)
  have returns : Step spec ⟨object, Function.update m.status proc (.done ret)⟩
      [.respond proc ret]
      (Atomic.set ⟨object, Function.update m.status proc (.done ret)⟩ proc .idle) :=
    .respond (Function.update_self ..)
  simpa [set] using acted.after (.single returns)

/-- Calls that leave the object as it is act one after the other. -/
theorem act_unchanged {procs : List Proc} (once : procs.Nodup)
    (pending : ∀ proc ∈ procs, m.status proc = .pending op)
    (acts : spec m.object op ret m.object) :
    Run spec m []
      ⟨m.object, fun proc => if proc ∈ procs then .done ret else m.status proc⟩ := by
  induction procs with
  | nil => simpa using Run.refl m
  | cons first rest ih =>
      rw [List.nodup_cons] at once
      have before := ih once.2 fun proc isRest => pending proc (List.mem_cons_of_mem _ isRest)
      have isPending : (⟨m.object, fun proc => if proc ∈ rest then .done ret else m.status proc⟩ :
          Atomic State Proc Op Ret).status first = .pending op := by
        simp only [if_neg once.1]
        exact pending first List.mem_cons_self
      convert before.after (.single (.act isPending acts)) using 2
      funext proc
      by_cases same : proc = first
      · simp [same]
      · simp [same]

/-- The same call of several processes, which acts as if it were made once. -/
theorem act_all {procs : List Proc} (once : procs.Nodup)
    (pending : ∀ proc ∈ procs, m.status proc = .pending op) {object : State}
    (acts : spec m.object op ret object) (again : spec object op ret object)
    (some : procs ≠ []) :
    Run spec m []
      ⟨object, fun proc => if proc ∈ procs then .done ret else m.status proc⟩ := by
  cases procs with
  | nil => exact absurd rfl some
  | cons first rest =>
      rw [List.nodup_cons] at once
      have acted : Run spec m [] ⟨object, Function.update m.status first (.done ret)⟩ :=
        .single (.act (pending first List.mem_cons_self) acts)
      have others : ∀ proc ∈ rest,
          Function.update m.status first (.done ret) proc = .pending op := by
        intro proc isRest
        rw [Function.update_of_ne (ne_of_mem_of_not_mem isRest once.1)]
        exact pending proc (List.mem_cons_of_mem _ isRest)
      convert acted.after (act_unchanged
        (m := ⟨object, Function.update m.status first (.done ret)⟩) once.2 others again) using 2
      funext proc
      by_cases same : proc = first
      · simp [same]
      · simp [same]

end Run

namespace Explains

variable {order : List (Answer Op Ret)}

/-- One more event, of a process whose call has acted if the event is its return. -/
theorem snoc (event : Event Proc Op Ret) (explains : Explains spec init history order m)
    (acted : ∀ ret, event = .respond event.proc ret → m.status event.proc = .done ret)
    {status : Status Op Ret} (tracks : Tracks (history ++ [event]) order event.proc status) :
    Explains spec init (history ++ [event]) order (m.set event.proc status) where
  legal := explains.legal
  linearization :=
    { legal := ⟨_, explains.legal⟩
      once := explains.linearization.once
      invoked := by
        intro answer isAnswer
        rcases explains.linearization.invoked answer isAnswer with ⟨proc, invoked⟩
        exact ⟨proc, getElem?_snoc.mpr (Or.inl invoked)⟩
      returned := by
        intro i j proc op ret returned
        rcases returned.of_snoc with before | ⟨-, rfl, isOpen⟩
        · exact explains.linearization.returned i j proc op ret before
        · have tracked := explains.tracks proc
          have done : m.status proc = .done ret := acted ret rfl
          rw [done] at tracked
          rcases tracked with ⟨i', op', isOpen', isAnswer⟩
          rcases isOpen.unique isOpen' with ⟨rfl, rfl⟩
          exact isAnswer
      realTime := by
        intro i j proc op ret returned answer isAnswer later
        rcases returned.of_snoc with before | ⟨rfl, -, -⟩
        · exact explains.linearization.realTime i j proc op ret before answer isAnswer later
        · have inside := explains.lt_length (List.mem_map_of_mem isAnswer)
          exact absurd later inside.not_gt }
  tracks proc := by
    by_cases same : proc = event.proc
    · subst same
      simpa [set] using tracks
    · simpa [set, same] using (explains.tracks proc).snoc (Ne.symm same)

/-- A call acts: it comes last in the order, and nothing that has returned is missing there. -/
theorem act (explains : Explains spec init history order m)
    (pending : m.status proc = .pending op) {object : State}
    (acts : spec m.object op ret object) :
    ∃ call, Explains spec init history (order ++ [⟨call, op, ret⟩])
      ⟨object, Function.update m.status proc (.done ret)⟩ := by
  have tracked := explains.tracks proc
  rw [pending] at tracked
  rcases tracked with ⟨call, isOpen, notActed⟩
  have legal : Legal spec init
      ((order ++ [(⟨call, op, ret⟩ : Answer Op Ret)]).map fun answer => (answer.op, answer.ret))
      object := by
    rw [List.map_append]
    exact .snoc explains.legal acts
  refine ⟨call, legal, ⟨⟨object, legal⟩, ?_, ?_, ?_, ?_⟩, ?_⟩
  · rw [List.map_append, List.map_singleton]
    refine explains.linearization.once.append (List.nodup_singleton _) ?_
    simpa [List.disjoint_singleton] using notActed
  · intro answer isAnswer
    rcases List.mem_append.mp isAnswer with old | new
    · exact explains.linearization.invoked answer old
    · rw [List.mem_singleton.mp new]
      exact ⟨proc, isOpen.invoked⟩
  · intro i j proc' op' ret' returned
    exact List.mem_append_left _ (explains.linearization.returned i j proc' op' ret' returned)
  · intro i j proc' op' ret' returned answer isAnswer later
    rw [List.map_append]
    rcases List.mem_append.mp isAnswer with old | new
    · exact (explains.linearization.realTime i j proc' op' ret' returned answer old later).trans
        (List.sublist_append_left _ _)
    · -- every call that has returned stands before the one that acts now
      have acted := explains.linearization.returned i j proc' op' ret' returned
      rw [List.mem_singleton.mp new]
      have first : [i].Sublist (order.map Answer.call) :=
        List.singleton_sublist.mpr (List.mem_map_of_mem acted)
      exact first.append (List.Sublist.refl [call])
  · intro proc'
    by_cases same : proc' = proc
    · subst same
      simp only [Function.update_self, Tracks]
      exact ⟨call, op, isOpen, List.mem_append_right _ (List.mem_singleton.mpr rfl)⟩
    · simp only [Function.update_of_ne same]
      have before := explains.tracks proc'
      cases status : m.status proc' with
      | idle => trivial
      | done ret' =>
          rw [status] at before
          rcases before with ⟨i, op', isOpen', acted⟩
          exact ⟨i, op', isOpen', List.mem_append_left _ acted⟩
      | pending op' =>
          rw [status] at before
          rcases before with ⟨i, isOpen', notActed'⟩
          refine ⟨i, isOpen', ?_⟩
          rw [List.map_append, List.mem_append, not_or]
          refine ⟨notActed', ?_⟩
          simp only [List.map_cons, List.map_nil, List.mem_singleton]
          rintro rfl
          -- one position holds the invocation of one process
          have invoked := isOpen.invoked.symm.trans isOpen'.invoked
          simp only [Option.some.injEq, Event.invoke.injEq] at invoked
          exact same invoked.1.symm

theorem step (explains : Explains spec init history order m) {events : List (Event Proc Op Ret)}
    (step : Step spec m events m') :
    ∃ order', Explains spec init (history ++ events) order' m' := by
  cases step with
  | @invoke proc op idle =>
      refine ⟨order, explains.snoc (.invoke proc op) (fun ret isResponse => ?_) ?_⟩
      · cases isResponse
      · refine ⟨history.length, .of_invoke history proc op, fun acted => ?_⟩
        exact absurd (explains.lt_length acted) (Nat.lt_irrefl _)
  | @act proc op ret object pending acts =>
      rcases explains.act pending acts with ⟨call, after⟩
      exact ⟨_, by simpa using after⟩
  | @respond proc ret done =>
      refine ⟨order, explains.snoc (.respond proc ret) (fun ret' isResponse => ?_)
        trivial⟩
      simp only [Event.proc, Event.respond.injEq, true_and] at isResponse
      rw [← isResponse]
      exact done

end Explains

theorem explains_of_run (run : Run spec ⟨init, fun _ => .idle⟩ history m) :
    ∃ order, Explains spec init history order m := by
  induction run with
  | refl => exact ⟨[], .start spec init⟩
  | snoc _ step ih =>
      rcases ih with ⟨order, explains⟩
      exact explains.step step

end Runs

end Atomic

/-! ## Answers that arrive later -/

section Later

variable {spec : Spec State Op Ret} {late : Proc → Option Ret}

namespace Atomic

variable {m m' : Atomic State Proc Op Ret}

/-- The object where some calls that have returned are answered later. -/
def later (m : Atomic State Proc Op Ret) (late : Proc → Option Ret) : Atomic State Proc Op Ret :=
  ⟨m.object, fun proc => (late proc).elim (m.status proc) .done⟩

theorem later_status (notLate : late proc = none) : (m.later late).status proc = m.status proc := by
  simp [later, notLate]

variable [DecidableEq Proc]

theorem later_set (notLate : late proc = none) (object : State) (status : Status Op Ret) :
    Atomic.later ⟨object, Function.update m.status proc status⟩ late =
      ⟨object, Function.update (m.later late).status proc status⟩ := by
  simp only [later, mk.injEq, true_and]
  funext other
  by_cases same : other = proc
  · subst same
    simp [notLate]
  · simp [same]

/-- A step of a process whose calls are answered in time. -/
theorem Step.later {events : List (Event Proc Op Ret)} (step : Step spec m events m')
    (idle : ∀ proc, late proc ≠ none → m.status proc = .idle)
    (apart : ∀ event ∈ events, late event.proc = none) :
    Step spec (m.later late) events (m'.later late) ∧
      ∀ proc, late proc ≠ none → m'.status proc = .idle := by
  have kept {other : Proc} (inTime : late other = none) {status : Status Op Ret} (proc : Proc)
      (isLate : late proc ≠ none) : Function.update m.status other status proc = .idle := by
    rw [Function.update_of_ne, idle proc isLate]
    rintro rfl
    exact isLate inTime
  cases step with
  | @invoke proc op isIdle =>
      have inTime : late proc = none := apart _ (List.mem_singleton.mpr rfl)
      refine ⟨?_, kept inTime⟩
      rw [set, later_set inTime]
      exact .invoke op (by rw [later_status inTime, isIdle])
  | @act proc op ret object pending acts =>
      have inTime : late proc = none := by
        by_contra isLate
        cases pending.symm.trans (idle proc isLate)
      refine ⟨?_, kept inTime⟩
      rw [later_set inTime]
      exact .act (by rw [later_status inTime, pending]) acts
  | @respond proc ret done =>
      have inTime : late proc = none := apart _ (List.mem_singleton.mpr rfl)
      refine ⟨?_, kept inTime⟩
      rw [set, later_set inTime]
      exact .respond (by rw [later_status inTime, done])

theorem Run.later (run : Run spec m history m')
    (idle : ∀ proc, late proc ≠ none → m.status proc = .idle)
    (apart : ∀ event ∈ history, late event.proc = none) :
    Run spec (m.later late) history (m'.later late) ∧
      ∀ proc, late proc ≠ none → m'.status proc = .idle := by
  induction run with
  | refl => exact ⟨.refl _, idle⟩
  | snoc _ step ih =>
      rcases ih fun event isIn => apart event (List.mem_append_left _ isIn) with
        ⟨before, idle'⟩
      rcases step.later idle' fun event isIn => apart event (List.mem_append_right _ isIn) with
        ⟨taken, idle''⟩
      exact ⟨before.snoc taken, idle''⟩

/-- A run without the return that comes last: the process is still to be answered. -/
theorem Run.withhold {events : List (Event Proc Op Ret)} (run : Run spec m events m')
    (ends : events = history ++ [.respond proc ret]) (idle : m'.status proc = .idle) :
    Run spec m history (m'.set proc (.done ret)) := by
  induction run generalizing history with
  | refl => simp at ends
  | @snoc m₁ _ shown _ _ step ih =>
      cases step with
      | @invoke other op isIdle =>
          have same := (List.append_inj' ends rfl).2
          simp at same
      | @act other op answer object pending acts =>
          rw [List.append_nil] at ends
          have differs : proc ≠ other := by
            rintro rfl
            simp at idle
          have before : m₁.status proc = .idle := by simpa [differs] using idle
          have acted : Step spec (m₁.set proc (.done ret)) []
              ⟨object, Function.update (m₁.set proc (.done ret)).status other (.done answer)⟩ :=
            .act (by simpa [set, differs.symm] using pending) acts
          have swapped : Atomic.set ⟨object, Function.update m₁.status other (.done answer)⟩ proc
              (.done ret) =
              ⟨object, Function.update (m₁.set proc (.done ret)).status other (.done answer)⟩ := by
            simp only [set, Function.update_comm differs]
          rw [swapped]
          simpa using (ih ends before).trans (.single acted)
      | @respond other answer done =>
          rcases List.append_inj' ends rfl with ⟨rfl, same⟩
          simp only [List.cons.injEq, Event.respond.injEq, and_true] at same
          rcases same with ⟨rfl, rfl⟩
          have back : (m₁.set other .idle).set other (.done answer) = m₁ := by
            simp only [set, Function.update_idem, ← done, Function.update_eq_self]
          rwa [back]

end Atomic

end Later

/-! ## Processes that change nothing -/

section Hiding

variable [DecidableEq Proc] {spec : Spec State Op Ret} {hidden : Proc}

/-- The events of the other processes. -/
def hide (hidden : Proc) (history : List (Event Proc Op Ret)) : List (Event Proc Op Ret) :=
  history.filter fun event => event.proc ≠ hidden

theorem hide_nil : hide hidden ([] : List (Event Proc Op Ret)) = [] := rfl

theorem hide_append (history history' : List (Event Proc Op Ret)) :
    hide hidden (history ++ history') = hide hidden history ++ hide hidden history' :=
  List.filter_append _ _

theorem hide_own (event : Event Proc Op Ret) (isHidden : event.proc = hidden) :
    hide hidden [event] = [] := by
  simp [hide, isHidden]

theorem hide_other (event : Event Proc Op Ret) (notHidden : event.proc ≠ hidden) :
    hide hidden [event] = [event] := by
  simp [hide, notHidden]

/-- An operation that leaves the object as it is. -/
def Unchanging (spec : Spec State Op Ret) (op : Op) : Prop :=
  ∀ object ret object', spec object op ret object' → object' = object

namespace Atomic

variable {m m' : Atomic State Proc Op Ret}

@[simp]
theorem set_idem {status status' : Status Op Ret} :
    (m.set proc status).set proc status' = m.set proc status' := by
  simp [set]

theorem set_comm {other : Proc} (differs : other ≠ hidden) {status status' : Status Op Ret} :
    (m.set other status).set hidden status' = (m.set hidden status').set other status := by
  simp only [set, Function.update_comm differs]

/-- The step of a hidden process is none, and that of another is one as before. -/
theorem Step.hide {events : List (Event Proc Op Ret)} (step : Step spec m events m')
    (pending : ∀ op, m.status hidden = .pending op → Unchanging spec op)
    (calls : ∀ op, .invoke hidden op ∈ events → Unchanging spec op) :
    Run spec (m.set hidden .idle) (hide hidden events) (m'.set hidden .idle) ∧
      ∀ op, m'.status hidden = .pending op → Unchanging spec op := by
  have others {proc : Proc} (differs : proc ≠ hidden) {status : Status Op Ret} (op : Op)
      (isPending : Function.update m.status proc status hidden = .pending op) :
      Unchanging spec op := by
    rw [Function.update_of_ne differs.symm] at isPending
    exact pending op isPending
  have same {proc : Proc} (differs : proc ≠ hidden) :
      (m.set hidden .idle).status proc = m.status proc :=
    Function.update_of_ne differs _ _
  cases step with
  | @invoke proc op idle =>
      by_cases isHidden : proc = hidden
      · rw [hide_own (.invoke proc op) isHidden]
        subst isHidden
        rw [set_idem]
        refine ⟨.refl _, fun op' isPending => ?_⟩
        rw [set_status_self, Status.pending.injEq] at isPending
        exact isPending ▸ calls op (List.mem_singleton.mpr rfl)
      · rw [hide_other (.invoke proc op) isHidden, set_comm isHidden]
        exact ⟨.single (.invoke op (by rw [same isHidden, idle])), others isHidden⟩
  | @act proc op ret object isPending acts =>
      by_cases isHidden : proc = hidden
      · subst isHidden
        rw [pending op isPending _ _ _ acts]
        refine ⟨?_, fun op' isPending' => ?_⟩
        · have unchanged : Atomic.set ⟨m.object, Function.update m.status proc (.done ret)⟩ proc
              .idle = m.set proc .idle := by
            simp [set]
          rw [unchanged]
          exact .refl _
        · simp at isPending'
      · refine ⟨?_, others isHidden⟩
        have acted := Run.single (Step.act ((same isHidden).trans isPending) acts)
        simpa only [set, Function.update_comm isHidden, hide_nil] using acted
  | @respond proc ret done =>
      by_cases isHidden : proc = hidden
      · rw [hide_own (.respond proc ret) isHidden]
        subst isHidden
        rw [set_idem]
        exact ⟨.refl _, by simp⟩
      · rw [hide_other (.respond proc ret) isHidden, set_comm isHidden]
        exact ⟨.single (.respond (by rw [same isHidden, done])), others isHidden⟩

/-- A run without a process whose operations change nothing. -/
theorem Run.hide {history : List (Event Proc Op Ret)} (run : Run spec m history m')
    (hidden : Proc) (pending : ∀ op, m.status hidden = .pending op → Unchanging spec op)
    (calls : ∀ op, .invoke hidden op ∈ history → Unchanging spec op) :
    Run spec (m.set hidden .idle) (hide hidden history) (m'.set hidden .idle) ∧
      ∀ op, m'.status hidden = .pending op → Unchanging spec op := by
  induction run with
  | refl => exact ⟨.refl _, pending⟩
  | snoc _ step ih =>
      rcases ih fun op called => calls op (List.mem_append_left _ called) with ⟨before, pending'⟩
      rcases step.hide pending' fun op called => calls op (List.mem_append_right _ called) with
        ⟨taken, pending''⟩
      rw [hide_append]
      exact ⟨before.trans taken, pending''⟩

end Atomic

end Hiding

/-! ## Simulation -/

section Simulation

variable {System : Type*} (step : System → List (Event Proc Op Ret) → System → Prop)

/-- The histories of the runs of a system. -/
inductive Trace (start : System) : List (Event Proc Op Ret) → System → Prop
  | nil : Trace start [] start
  | snoc {history events : List (Event Proc Op Ret)} {s s' : System} :
      Trace start history s → step s events s' → Trace start (history ++ events) s'

variable {step} [DecidableEq Proc] {spec : Spec State Op Ret} {init : State}

/-- The histories without the events of a process are those of a system that does not show them. -/
theorem Trace.hide {start s : System} {history : List (Event Proc Op Ret)}
    (trace : Trace step start history s) (hidden : Proc) :
    Trace (fun s events s' => ∃ shown, step s shown s' ∧ events = hide hidden shown) start
      (hide hidden history) s := by
  induction trace with
  | nil => exact .nil
  | snoc _ taken ih =>
      rw [hide_append]
      exact .snoc ih ⟨_, taken, rfl⟩

/-- If every step of a system is some steps of the atomic object with the same events, then its
histories are linearizable. -/
theorem linearizable_of_simulation {relates : System → Atomic State Proc Op Ret → Prop}
    {start s : System} (starts : relates start ⟨init, fun _ => .idle⟩)
    (simulates : ∀ s m events s', relates s m → step s events s' →
      ∃ m', Atomic.Run spec m events m' ∧ relates s' m')
    (trace : Trace step start history s) :
    Linearizable spec init history ∧ ∃ m, relates s m := by
  obtain ⟨m, run, related⟩ :
      ∃ m, Atomic.Run spec ⟨init, fun _ => .idle⟩ history m ∧ relates s m := by
    induction trace with
    | nil => exact ⟨_, .refl _, starts⟩
    | snoc _ taken ih =>
        rcases ih with ⟨m, run, related⟩
        rcases simulates _ m _ _ related taken with ⟨m', more, related'⟩
        exact ⟨m', run.trans more, related'⟩
  rcases Atomic.explains_of_run run with ⟨order, explains⟩
  exact ⟨⟨order, explains.linearization⟩, m, related⟩

end Simulation

/-! ## A map that loses bindings -/

inductive MapOp (Key Value : Type*) where
  | get (key : Key)
  | store (key : Key) (value : Value)
  /-- A store for which there is no room. Who makes it is told the same as after any other. -/
  | refuse (key : Key) (value : Value)
  | delete (key : Key)
  | lose (keys : Set Key)

inductive MapRet (Value : Type*) where
  | value (found : Option Value)
  /-- What a store says about its success. -/
  | stored (success : Bool)
  | deleted
  | lost

section Map

variable {Key Value : Type*} [DecidableEq Key]

/-- The operations of a map. Every store says that it has succeeded, and one that is refused leaves
the map alone. -/
def mapSpec : Spec (Key → Option Value) (MapOp Key Value) (MapRet Value)
  | map, .get key, ret, map' => ret = .value (map key) ∧ map' = map
  | map, .store key value, ret, map' =>
      ret = .stored true ∧ map' = Function.update map key (some value)
  | map, .refuse _ _, ret, map' => ret = .stored true ∧ map' = map
  | map, .delete key, ret, map' => ret = .deleted ∧ map' = Function.update map key none
  | map, .lose keys, ret, map' =>
      ret = .lost ∧ (∀ key ∈ keys, map' key = none) ∧ ∀ key, key ∉ keys → map' key = map key

open Classical in
/-- A map without the bindings of some keys. -/
noncomputable def forget (map : Key → Option Value) (keys : Set Key) : Key → Option Value :=
  fun key => if key ∈ keys then none else map key

theorem mapSpec_lose (map : Key → Option Value) (keys : Set Key) :
    mapSpec map (.lose keys) .lost (forget map keys) :=
  ⟨rfl, fun _ isLost => if_pos isLost, fun _ notLost => if_neg notLost⟩

theorem mapSpec_delete_again (map : Key → Option Value) (key : Key) :
    mapSpec (Function.update map key none) (.delete key) .deleted (Function.update map key none) :=
  ⟨rfl, (Function.update_idem ..).symm⟩

end Map

end Linearizability
