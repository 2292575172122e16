import Mathlib.Data.Set.Finite.Basic

/-!
# Maps that lose bindings

Histories of a map from keys to values whose bindings are held by handles. A store may
fail to obtain a handle, and a store may take handles away from other keys.
-/

namespace LossyMap

inductive Event (Key Value Handle : Type*) where
  /-- A store, with the handle that it obtained and the handles that it evicted. -/
  | store (key : Key) (value : Value) (obtained : Option Handle) (evicted : Set Handle)
  | delete (key : Key)
  | read (key : Key)

variable {Key Value Handle : Type*} {event : Event Key Value Handle}
  {history : List (Event Key Value Handle)} {key : Key} {handle : Handle} {value : Value}

namespace Event

/-- The event is a store that binds `key` to `value`. -/
def Binds (event : Event Key Value Handle) (key : Key) (handle : Handle) (value : Value) : Prop :=
  ∃ evicted, event = .store key value (some handle) evicted

/-- The event leaves the binding of `key` by `handle` alone. -/
def Keeps (key : Key) (handle : Handle) : Event Key Value Handle → Prop
  | store key' _ obtained evicted => (key' = key → obtained = none) ∧ handle ∉ evicted
  | delete key' => key' ≠ key
  | read _ => True

theorem not_keeps_of_binds (binds : event.Binds key handle value) (other : Handle) :
    ¬event.Keeps key other := by
  rcases binds with ⟨evicted, rfl⟩
  rintro ⟨replaced, -⟩
  simpa using replaced rfl

end Event

/-- After a history, the last event first: some store bound `key`, and every event since has
left its binding alone. -/
def Bound (history : List (Event Key Value Handle)) (key : Key) (handle : Handle) (value : Value) :
    Prop :=
  ∃ since event before, history = since ++ event :: before ∧ event.Binds key handle value ∧
    ∀ later ∈ since, later.Keeps key handle

theorem not_bound_nil : ¬Bound ([] : List (Event Key Value Handle)) key handle value := by
  rintro ⟨since, event, before, split, -⟩
  simp at split

/-- A binding is made by the last event, or made before and kept by it. -/
theorem bound_cons : Bound (event :: history) key handle value ↔
    event.Binds key handle value ∨ event.Keeps key handle ∧ Bound history key handle value := by
  constructor
  · rintro ⟨since, store, before, split, binds, keeps⟩
    cases since with
    | nil =>
        rcases List.cons.inj split with ⟨rfl, rfl⟩
        exact Or.inl binds
    | cons last since =>
        rcases List.cons.inj split with ⟨rfl, rfl⟩
        refine Or.inr ⟨keeps event (by simp), since, store, before, rfl, binds,
          fun later inSince => ?_⟩
        exact keeps later (List.mem_cons_of_mem _ inSince)
  · rintro (binds | ⟨keeps, since, store, before, rfl, binds, kept⟩)
    · exact ⟨[], event, history, rfl, binds, by simp⟩
    · refine ⟨event :: since, store, before, rfl, binds, fun later inSince => ?_⟩
      rcases List.mem_cons.mp inSince with rfl | inSince
      · exact keeps
      · exact kept later inSince

theorem Bound.unique (bound : Bound history key handle value) {handle' : Handle} {value' : Value}
    (bound' : Bound history key handle' value') : handle = handle' ∧ value = value' := by
  induction history with
  | nil => exact absurd bound not_bound_nil
  | cons event history ih =>
      rcases bound_cons.mp bound with binds | ⟨keeps, bound⟩ <;>
        rcases bound_cons.mp bound' with binds' | ⟨keeps', bound'⟩
      · rcases binds with ⟨evicted, rfl⟩
        rcases binds' with ⟨evicted', same⟩
        cases same
        exact ⟨rfl, rfl⟩
      · exact absurd keeps' (Event.not_keeps_of_binds binds handle')
      · exact absurd keeps (Event.not_keeps_of_binds binds' handle)
      · exact ih bound bound'

theorem finite_bound (history : List (Event Key Value Handle)) :
    {key | ∃ handle value, Bound history key handle value}.Finite := by
  induction history with
  | nil =>
      refine Set.finite_empty.subset ?_
      rintro key ⟨handle, value, bound⟩
      exact absurd bound not_bound_nil
  | cons event history ih =>
      have own : {key | ∃ handle value, event.Binds key handle value}.Finite := by
        refine Set.Subsingleton.finite ?_
        rintro key ⟨handle, value, evicted, rfl⟩ key' ⟨handle', value', evicted', same⟩
        cases same
        rfl
      refine (own.union ih).subset ?_
      rintro key ⟨handle, value, bound⟩
      rcases bound_cons.mp bound with binds | ⟨-, bound⟩
      · exact Or.inl ⟨handle, value, binds⟩
      · exact Or.inr ⟨handle, value, bound⟩

end LossyMap
