import ChaosCache.DataCache.Initial
import ChaosCache.Server

/-!
# The loop of a worker

Whatever the others do, a worker moves through its own loop. A call of the cache moves it between
the cases of the `switch` and the sections of the call.
-/

namespace ChaosCache

open Relation Reqrep

/-- The op codes of `opt_t`. -/
def HasCase (op : ℕ) : Prop := op ≤ codeOpDeleteByKey

instance (op : ℕ) : Decidable (HasCase op) := inferInstanceAs (Decidable (_ ≤ _))

/-- The op code that asks for a call. -/
def Call.op : Call → ℕ
  | .get _ => codeOpGetValueByKey
  | .store _ _ _ => codeOpSetKeyValue
  | .delete _ => codeOpDeleteByKey

theorem Call.hasCase_op (call : Call) : HasCase call.op := by
  cases call with
  | get key => exact Nat.le_succ 2
  | store key inbuffer bufflen => exact Nat.le_add_right 1 2
  | delete key => exact Nat.le_refl 3

theorem map_eq_ok {ε α β : Type} {first : Except ε α} {f : α → β} {result : β} :
    first.map f = .ok result ↔ ∃ value, first = .ok value ∧ f value = result := by
  cases first with
  | ok value => simp [Except.map]
  | error fault => simp [Except.map]

/-- The case that an op code leads to. -/
def Case.IsFor (op : ℕ) : Case → Prop
  | .cache call => op = call.op
  | .shutDown => op = codeOpShutDown
  | .noCase => ¬HasCase op

theorem Message.isFor_of_operation {m : Message} {req : Datarequested} {operation : Case}
    (operates : m.operation req = .ok operation) : operation.IsFor req.header.op := by
  simp only [Message.operation] at operates
  split at operates
  case isTrue isGet =>
    rcases map_eq_ok.mp operates with ⟨key, -, rfl⟩
    exact isGet
  case isFalse notGet =>
    split at operates
    case isTrue isSet =>
      rcases map_eq_ok.mp operates with ⟨key, -, rfl⟩
      exact isSet
    case isFalse notSet =>
      split at operates
      case isTrue isDelete =>
        rcases map_eq_ok.mp operates with ⟨key, -, rfl⟩
        exact isDelete
      case isFalse notDelete =>
        split at operates
        case isTrue isShutDown =>
          cases operates
          exact isShutDown
        case isFalse notShutDown =>
          cases operates
          simp only [Case.IsFor, HasCase, codeOpGetValueByKey, codeOpSetKeyValue,
            codeOpDeleteByKey, codeOpShutDown] at *
          omega

namespace Worker

variable {w w' : Worker} {op : ℕ} {ret : ℤ} {padding : ℕ → UInt8}

/-! ## The steps of one worker -/

/-- What a worker does by itself. -/
inductive Moves (w : Worker) : Worker → Prop where
  | call {req : Datarequested} : w.place = .receiving → HasCase req.header.op →
      Moves w { w.receive req with place := .calling req.header.op }
  | miss {req : Datarequested} {ret : ℤ} {padding : ℕ → UInt8} {w' : Worker} :
      w.place = .receiving → HasCase req.header.op →
        (w.receive req).reply req.header.op ret padding = .ok w' → Moves w w'
  | shutDown {req : Datarequested} {padding : ℕ → UInt8} {w' : Worker} :
      w.place = .receiving → req.header.op = codeOpShutDown →
        { w.receive req with closeall := true }.reply codeOpShutDown 0 padding = .ok w' →
          Moves w w'
  | noCase {req : Datarequested} : w.place = .receiving → ¬HasCase req.header.op →
      Moves w { w.receive req with place := .replying }
  | goOn {op : ℕ} : w.place = .calling op → Moves w { w with place := .calling op }
  | hit {mem : Mem} {it : ℕ} {padding : ℕ → UInt8} {w₁ w' : Worker} :
      w.place = .calling codeOpGetValueByKey → w.copyOut mem it = .ok w₁ →
        w₁.reply codeOpGetValueByKey 0 padding = .ok w' → Moves w w'
  | returns {op : ℕ} {padding : ℕ → UInt8} {w' : Worker} :
      w.place = .calling op → w.reply op 0 padding = .ok w' → Moves w w'
  | finish {w' : Worker} {message : List UInt8} :
      w.place = .replying → w.finish = .ok (w', message) → Moves w w'

theorem of_reply (replied : w.reply op ret padding = .ok w') :
    ∃ replybuffer rep, rep.header.op = op ∧ w' =
      { w with
        place := .replying
        replybuffer
        rep := some w.replies.count
        replies := w.replies.new rep
        log := w.log ++ [.newReply w.replies.count op] } := by
  simp only [reply] at replied
  split at replied
  case h_1 => cases replied
  case h_2 replybuffer rep isReply =>
    cases replied
    refine ⟨replybuffer, rep, ?_, rfl⟩
    split at isReply
    · exact congrArg RepHeader.op (header_of_datareplied isReply)
    · exact congrArg RepHeader.op (header_of_datareplied isReply)

theorem of_copyOut {mem : Mem} {it : ℕ} (copied : w.copyOut mem it = .ok w') :
    mem.nbytes it ≤ bufferSize ∧ w' =
      { w with
        byteUsed := DataCache.toInt32 (mem.nbytes it)
        cachebuffer := writeBytes w.cachebuffer 0 (mem.data it)
        hits := mem.data it :: w.hits } := by
  simp only [copyOut] at copied
  split at copied
  · cases copied
  · cases copied
    exact ⟨Nat.not_lt.mp ‹_›, rfl⟩

end Worker

/-! ## Steps of the server -/

/-- A section of a thread leaves the other threads where they are. -/
theorem Threads.phase_of_call {t t' : Threads} {i : ℕ} {call : Call} {sys : System}
    (run : t.step (.call i call sys) = .ok t') :
    (∀ j, j ≠ i → t'.phase j = t.phase j) ∧
      ∀ it, t'.phase i = .getting it → call.op = codeOpGetValueByKey := by
  refine ⟨fun j other => phase_of_step run (by simpa [Action.actor] using other.symm), ?_⟩
  rcases bind_eq_ok.mp run with ⟨⟨cache, phase⟩, started, done⟩
  cases done
  · intro it isGetting
    simp only [enter, Function.update_self] at isGetting
    cases call with
    | get key => rfl
    | store key inbuffer bufflen =>
        rcases bind_eq_ok.mp started with ⟨⟨c, found⟩, -, rest⟩
        cases found <;> cases rest <;> cases isGetting
    | delete key =>
        rcases bind_eq_ok.mp started with ⟨⟨c, found⟩, -, rest⟩
        cases found <;> cases rest <;> cases isGetting

theorem Threads.phase_of_resume {t t' : Threads} {i : ℕ} {sys : System}
    (run : t.step (.resume i sys) = .ok t') :
    (∀ j, j ≠ i → t'.phase j = t.phase j) ∧ (∀ it, t'.phase i ≠ .getting it) ∧
      ∀ it, t.phase i = .getting it → t'.phase i = .idle ∧ t'.cache = t.cache := by
  refine ⟨fun j other => phase_of_step run (by simpa [Action.actor] using other.symm), ?_⟩
  rcases bind_eq_ok.mp run with ⟨⟨cache, phase⟩, resumed, done⟩
  cases done
  constructor
  · intro it isGetting
    simp only [enter, Function.update_self] at isGetting
    subst isGetting
    cases before : t.phase i <;> simp only [before, Phase.resume] at resumed
    case idle | getting => cases resumed
    case storing | copied | deleting | unlinked =>
      rcases bind_eq_ok.mp resumed with ⟨c, -, rest⟩
      cases rest
  · intro it isGetting
    simp only [isGetting, Phase.resume, Except.ok.injEq, Prod.mk.injEq] at resumed
    rcases resumed with ⟨rfl, rfl⟩
    simp [enter]

theorem Threads.phase_of_maintain {t t' : Threads} (run : t.step .maintain = .ok t') :
    t'.phase = t.phase := by
  rcases bind_eq_ok.mp run with ⟨cache, -, done⟩
  cases done
  rfl

namespace ZmqServer

variable {s s' : ZmqServer} {i : ℕ}

/-- A worker is in a call of the cache exactly when it is in the case of one, and only the case of
`GET` calls `getItem`. -/
def Coupled (s : ZmqServer) (i : ℕ) : Prop :=
  match (s.worker i).place with
  | .calling op => s.threads.phase i ≠ .idle ∧
      ∀ it, s.threads.phase i = .getting it → op = codeOpGetValueByKey
  | _ => s.threads.phase i = .idle

theorem section_eq_ok {action : ChaosCache.Action} {threads : Threads} :
    s.runSection action = .ok threads ↔ s.threads.step action = .ok threads := by
  unfold runSection
  cases s.threads.step action <;> simp [Except.mapError]

theorem of_leave {w w' : Worker} {phase : Phase} {op : ℕ} {ret : ℤ} {padding : ℕ → UInt8}
    (left : w.leave phase op ret padding = .ok w') :
    phase = .idle ∧ w.reply op ret padding = .ok w' ∨
      phase ≠ .idle ∧ w' = { w with place := .calling op } := by
  simp only [Worker.leave] at left
  split at left
  case h_1 => exact Or.inl ⟨rfl, left⟩
  case h_2 busy =>
    cases left
    exact Or.inr ⟨busy, rfl⟩

theorem of_enter {w w' : Worker} {phase : Phase} {mem : Mem}
    (entered : w.enter phase mem = .ok w') :
    (∃ it, phase = .getting it ∧ w.copyOut mem it = .ok w') ∨
      (∀ it, phase ≠ .getting it) ∧ w' = w := by
  cases phase <;> simp only [Worker.enter] at entered
  case getting it => exact Or.inl ⟨it, rfl, entered⟩
  case idle | storing | copied | deleting | unlinked =>
    cases entered
    exact Or.inr ⟨by simp, rfl⟩

/-- A step of a worker, or of the maintenance thread, and what it leaves alone. -/
inductive Effect (s s' : ZmqServer) : Prop where
  | worker (i : ℕ) : (∀ j, j ≠ i → s'.worker j = s.worker j) →
      (∀ j, j ≠ i → s'.threads.phase j = s.threads.phase j) → (s.worker i).Moves (s'.worker i) →
        s'.Coupled i → Effect s s'
  | maintain : s'.worker = s.worker → s'.threads.phase = s.threads.phase → Effect s s'

theorem effect_of_receive {m : Message} {sys : System} {padding : ℕ → UInt8} (coupled : s.Coupled i)
    (receiving : (s.worker i).place = .receiving)
    (run : s.step (.receive i m sys padding) = .ok s') : Effect s s' := by
  have idle : s.threads.phase i = .idle := by simpa [Coupled, receiving] using coupled
  simp only [step] at run
  split at run
  case isTrue => cases run
  case isFalse =>
    rcases bind_eq_ok.mp run with ⟨operation, operates, rest⟩
    have isFor := Message.isFor_of_operation operates
    cases operation with
    | cache call =>
        rcases bind_eq_ok.mp rest with ⟨threads, ran, rest⟩
        rcases bind_eq_ok.mp rest with ⟨w, left, done⟩
        cases done
        rcases Threads.phase_of_call (section_eq_ok.mp ran) with ⟨others, getting⟩
        have hasCase := isFor ▸ call.hasCase_op
        apply Effect.worker i
        · intro j other
          simp [other]
        · exact others
        · simp only [Function.update_self]
          rcases of_leave left with ⟨-, replied⟩ | ⟨-, rfl⟩
          · exact .miss receiving hasCase replied
          · exact .call receiving hasCase
        · simp only [Coupled, Function.update_self]
          rcases of_leave left with ⟨returned, replied⟩ | ⟨busy, rfl⟩
          · rcases Worker.of_reply replied with ⟨replybuffer, rep, -, rfl⟩
            exact returned
          · exact ⟨busy, fun it isGetting => isFor.trans (getting it isGetting)⟩
    | shutDown =>
        rcases bind_eq_ok.mp rest with ⟨w, replied, done⟩
        cases done
        apply Effect.worker i
        · intro j other
          simp [other]
        · exact fun _ _ => rfl
        · simp only [Function.update_self]
          exact .shutDown receiving isFor replied
        · rcases Worker.of_reply replied with ⟨replybuffer, rep, -, rfl⟩
          simpa [Coupled] using idle
    | noCase =>
        cases rest
        apply Effect.worker i
        · intro j other
          simp [other]
        · exact fun _ _ => rfl
        · simp only [Function.update_self]
          exact .noCase receiving isFor
        · simpa [Coupled] using idle

theorem effect_of_resume {op : ℕ} {sys : System} {padding : ℕ → UInt8} (coupled : s.Coupled i)
    (calling : (s.worker i).place = .calling op)
    (run : s.step (.resume i sys padding) = .ok s') : Effect s s' := by
  simp only [Coupled, calling] at coupled
  simp only [step, calling] at run
  rcases bind_eq_ok.mp run with ⟨w₁, entered, rest⟩
  rcases bind_eq_ok.mp rest with ⟨threads, ran, rest⟩
  rcases bind_eq_ok.mp rest with ⟨w, left, done⟩
  cases done
  rcases Threads.phase_of_resume (section_eq_ok.mp ran) with ⟨others, notGetting, returns⟩
  apply Effect.worker i
  · intro j other
    simp [other]
  · exact others
  · simp only [Function.update_self]
    rcases of_enter entered with ⟨it, getting, copied⟩ | ⟨-, rfl⟩
    · have isGet := coupled.2 it getting
      subst isGet
      rcases of_leave left with ⟨-, replied⟩ | ⟨busy, -⟩
      · exact .hit calling copied replied
      · exact absurd (returns it getting).1 busy
    · rcases of_leave left with ⟨-, replied⟩ | ⟨-, rfl⟩
      · exact .returns calling replied
      · exact .goOn calling
  · simp only [Coupled, Function.update_self]
    rcases of_leave left with ⟨returned, replied⟩ | ⟨busy, rfl⟩
    · rcases Worker.of_reply replied with ⟨replybuffer, rep, -, rfl⟩
      exact returned
    · exact ⟨busy, fun it isGetting => absurd isGetting (notGetting it)⟩

theorem effect_of_finish (coupled : s.Coupled i) (replying : (s.worker i).place = .replying)
    (run : s.step (.finish i) = .ok s') : Effect s s' := by
  have idle : s.threads.phase i = .idle := by simpa [Coupled, replying] using coupled
  rcases bind_eq_ok.mp run with ⟨⟨w, message⟩, finished, done⟩
  cases done
  apply Effect.worker i
  · intro j other
    simp [other]
  · exact fun _ _ => rfl
  · simp only [Function.update_self]
    exact .finish replying finished
  · rcases bind_eq_ok.mp finished with ⟨message, -, rest⟩
    rcases bind_eq_ok.mp rest with ⟨requests, -, rest⟩
    rcases bind_eq_ok.mp rest with ⟨replies, -, done⟩
    cases done
    simp only [Coupled, Function.update_self]
    cases (s.worker i).closeall <;> exact idle

theorem effect_of_step (coupled : ∀ i, s.Coupled i) (step : Step s s') : Effect s s' := by
  rcases step with ⟨action, enabled, run⟩
  cases action with
  | receive i m sys padding => exact effect_of_receive (coupled i) enabled run
  | resume i sys padding =>
      rcases enabled with ⟨op, calling⟩
      exact effect_of_resume (coupled i) calling run
  | finish i => exact effect_of_finish (coupled i) enabled run
  | maintain =>
      rcases bind_eq_ok.mp run with ⟨threads, ran, done⟩
      cases done
      exact .maintain rfl (Threads.phase_of_maintain (section_eq_ok.mp ran))

/-- In every run each worker goes through its own loop, and is coupled to its calls. -/
theorem workers_of_run {cache : LruLists} {buffers : ℕ → (ℕ → UInt8) × (ℕ → UInt8)}
    (run : ReflTransGen Step (init cache buffers) s) (i : ℕ) :
    s.Coupled i ∧
      ReflTransGen Worker.Moves (.create (buffers i).1 (buffers i).2) (s.worker i) := by
  induction run generalizing i with
  | refl => exact ⟨rfl, .refl⟩
  | tail _ last ih =>
      cases effect_of_step (fun i => (ih i).1) last with
      | worker j others phases moves coupled =>
          by_cases same : i = j
          · subst same
            exact ⟨coupled, (ih i).2.tail moves⟩
          · rw [Coupled, others i same, phases i same]
            exact ih i
      | maintain workers phases =>
          rw [Coupled, workers, phases]
          exact ih i

/-- A new server, whose buffers hold zeros. -/
def start : ZmqServer := init (DataCache.new .zero 64 0) fun _ => (fun _ => 0, fun _ => 0)

/-- A request in a message of its own. -/
def requestMessage (key data : List UInt8) (op : ℕ) : Message where
  bytes a := (message (fun _ => 0) key data op).getD (a - 4096) 0
  serialized := 4096
  totbytes := (message (fun _ => 0) key data op).length

/-- Worker 0 receives a request. -/
def receiveRequest (key data : List UInt8) (op : ℕ) (sys : System) : Action :=
  .receive 0 (requestMessage key data op) sys fun _ => 0

end ZmqServer

end ChaosCache
