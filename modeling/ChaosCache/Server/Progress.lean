import ChaosCache.Server.OwnReplies
import ChaosCache.Server.Service

/-!
# The progress of the workers

A worker that has received a request needs no other to answer it: no section of its call waits,
and there are at most two after the first one. What is left of an iteration is counted in the
worker's own steps.
-/

namespace ChaosCache

open Relation Reqrep

/-- The sections that are left of a call. -/
def Phase.sections : Phase → ℕ
  | idle => 0
  | storing _ _ _ => 2
  | copied _ => 1
  | getting _ => 1
  | deleting _ => 2
  | unlinked _ => 1

theorem Phase.sections_eq_zero {phase : Phase} : phase.sections = 0 ↔ phase = .idle := by
  cases phase <;> simp [sections]

theorem Phase.sections_le (phase : Phase) : phase.sections ≤ 2 := by
  cases phase <;> simp [sections]

theorem Threads.sections_of_resume {t t' : Threads} {i : ℕ} {sys : System}
    (busy : t.phase i ≠ .idle) (run : t.step (.resume i sys) = .ok t') :
    (t'.phase i).sections + 1 = (t.phase i).sections := by
  rcases bind_eq_ok.mp run with ⟨⟨cache, phase⟩, resumed, done⟩
  cases done
  cases current : t.phase i with
  | idle => exact absurd current busy
  | getting it =>
      rw [current] at resumed
      cases resumed
      simp [enter, Phase.sections]
  | storing | copied | deleting | unlinked =>
      rw [current] at resumed
      rcases bind_eq_ok.mp resumed with ⟨c, -, rest⟩
      cases rest
      simp [enter, Phase.sections]

namespace Worker

variable {w w' : Worker} {op : ℕ} {ret : ℤ} {padding : ℕ → UInt8}

/-- A worker in front of `send` has a reply. -/
def Alive (w : Worker) : Prop := w.place = .replying → ∃ rep, w.replies.get w.rep = .ok rep

theorem alive_of_place (place : w.place ≠ .replying) : w.Alive :=
  fun replying => absurd replying place

theorem alive_of_reply (replied : w.reply op ret padding = .ok w') :
    w'.place = .replying ∧ w'.Alive := by
  rcases of_reply replied with ⟨replybuffer, rep, -, rfl⟩
  refine ⟨rfl, fun _ => ⟨rep, ?_⟩⟩
  simp [Objects.get, Objects.new]

/-- The end of an iteration finds both objects alive if there is a reply. -/
theorem Alive.finish {ops : List ℕ} (alive : w.Alive) (handles : w.Handles ops)
    (replying : w.place = .replying) : ∃ finished, w.finish = .ok finished := by
  cases handles with
  | ready place => rcases place with place | place <;> simp [place] at replying
  | calling place => simp [place] at replying
  | replying _ _ _ own _ isRep live => exact ⟨_, finish_of_live own isRep live⟩
  | noCase _ _ _ only =>
      rcases alive replying with ⟨rep, isRep⟩
      cases rep' : w.rep with
      | none => simp [Objects.get, rep'] at isRep
      | some id => simp [Objects.get, rep', only.2 id] at isRep

end Worker

namespace ZmqServer

/-! ## Requests of clients -/

/-- A message is a request that a client has encoded, or asks to shut down. -/
def Action.Asks (keys : Set (List UInt8)) : Action → Prop
  | .receive _ m _ _ => (∃ r : ReceivedRequest, r.Fits keys ∧ m = r.message) ∨
      sizeofReqHeader ≤ m.totbytes ∧
        m.operation (datarequested m.bytes m.totbytes m.serialized).1 = .ok .shutDown
  | _ => True

/-- The action comes next for its worker, a request is one of a client with a short value, and the
section of the cache is regular. -/
structure Regular (keys : Set (List UInt8)) (s : ZmqServer) (action : Action) : Prop where
  enabled : s.Enabled action
  asks : action.Asks keys
  short : action.Short
  inCache : ∀ inCache ∈ action.inCache, s.threads.Regular keys inCache

/-- A step of a run that wraps no counter, and whose tail repairs spare the items in use. -/
structure Serving (keys : Set (List UInt8)) (s : ZmqServer) (action : Action) (s' : ZmqServer) :
    Prop where
  regular : s.Regular keys action
  noWrap : ∀ inCache ∈ action.inCache, s.threads.NoWrap inCache
  spares : s.threads.SparesUsed s'.threads
  run : s.step action = .ok s'

/-- A run with its actions. -/
inductive ServingRun (keys : Set (List UInt8)) (start : ZmqServer) :
    List Action → ZmqServer → Prop where
  | refl : ServingRun keys start [] start
  | snoc {actions : List Action} {action : Action} {s s' : ZmqServer} :
      ServingRun keys start actions s → s.Serving keys action s' →
        ServingRun keys start (actions ++ [action]) s'

variable {keys : Set (List UInt8)} {s s' : ZmqServer} {v : View} {i : ℕ} {action : Action}

theorem inCache_request (r : ReceivedRequest) (i : ℕ) (sys : System) (padding : ℕ → UInt8) :
    (Action.receive i r.message sys padding).inCache = some (.call i r.call sys) := by
  have operates : r.message.operation (datarequested r.message.bytes r.message.totbytes
    r.message.serialized).1 = .ok (.cache r.call) := r.operation_call
  simp only [Action.inCache, operates]

namespace Serving

theorem inSection (serving : s.Serving keys action s') {inCache : ChaosCache.Action}
    (isIn : inCache ∈ action.inCache) (run : s.threads.step inCache = .ok s'.threads)
    (positive : inCache.Positive) : s.Section keys s' inCache :=
  ⟨⟨serving.regular.inCache inCache isIn, serving.noWrap inCache isIn, run, Or.inl positive⟩,
    serving.spares⟩

/-- What the clients see of the step is known. -/
theorem serviceStep (serving : s.Serving keys action s') :
    ∃ events, ServiceStep keys s events s' := by
  have enabled := serving.regular.enabled
  have run := serving.run
  cases action with
  | receive i m sys padding =>
      rcases serving.regular.asks with ⟨r, fits, rfl⟩ | ⟨-, isShutDown⟩
      · have inSection := serving.inSection (inCache_request r i sys padding)
          (called_of_receive run) (r.positive_call fits i sys)
        exact ⟨_, .request fits enabled run inSection⟩
      · exact ⟨_, .shutDown isShutDown enabled run⟩
  | resume i sys padding =>
      rcases enabled with ⟨op, calling⟩
      have resumed := run
      simp only [step, calling] at resumed
      rcases bind_eq_ok.mp resumed with ⟨w₁, -, rest⟩
      rcases bind_eq_ok.mp rest with ⟨threads, ran, rest⟩
      rcases bind_eq_ok.mp rest with ⟨w, -, done⟩
      cases done
      exact ⟨_, .resume ⟨op, calling⟩ run
        (serving.inSection rfl (section_eq_ok.mp ran) trivial)⟩
  | finish i =>
      rcases bind_eq_ok.mp run with ⟨⟨w, message⟩, -, done⟩
      cases done
      exact ⟨_, .reply enabled run rfl⟩
  | maintain =>
      rcases bind_eq_ok.mp run with ⟨threads, ran, done⟩
      cases done
      exact ⟨_, .maintain run (serving.inSection rfl (section_eq_ok.mp ran) trivial)⟩

end Serving

/-! ## The steps of one worker -/

/-- The worker whose step it is. -/
def Action.worker : Action → Option ℕ
  | .receive i _ _ _ => some i
  | .resume i _ _ => some i
  | .finish i => some i
  | .maintain => none

def Action.receives (i : ℕ) : Action → Bool
  | .receive j _ _ _ => j = i
  | _ => false

/-- The steps of its own that are left to a worker until it has sent its reply. -/
def remaining (s : ZmqServer) (i : ℕ) : ℕ :=
  match (s.worker i).place with
  | .receiving => 0
  | .calling _ => (s.threads.phase i).sections + 1
  | .replying => 1
  | .closed => 0

/-- The number of replies that a worker has sent. -/
def repliesOf (s : ZmqServer) (i : ℕ) : ℕ := s.sent.countP fun reply => reply.1 = i

/-- What a step does to worker `i`. -/
inductive Turn (s s' : ZmqServer) (i : ℕ) : Action → Prop
  | other {action : Action} : action.worker ≠ some i → s'.worker i = s.worker i →
      s'.remaining i = s.remaining i → s'.repliesOf i = s.repliesOf i → Turn s s' i action
  | receive {m : Message} {sys : System} {padding : ℕ → UInt8} : s.remaining i = 0 →
      (s'.worker i).Alive → 0 < s'.remaining i → s'.repliesOf i = s.repliesOf i →
        Turn s s' i (.receive i m sys padding)
  | resume {sys : System} {padding : ℕ → UInt8} : s'.remaining i + 1 = s.remaining i →
      (s'.worker i).Alive → 0 < s'.remaining i → s'.repliesOf i = s.repliesOf i →
        Turn s s' i (.resume i sys padding)
  | finish : s.remaining i = 1 → (s'.worker i).Alive → s'.remaining i = 0 →
      s'.repliesOf i = s.repliesOf i + 1 → Turn s s' i (.finish i)

theorem remaining_le (s : ZmqServer) (i : ℕ) : s.remaining i ≤ 3 := by
  unfold remaining
  cases (s.worker i).place with
  | calling op => exact Nat.succ_le_succ (Phase.sections_le _)
  | receiving | replying | closed => simp

theorem remaining_congr (worker : s'.worker i = s.worker i)
    (phase : s'.threads.phase i = s.threads.phase i) : s'.remaining i = s.remaining i := by
  unfold remaining
  rw [worker, phase]

theorem turn_of_receive {m : Message} {sys : System} {padding : ℕ → UInt8}
    (regular : s.Regular keys (.receive i m sys padding))
    (run : s.step (.receive i m sys padding) = .ok s') :
    Turn s s' i (.receive i m sys padding) := by
  have receiving : (s.worker i).place = .receiving := regular.enabled
  have before : s.remaining i = 0 := by simp [remaining, receiving]
  simp only [step] at run
  split at run
  case isTrue => cases run
  case isFalse =>
    rcases bind_eq_ok.mp run with ⟨operation, operates, rest⟩
    cases operation with
    | cache call =>
        rcases bind_eq_ok.mp rest with ⟨threads, ran, rest⟩
        rcases bind_eq_ok.mp rest with ⟨w, left, done⟩
        cases done
        rcases of_leave left with ⟨-, replied⟩ | ⟨busy, rfl⟩
        · rcases Worker.alive_of_reply replied with ⟨place, alive⟩
          refine .receive before (by simpa using alive) ?_ rfl
          simp [remaining, place]
        · refine .receive before (Worker.alive_of_place ?_) ?_ rfl
          · simp
          · simp [remaining]
    | shutDown =>
        rcases bind_eq_ok.mp rest with ⟨w, replied, done⟩
        cases done
        rcases Worker.alive_of_reply replied with ⟨place, alive⟩
        refine .receive before (by simpa using alive) ?_ rfl
        simp [remaining, place]
    | noCase =>
        rcases regular.asks with ⟨r, -, rfl⟩ | ⟨-, isShutDown⟩
        · cases r.operation_call.symm.trans operates
        · cases isShutDown.symm.trans operates

theorem turn_of_resume {sys : System} {padding : ℕ → UInt8} (serves : s.Serves i)
    (enabled : s.Enabled (.resume i sys padding))
    (run : s.step (.resume i sys padding) = .ok s') : Turn s s' i (.resume i sys padding) := by
  rcases enabled with ⟨op, calling⟩
  have thread := serves.thread
  rw [calling] at thread
  have busy : s.threads.phase i ≠ .idle := by
    intro idle
    simp [idle, Phase.op] at thread
  have before : s.remaining i = (s.threads.phase i).sections + 1 := by simp [remaining, calling]
  simp only [step, calling] at run
  rcases bind_eq_ok.mp run with ⟨w₁, -, rest⟩
  rcases bind_eq_ok.mp rest with ⟨threads, ran, rest⟩
  rcases bind_eq_ok.mp rest with ⟨w, left, done⟩
  cases done
  have count := Threads.sections_of_resume busy (section_eq_ok.mp ran)
  rcases of_leave left with ⟨idle, replied⟩ | ⟨goesOn, rfl⟩
  · rcases Worker.alive_of_reply replied with ⟨place, alive⟩
    rw [Phase.sections_eq_zero.mpr idle] at count
    refine .resume ?_ (by simpa using alive) ?_ rfl
    · rw [before, ← count]
      simp [remaining, place]
    · simp [remaining, place]
  · refine .resume ?_ (Worker.alive_of_place ?_) ?_ rfl
    · rw [before, ← count]
      simp [remaining]
    · simp
    · simp [remaining]

theorem turn_of_finish (replying : (s.worker i).place = .replying)
    (run : s.step (.finish i) = .ok s') : Turn s s' i (.finish i) := by
  rcases bind_eq_ok.mp run with ⟨⟨w, message⟩, finished, done⟩
  cases done
  have place : w.place = .receiving ∨ w.place = .closed := by
    rcases bind_eq_ok.mp finished with ⟨reply, -, rest⟩
    rcases bind_eq_ok.mp rest with ⟨requests, -, rest⟩
    rcases bind_eq_ok.mp rest with ⟨replies, -, rest⟩
    cases rest
    simp only
    cases (s.worker i).closeall <;> simp
  have notReplying : w.place ≠ .replying := by
    rcases place with place | place <;> simp [place]
  refine .finish (by simp [remaining, replying]) (Worker.alive_of_place ?_) ?_ ?_
  · simpa using notReplying
  · rcases place with place | place <;> simp [remaining, place]
  · simp [repliesOf]

/-- A step of another worker, or of the maintenance thread. -/
theorem turn_of_other (run : s.step action = .ok s') (other : action.worker ≠ some i) :
    Turn s s' i action := by
  cases action with
  | receive j m sys padding =>
      have apart : i ≠ j := fun same => other (congrArg some same.symm)
      simp only [step] at run
      split at run
      case isTrue => cases run
      case isFalse =>
        rcases bind_eq_ok.mp run with ⟨operation, -, rest⟩
        cases operation with
        | cache call =>
            rcases bind_eq_ok.mp rest with ⟨threads, ran, rest⟩
            rcases bind_eq_ok.mp rest with ⟨w, -, done⟩
            cases done
            have phase := (Threads.phase_of_call (section_eq_ok.mp ran)).1 i apart
            have worker := Function.update_of_ne apart w s.worker
            exact .other other worker (remaining_congr worker phase) rfl
        | shutDown =>
            rcases bind_eq_ok.mp rest with ⟨w, -, done⟩
            cases done
            have worker := Function.update_of_ne apart w s.worker
            exact .other other worker (remaining_congr worker rfl) rfl
        | noCase =>
            cases rest
            refine .other other ?_ (remaining_congr ?_ rfl) rfl
            · simp [apart]
            · simp [apart]
  | resume j sys padding =>
      have apart : i ≠ j := fun same => other (congrArg some same.symm)
      simp only [step] at run
      split at run
      · rcases bind_eq_ok.mp run with ⟨w₁, -, rest⟩
        rcases bind_eq_ok.mp rest with ⟨threads, ran, rest⟩
        rcases bind_eq_ok.mp rest with ⟨w, -, done⟩
        cases done
        have phase := (Threads.phase_of_resume (section_eq_ok.mp ran)).1 i apart
        have worker := Function.update_of_ne apart w s.worker
        exact .other other worker (remaining_congr worker phase) rfl
      · cases run
        exact .other other rfl rfl rfl
  | finish j =>
      have apart : i ≠ j := fun same => other (congrArg some same.symm)
      rcases bind_eq_ok.mp run with ⟨⟨w, message⟩, -, done⟩
      cases done
      have worker := Function.update_of_ne apart w s.worker
      refine .other other worker (remaining_congr worker rfl) ?_
      simp [repliesOf, apart.symm]
  | maintain =>
      rcases bind_eq_ok.mp run with ⟨threads, ran, done⟩
      cases done
      have phase := congrFun (Threads.phase_of_maintain (section_eq_ok.mp ran)) i
      exact .other other rfl (remaining_congr rfl phase) rfl

theorem turn_of_serving (serves : ∀ i, s.Serves i) (serving : s.Serving keys action s') (i : ℕ) :
    Turn s s' i action := by
  by_cases own : action.worker = some i
  · cases action with
    | receive j m sys padding =>
        cases own
        exact turn_of_receive serving.regular serving.run
    | resume j sys padding =>
        cases own
        exact turn_of_resume (serves i) serving.regular.enabled serving.run
    | finish j =>
        cases own
        exact turn_of_finish serving.regular.enabled serving.run
    | maintain => cases own
  · exact turn_of_other serving.run own

namespace Turn

theorem alive (turn : Turn s s' i action) (alive : (s.worker i).Alive) : (s'.worker i).Alive := by
  cases turn with
  | other _ worker => rwa [worker]
  | receive _ alive' | resume _ alive' | finish _ alive' => exact alive'

/-- A request is answered, or in work. -/
theorem balance (turn : Turn s s' i action) :
    s'.repliesOf i + min (s'.remaining i) 1 =
      s.repliesOf i + min (s.remaining i) 1 + if action.receives i then 1 else 0 := by
  cases turn with
  | other notOwn _ remaining replies =>
      have notReceived : action.receives i = false := by
        cases action with
        | receive j => simpa [Action.receives, Action.worker] using notOwn
        | resume | finish | maintain => rfl
      rw [notReceived, remaining, replies]
      rfl
  | receive before _ after replies =>
      simp only [Action.receives, decide_true, if_true]
      omega
  | resume count _ after replies =>
      simp only [Action.receives, Bool.false_eq_true, if_false]
      omega
  | finish before _ after replies =>
      simp only [Action.receives, Bool.false_eq_true, if_false]
      omega

/-- A worker that has to reply does so with this step, or is a step nearer to it if it is its
own. -/
theorem nearer (turn : Turn s s' i action) :
    s.repliesOf i ≤ s'.repliesOf i ∧ (0 < s.remaining i → s.repliesOf i < s'.repliesOf i ∨
      0 < s'.remaining i ∧
        s'.remaining i + (if action.worker = some i then 1 else 0) = s.remaining i) := by
  cases turn with
  | other notOwn _ remaining replies =>
      rw [replies, remaining, if_neg notOwn]
      exact ⟨Nat.le_refl _, fun pending => Or.inr ⟨pending, rfl⟩⟩
  | receive before _ _ replies =>
      refine ⟨replies.ge, fun pending => ?_⟩
      omega
  | resume count _ after replies =>
      refine ⟨replies.ge, fun _ => Or.inr ⟨after, ?_⟩⟩
      simpa [Action.worker] using count
  | finish _ _ _ replies =>
      rw [replies]
      exact ⟨Nat.le_succ _, fun _ => Or.inl (Nat.lt_succ_self _)⟩

end Turn

/-! ## Runs -/

/-- What holds in a run that serves requests. -/
structure ServingInv (keys : Set (List UInt8)) (s : ZmqServer) : Prop where
  represents : ∃ m, s.Represents keys m
  knows : ∃ known, s.threads.Knows known maxValue
  alive : ∀ i, (s.worker i).Alive

namespace ServingInv

theorem init (keys : Set (List UInt8)) {mem : Mem} {cacheSize : ℕ} {os : Os}
    {initialMalloc : Option ℕ} {cache : LruLists} {buffers : ℕ → (ℕ → UInt8) × (ℕ → UInt8)}
    (created : DataCache.create .zero .zero mem cacheSize os initialMalloc = .ok cache) :
    (ZmqServer.init cache buffers).ServingInv keys where
  represents := ⟨_, represents_init keys created⟩
  knows := knows_of_run created .refl
  alive _ := Worker.alive_of_place (by simp [ZmqServer.init, Worker.create])

theorem serves (inv : s.ServingInv keys) (i : ℕ) : s.Serves i := by
  rcases inv.represents with ⟨m, v, map, -, -, serves, -⟩
  exact serves i

theorem step (inv : s.ServingInv keys) (keySet : KeySet keys)
    (serving : s.Serving keys action s') : s'.ServingInv keys := by
  rcases inv.represents with ⟨m, represents⟩
  rcases inv.knows with ⟨known, knows⟩
  rcases serving.serviceStep with ⟨events, step⟩
  rcases represents_step keySet represents step with ⟨m', -, represents'⟩
  refine ⟨⟨m', represents'⟩, ?_, ?_⟩
  · exact knows_of_step knows
      ⟨action, serving.regular.short, serving.regular.enabled, serving.run⟩
  · exact fun i => (turn_of_serving inv.serves serving i).alive (inv.alive i)

/-- No regular step fails, whatever the tail repairs do in it. -/
theorem returns (inv : s.ServingInv keys) (keySet : KeySet keys)
    (handles : ∀ i, ∃ ops, (s.worker i).Handles ops) (regular : s.Regular keys action) :
    ∃ s', s.step action = .ok s' := by
  rcases inv.represents with ⟨m, v, map, threadsInv, -, serves, -⟩
  cases action with
  | receive i m sys padding =>
      rcases regular.asks with ⟨r, fits, rfl⟩ | ⟨whole, isShutDown⟩
      · have inCache := regular.inCache _ (inCache_request r i sys padding)
        rcases threadsInv.returns keySet inCache (r.positive_call fits i sys) with ⟨threads, ran⟩
        have leftover := (serves i).leftover.receive
          (datarequested r.message.bytes r.message.totbytes r.message.serialized).1
        rcases leftover.leave (threads.phase i) (datarequested r.message.bytes r.message.totbytes
          r.message.serialized).1.header.op r.call.failed padding with ⟨w, left⟩
        have whole : ¬r.message.totbytes < sizeofReqHeader := by
          simp only [ReceivedRequest.message, totbytes_datarequestedInto]
          omega
        simp only [ZmqServer.step, if_neg whole]
        exact ⟨_, bind_of_ok r.operation_call
          (bind_of_ok (section_eq_ok.mpr ran) (bind_of_ok left rfl))⟩
      · rcases Worker.reply_of_other (by decide : codeOpShutDown ≠ codeOpGetValueByKey)
          { (s.worker i).receive (datarequested m.bytes m.totbytes m.serialized).1 with
            closeall := true } 0 padding with ⟨w, replied⟩
        simp only [ZmqServer.step, if_neg (Nat.not_lt.mpr whole)]
        exact ⟨_, bind_of_ok isShutDown (bind_of_ok replied rfl)⟩
  | resume i sys padding =>
      rcases regular.enabled with ⟨op, calling⟩
      rcases inv.knows with ⟨known, knows⟩
      have short : ∀ it, s.threads.phase i = .getting it →
          sizeofRepHeader + s.threads.cache.mem.nbytes it ≤ bufferSize := by
        intro it getting
        have isKnown := knows.items i it (by simp [getting, Phase.item])
        have fits := knows.cache.nbytes it isKnown
        simp only [maxValue, bufferSize, sizeofRepHeader] at fits ⊢
        omega
      rcases (serves i).leftover.enter short with ⟨w₁, entered, leftover⟩
      rcases threadsInv.returns keySet (regular.inCache _ rfl) trivial with ⟨threads, ran⟩
      rcases leftover.leave (threads.phase i) op 0 padding with ⟨w, left⟩
      simp only [ZmqServer.step, calling]
      exact ⟨_, bind_of_ok entered (bind_of_ok (section_eq_ok.mpr ran) (bind_of_ok left rfl))⟩
  | finish i =>
      rcases handles i with ⟨ops, handles⟩
      rcases (inv.alive i).finish handles regular.enabled with ⟨⟨w, message⟩, finished⟩
      exact ⟨_, bind_of_ok finished rfl⟩
  | maintain =>
      rcases threadsInv.returns keySet (regular.inCache _ rfl) trivial with ⟨threads, ran⟩
      exact ⟨_, bind_of_ok (section_eq_ok.mpr ran) rfl⟩

end ServingInv

namespace ServingRun

variable {actions : List Action}

theorem inv (run : ServingRun keys s actions s') (keySet : KeySet keys)
    (start : s.ServingInv keys) : s'.ServingInv keys := by
  induction run with
  | refl => exact start
  | snoc _ serving ih => exact ih.step keySet serving

theorem steps (run : ServingRun keys s actions s') : ReflTransGen Step s s' := by
  induction run with
  | refl => exact .refl
  | snoc _ serving ih => exact ih.tail ⟨_, serving.regular.enabled, serving.run⟩

/-- The requests that a worker has received are answered, or one of them is in work. -/
theorem balance (run : ServingRun keys s actions s') (keySet : KeySet keys)
    (start : s.ServingInv keys) (i : ℕ) :
    s'.repliesOf i + min (s'.remaining i) 1 =
      s.repliesOf i + min (s.remaining i) 1 + actions.countP (Action.receives i) := by
  induction run with
  | refl => rfl
  | snoc before serving ih =>
      have turn := turn_of_serving (before.inv keySet start).serves serving i
      rw [turn.balance, ih, List.countP_append, List.countP_singleton]
      omega

/-- A worker that has to reply has done so, or is nearer to it by its own steps. -/
theorem nearer (run : ServingRun keys s actions s') (keySet : KeySet keys)
    (start : s.ServingInv keys) (i : ℕ) (pending : 0 < s.remaining i) :
    s.repliesOf i ≤ s'.repliesOf i ∧ (s.repliesOf i < s'.repliesOf i ∨ 0 < s'.remaining i ∧
      s'.remaining i + actions.countP (·.worker = some i) = s.remaining i) := by
  induction run with
  | refl => exact ⟨Nat.le_refl _, Or.inr ⟨pending, rfl⟩⟩
  | snoc before serving ih =>
      rcases ih with ⟨grew, ih⟩
      rcases (turn_of_serving (before.inv keySet start).serves serving i).nearer with
        ⟨grows, closer⟩
      refine ⟨Nat.le_trans grew grows, ?_⟩
      rcases ih with replied | ⟨still, count⟩
      · exact Or.inl (Nat.lt_of_lt_of_le replied grows)
      · rcases closer still with replied | ⟨still', count'⟩
        · exact Or.inl (Nat.lt_of_le_of_lt grew replied)
        · refine Or.inr ⟨still', ?_⟩
          rw [List.countP_append, List.countP_singleton]
          simp only [decide_eq_true_eq]
          omega

end ServingRun

/-- In every run that serves the requests of clients without wrapped counters, and with tail repairs
that spare the items in use, no step fails, every request gets one reply, and a worker that has
received one sends it with the third of its next steps at the latest, whatever the others do. -/
theorem answers_of_run (keySet : KeySet keys) {mem : Mem} {cacheSize : ℕ} {os : Os}
    {initialMalloc : Option ℕ} {cache : LruLists} {buffers : ℕ → (ℕ → UInt8) × (ℕ → UInt8)}
    (created : DataCache.create .zero .zero mem cacheSize os initialMalloc = .ok cache)
    {actions : List Action} (run : ServingRun keys (init cache buffers) actions s) :
    (∀ action, s.Regular keys action → ∃ s', s.step action = .ok s') ∧
      ∀ i, s.repliesOf i + min (s.remaining i) 1 = actions.countP (Action.receives i) ∧
        s.remaining i ≤ 3 ∧
          ∀ more s', ServingRun keys s more s' → 0 < s.remaining i →
            s.remaining i ≤ more.countP (·.worker = some i) → s.repliesOf i < s'.repliesOf i := by
  have start : (init cache buffers).ServingInv keys := .init keys created
  have inv := run.inv keySet start
  refine ⟨fun action => inv.returns keySet fun i => ?_, fun i => ⟨?_, ?_, ?_⟩⟩
  · rcases Worker.Handles.of_moves (workers_of_run run.steps i).2 with ⟨ops, -, handles⟩
    exact ⟨ops, handles⟩
  · have count := run.balance keySet start i
    simpa [repliesOf, remaining, init, Worker.create] using count
  · exact s.remaining_le i
  · intro more s' others pending enough
    rcases (others.nearer keySet inv i pending).2 with replied | ⟨still, count⟩
    · exact replied
    · omega

theorem serving_of_calmStep {served : Served} (keySet : KeySet keys)
    (meets : served.Meets keys s.threads.cache.slabs) (run : s.calmStep served = some s') :
    s.Serving keys served.action s' := by
  rcases of_calmStep keySet meets run with ⟨enabled, step, ran⟩
  have isIn : ∀ inCache ∈ served.action.inCache, inCache ∈ served.inCache := by
    cases served with
    | request i r sys =>
        intro inCache isIn
        rwa [Served.action, inCache_request] at isIn
    | resume i sys => exact fun _ isIn => isIn
    | reply i => exact fun _ isIn => isIn
  refine ⟨⟨enabled, ?_, ?_, fun inCache isInCache => ?_⟩, fun inCache isInCache => ?_, ?_, step⟩
  · cases served with
    | request i r sys => exact Or.inl ⟨r, meets.1.1, rfl⟩
    | resume i sys => trivial
    | reply i => trivial
  · cases served with
    | request i r sys =>
        intro _
        have header : readHeader r.message.bytes r.message.serialized = _ := r.header
        have fits := meets.1.2
        rw [header]
        simp only [maxValue, bufferSize, sizeofRepHeader] at fits ⊢
        omega
    | resume i sys => trivial
    | reply i => trivial
  · exact (ran inCache (isIn inCache isInCache)).1.regular
  · exact (ran inCache (isIn inCache isInCache)).1.noWrap
  · cases served with
    | request i r sys => exact (ran _ rfl).2
    | resume i sys => exact (ran _ rfl).2
    | reply i =>
        rcases bind_eq_ok.mp step with ⟨⟨w, message⟩, -, done⟩
        cases done
        exact ⟨[], rfl, by simp⟩

/-- A `SET` and a `GET` were answered, and a third request was received. -/
theorem answers_of_run_setK : ∃ (actions : List Action) (s : ZmqServer),
    s.sent.map (fun sent => (sent.1, answer sent.2)) =
      [(1, .value (some [7])), (0, .stored true)] ∧ 0 < s.remaining 0 ∧
      (∀ action, s.Regular Threads.oneByteKeys action → ∃ s', s.step action = .ok s') ∧
      ∀ i, s.repliesOf i + min (s.remaining i) 1 = actions.countP (Action.receives i) ∧
        s.remaining i ≤ 3 ∧
          ∀ more s', ServingRun Threads.oneByteKeys s more s' → 0 < s.remaining i →
            s.remaining i ≤ more.countP (·.worker = some i) → s.repliesOf i < s'.repliesOf i := by
  have keySet := Threads.keySet_oneByteKeys
  have next (s s' : ZmqServer) (served : Served)
      (meets : served.Meets Threads.oneByteKeys s.threads.cache.slabs)
      (run : s.calmStep served = some s')
      (before : ∃ actions, ServingRun Threads.oneByteKeys start actions s) :
      ∃ actions, ServingRun Threads.oneByteKeys start actions s' := by
    rcases before with ⟨actions, run'⟩
    exact ⟨_, run'.snoc (serving_of_calmStep keySet meets run)⟩
  rcases serving_induction next ⟨[], .refl⟩ with ⟨s, ⟨actions, run⟩, answers, calling⟩
  have created := DataCache.create_eq .zero 64 ((DataCache.outOfMemory 0).os 0) none
  have pending : 0 < s.remaining 0 := by
    simp only [remaining, calling]
    exact Nat.succ_pos _
  exact ⟨actions, s, answers, pending, answers_of_run keySet created run⟩

end ZmqServer

end ChaosCache
