import ChaosCache.Server.Buffers
import ChaosCache.Server.Keys
import ChaosCache.Threads.Linearizability

/-!
# What the clients of the server see

Clients encode requests and decode replies. A request is made when a worker receives it, and is
answered when the worker has sent its reply, later than the call of the cache has returned. Every
`SET` is answered with success. One that has obtained no item is marked as refused in the history,
where it is received.
-/

namespace ChaosCache

open Linearizability Reqrep

/-! ## Requests and replies -/

/-- What a client makes of a reply. -/
def answer (reply : List UInt8) : CacheRet :=
  let memory i := reply.getD i 0
  let (rep, _) := datarepliedFrom memory reply.length 0
  let content := rep.data.elim [] fun offset =>
    readBytes (fun i => memory (offset + i)) rep.header.nbytes
  if rep.header.op = codeOpGetValueByKey then
    .value (if rep.header.valret then some content else none)
  else if rep.header.op = codeOpSetKeyValue then .stored rep.header.valret
  else .deleted

theorem answer_append {padding : ℕ → UInt8} {op : ℕ} {valret : Bool} (content : List UInt8)
    (hasCase : HasCase op) (short : content.length < 2 ^ 64) :
    answer (RepHeader.image padding { op, valret, nbytes := content.length } ++ content) =
      if op = codeOpGetValueByKey then .value (if valret then some content else none)
      else if op = codeOpSetKeyValue then .stored valret
      else .deleted := by
  generalize isHeader : ({ op, valret, nbytes := content.length } : RepHeader) = header
  have held : Holds (fun i => (header.image padding ++ content).getD i 0) 0
      (header.image padding ++ content) := by
    apply holds_iff.mpr
    intro i _
    rw [Nat.zero_add]
  rcases holds_append.mp held with ⟨first, rest⟩
  rw [length_repImage, Nat.zero_add] at rest
  subst isHeader
  have opFits : op < 2 ^ 32 := Nat.lt_of_le_of_lt hasCase (by decide)
  have read := readRepHeader_of_holds first opFits short
  have contents : (if 0 < content.length then some sizeofRepHeader else none).elim []
      (fun offset => readBytes (fun i => (RepHeader.image padding
        { op, valret, nbytes := content.length } ++ content).getD (offset + i) 0)
          content.length) = content := by
    split
    case isTrue => exact rest
    case isFalse isEmpty =>
      rw [Nat.pos_iff_ne_zero, not_not, List.length_eq_zero_iff] at isEmpty
      rw [isEmpty]
      rfl
  simp only [answer, datarepliedFrom, read, contents]

namespace ReceivedRequest

variable (r : ReceivedRequest)

/-- The operation that a request asks for, where the first section of its call has led to a phase. A
`SET` that has obtained no item is refused. -/
def asks (phase : Phase) : CacheOp :=
  if r.op = codeOpSetKeyValue then
    match phase with
    | .idle => .refuse r.key r.data
    | _ => .store r.key r.data
  else if r.op = codeOpGetValueByKey then .get r.key
  else .delete r.key

/-- The call that the worker makes for a request. -/
def call : Call :=
  if r.op = codeOpSetKeyValue then
    .store (DataCache.cString r.key) r.inbuffer (DataCache.toInt32 (r.data.length % 2 ^ 32))
  else if r.op = codeOpGetValueByKey then .get (DataCache.cString r.key)
  else .delete (DataCache.cString r.key)

/-- The key is one of a set, and the length of the value fits into an `int32_t`. -/
def Fits (keys : Set (List UInt8)) : Prop := r.key ∈ keys ∧ r.data.length < 2 ^ 31

theorem op_call : r.call.op = r.op := by
  unfold call
  rcases r.isOp with isOp | isOp | isOp <;> rw [isOp] <;> rfl

theorem operation_call : r.operation = .ok (.cache r.call) := by
  have header : (datarequested r.message.bytes r.message.totbytes r.message.serialized).1.header =
    { op := r.op, nkey := r.key.length, nbytes := r.data.length } := r.header
  simp only [operation, Message.operation, header, r.key_eq, r.cString_key, Except.map, call,
    Datarequested.datasize]
  rcases r.isOp with isOp | isOp | isOp <;> rw [isOp] <;> rfl

theorem valid_call {keys : Set (List UInt8)} (keySet : KeySet keys) (fits : r.Fits keys) :
    r.call.Valid keys := by
  have length : DataCache.toInt32 (r.data.length % 2 ^ 32) = r.data.length :=
    toInt32_eq_iff.mpr fits.2
  unfold call
  rw [keySet.cString_eq fits.1, length]
  rcases r.isOp with isOp | isOp | isOp
  · rw [isOp]
    exact ⟨fits.1, Int.ofNat_lt.mpr fits.2⟩
  · rw [isOp]
    exact fits.1
  · rw [isOp]
    exact fits.1

theorem positive_call {keys : Set (List UInt8)} (fits : r.Fits keys) (i : ℕ) (sys : System) :
    (Action.call i r.call sys).Positive := by
  have length : DataCache.toInt32 (r.data.length % 2 ^ 32) = r.data.length :=
    toInt32_eq_iff.mpr fits.2
  unfold call
  rcases r.isOp with isOp | isOp | isOp
  · rw [isOp]
    change 0 ≤ DataCache.toInt32 (r.data.length % 2 ^ 32)
    rw [length]
    exact Int.natCast_nonneg _
  · rw [isOp]
    trivial
  · rw [isOp]
    trivial

/-- The call of the worker is the operation that the client has asked for. -/
theorem operation_of_fits {keys : Set (List UInt8)} (keySet : KeySet keys) (fits : r.Fits keys)
    (phase : Phase) : r.call.operation phase = r.asks phase := by
  have length : DataCache.toInt32 (r.data.length % 2 ^ 32) = r.data.length :=
    toInt32_eq_iff.mpr fits.2
  have value : readBytes r.inbuffer (r.data.length : ℤ).toNat = r.data := r.readBytes_inbuffer
  unfold call asks
  rw [keySet.cString_eq fits.1, length]
  rcases r.isOp with isOp | isOp | isOp
  · rw [isOp, if_pos rfl, if_pos rfl]
    cases phase with
    | idle => exact congrArg (MapOp.refuse r.key) value
    | storing | copied | getting | deleting | unlinked => exact congrArg (MapOp.store r.key) value
  · rw [isOp]
    rfl
  · rw [isOp]
    rfl

end ReceivedRequest

namespace Worker

variable {w w' : Worker} {op : ℕ} {ret : ℤ} {padding : ℕ → UInt8}

/-- The reply to any other request than a `GET` tells how the call has returned. -/
theorem outgoing_of_other (notGet : op ≠ codeOpGetValueByKey)
    (replied : w.reply op ret padding = .ok w') :
    w'.outgoing = .ok (RepHeader.image padding { op, valret := ret = 0, nbytes := 0 } ++ []) := by
  simp only [reply, notGet, if_false, datareplied] at replied
  cases replied
  simp only [outgoing, Objects.get, Objects.new, Option.bind_some, Function.update_self,
    Except.map, List.append_nil]
  refine congrArg Except.ok ?_
  have held := readBytes_writeBytes_zero w.replybuffer
    (RepHeader.image padding { op, valret := ret = 0, nbytes := 0 })
  rwa [length_repImage] at held

/-- A call that its first section ends is answered with what it returns. -/
theorem Leftover.answer_of_missed (call : Call) (leftover : w.Leftover)
    (replied : w.reply call.op call.failed padding = .ok w') :
    ∃ reply, w'.outgoing = .ok reply ∧ answer reply = call.missed := by
  cases call with
  | get key =>
      have outgoing := (outgoing_of_reply leftover.byteUsed leftover.small replied).2
      have kept : readBytes w.cachebuffer w.lastHit.length = w.lastHit := by
        simpa [Holds] using leftover.held
      rw [kept] at outgoing
      refine ⟨_, outgoing, ?_⟩
      have small := leftover.small
      simp only [bufferSize] at small
      exact answer_append _ (Call.hasCase_op (.get key)) (by omega)
  | store key inbuffer bufflen =>
      have notGet : codeOpSetKeyValue ≠ codeOpGetValueByKey := by decide
      refine ⟨_, outgoing_of_other notGet replied, ?_⟩
      exact answer_append [] (Call.hasCase_op (.store key inbuffer bufflen)) (by decide)
  | delete key =>
      have notGet : codeOpDeleteByKey ≠ codeOpGetValueByKey := by decide
      refine ⟨_, outgoing_of_other notGet replied, ?_⟩
      exact answer_append [] (Call.hasCase_op (.delete key)) (by decide)

/-- A hit is answered with the value that was copied. -/
theorem answer_of_hit {mem : Mem} {it : ℕ} {w₁ : Worker} (copied : w.copyOut mem it = .ok w₁)
    (replied : w₁.reply codeOpGetValueByKey 0 padding = .ok w') :
    ∃ reply, w'.outgoing = .ok reply ∧ answer reply = .value (some (mem.data it)) := by
  rcases Leftover.of_copyOut copied with ⟨used, small, value, held⟩
  have outgoing := (outgoing_of_reply used small replied).2
  have length : mem.nbytes it = (mem.data it).length := by simp [Mem.data]
  have content : readBytes w₁.cachebuffer (mem.nbytes it) = mem.data it := by
    rw [value] at held
    rw [length]
    simpa [Holds] using held
  rw [content] at outgoing
  refine ⟨_, outgoing, ?_⟩
  simp only [bufferSize] at small
  rw [length]
  exact answer_append _ (Call.hasCase_op (.get [])) (by omega)

end Worker

/-! ## Steps of the service -/

/-- The op code of the request that a thread of the server works on. -/
def Phase.op : Phase → Option ℕ
  | idle => none
  | storing _ _ _ => some codeOpSetKeyValue
  | copied _ => some codeOpSetKeyValue
  | getting _ => some codeOpGetValueByKey
  | deleting _ => some codeOpDeleteByKey
  | unlinked _ => some codeOpDeleteByKey

/-- What the last section of a call returns. -/
def Phase.Returns (mem : Mem) (ret : CacheRet) : Phase → Prop
  | getting it => ret = .value (some (mem.data it))
  | copied _ => ret = .stored true
  | unlinked _ => ret = .deleted
  | _ => False

namespace Threads

variable {t t' : Threads} {i : ℕ} {sys : System}

/-- The bindings that are lost in the first section of a call. -/
def evictions (t t' : Threads) : Call → List CacheEvent
  | .store _ _ _ => [.invoke none (.lose (t.lostKeys t')), .respond none .lost]
  | _ => []

theorem events_call (call : Call) : t.events t' (.call i call sys) =
    (.invoke (some i) (call.operation (t'.phase i)) :: t.evictions t' call) ++
      t'.missed i call := by
  cases call <;> rfl

theorem op_of_call {call : Call} (run : t.step (.call i call sys) = .ok t') :
    t'.phase i = .idle ∨ (t'.phase i).op = some call.op := by
  rcases bind_eq_ok.mp run with ⟨⟨cache, phase⟩, started, done⟩
  cases done
  simp only [enter, Function.update_self]
  cases call with
  | get key =>
      rcases bind_eq_ok.mp started with ⟨⟨c, found⟩, -, rest⟩
      cases rest
      cases found with
      | none => exact Or.inl rfl
      | some it => exact Or.inr rfl
  | store key inbuffer bufflen =>
      rcases bind_eq_ok.mp started with ⟨⟨c, found⟩, -, rest⟩
      cases rest
      cases found with
      | none => exact Or.inl rfl
      | some it => exact Or.inr rfl
  | delete key =>
      rcases bind_eq_ok.mp started with ⟨⟨c, found⟩, -, rest⟩
      cases rest
      cases found with
      | none => exact Or.inl rfl
      | some it => exact Or.inr rfl

/-- A section of a call that goes on shows nothing. One that returns shows what. -/
theorem events_of_resume (busy : t.phase i ≠ .idle) (run : t.step (.resume i sys) = .ok t') :
    (t.events t' (.resume i sys) = [] ∧ (t'.phase i).op = (t.phase i).op) ∨
      t'.phase i = .idle ∧ ∃ ret, t.events t' (.resume i sys) = [.respond (some i) ret] ∧
        (t.phase i).Returns t.cache.mem ret := by
  rcases bind_eq_ok.mp run with ⟨⟨cache, phase⟩, resumed, done⟩
  cases done
  cases current : t.phase i with
  | idle => exact absurd current busy
  | getting it =>
      rw [current] at resumed
      cases resumed
      exact Or.inr ⟨by simp [enter], _, by simp [events, current], rfl⟩
  | storing it inbuffer bufflen =>
      rw [current] at resumed
      rcases bind_eq_ok.mp resumed with ⟨c, -, rest⟩
      cases rest
      exact Or.inl ⟨by simp [events, current], by simp [enter, Phase.op]⟩
  | copied it =>
      rw [current] at resumed
      rcases bind_eq_ok.mp resumed with ⟨c, -, rest⟩
      cases rest
      exact Or.inr ⟨by simp [enter], _, by simp [events, current], rfl⟩
  | deleting it =>
      rw [current] at resumed
      rcases bind_eq_ok.mp resumed with ⟨c, -, rest⟩
      cases rest
      exact Or.inl ⟨by simp [events, current], by simp [enter, Phase.op]⟩
  | unlinked it =>
      rw [current] at resumed
      rcases bind_eq_ok.mp resumed with ⟨c, -, rest⟩
      cases rest
      exact Or.inr ⟨by simp [enter], _, by simp [events, current], rfl⟩

end Threads

namespace ZmqServer

/-- A section of a run without wrapped counters whose tail repairs spare the items in use. -/
def Section (keys : Set (List UInt8)) (s s' : ZmqServer) (action : ChaosCache.Action) : Prop :=
  Threads.Guarded keys s.threads s'.threads action ∧ Threads.SparesUsed s.threads s'.threads

/-- A step of the server, with the requests that it receives and the replies that it sends. -/
inductive ServiceStep (keys : Set (List UInt8)) (s : ZmqServer) :
    List CacheEvent → ZmqServer → Prop
  | request {i : ℕ} {r : ReceivedRequest} {sys : System} {padding : ℕ → UInt8} {s' : ZmqServer} :
      r.Fits keys → s.Enabled (.receive i r.message sys padding) →
        s.step (.receive i r.message sys padding) = .ok s' →
          s.Section keys s' (.call i r.call sys) →
            ServiceStep keys s
              (.invoke (some i) (r.asks (s'.threads.phase i)) ::
                s.threads.evictions s'.threads r.call) s'
  | shutDown {i : ℕ} {m : Message} {sys : System} {padding : ℕ → UInt8} {s' : ZmqServer} :
      m.operation (datarequested m.bytes m.totbytes m.serialized).1 = .ok .shutDown →
        s.Enabled (.receive i m sys padding) → s.step (.receive i m sys padding) = .ok s' →
          ServiceStep keys s [] s'
  | resume {i : ℕ} {sys : System} {padding : ℕ → UInt8} {s' : ZmqServer} :
      s.Enabled (.resume i sys padding) → s.step (.resume i sys padding) = .ok s' →
        s.Section keys s' (.resume i sys) → ServiceStep keys s [] s'
  | reply {i : ℕ} {message : List UInt8} {s' : ZmqServer} :
      s.Enabled (.finish i) → s.step (.finish i) = .ok s' → s'.sent = (i, message) :: s.sent →
        ServiceStep keys s
          (if (s.worker i).closeall then [] else [.respond (some i) (answer message)]) s'
  | maintain {s' : ZmqServer} :
      s.step .maintain = .ok s' → s.Section keys s' .maintain → ServiceStep keys s [] s'

/-! ## Simulation -/

variable {keys : Set (List UInt8)} {s s' : ZmqServer} {v v' : View} {map : CacheMap} {i : ℕ}

/-- The first section of the call that a request asks for. -/
theorem called_of_receive {r : ReceivedRequest} {sys : System} {padding : ℕ → UInt8}
    (run : s.step (.receive i r.message sys padding) = .ok s') :
    s.threads.step (.call i r.call sys) = .ok s'.threads := by
  simp only [step] at run
  split at run
  case isTrue => cases run
  case isFalse =>
    rcases bind_eq_ok.mp run with ⟨_, operates, rest⟩
    cases r.operation_call.symm.trans operates
    rcases bind_eq_ok.mp rest with ⟨threads, called, rest⟩
    rcases bind_eq_ok.mp rest with ⟨w, -, done⟩
    cases done
    exact section_eq_ok.mp called

/-- The answer that a worker has laid out and not yet sent. -/
def late (s : ZmqServer) (proc : Option ℕ) : Option CacheRet :=
  proc.bind fun i =>
    match (s.worker i).place with
    | .replying => if (s.worker i).closeall then none else (s.worker i).outgoing.toOption.map answer
    | _ => none

/-- What holds of a worker and its thread. -/
structure Serves (s : ZmqServer) (i : ℕ) : Prop where
  leftover : (s.worker i).Leftover
  thread : match (s.worker i).place with
    | .receiving => s.threads.phase i = .idle ∧ (s.worker i).closeall = false
    | .calling op => (s.threads.phase i).op = some op ∧ (s.worker i).closeall = false
    | _ => s.threads.phase i = .idle

/-- The server as the object that its clients see. -/
def atomic (s : ZmqServer) (map : CacheMap) : Atomic CacheMap (Option ℕ) CacheOp CacheRet :=
  (s.threads.atomic map).later s.late

theorem late_of_place (place : (s.worker i).place ≠ .replying) : s.late (some i) = none := by
  simp only [late, Option.bind_some]

/-- Only threads that have returned are answered later. -/
theorem idle_of_late (serves : ∀ i, s.Serves i) (proc : Option ℕ) (isLate : s.late proc ≠ none) :
    (s.threads.atomic map).status proc = .idle := by
  cases proc with
  | none => rfl
  | some i =>
      have replying : (s.worker i).place = .replying := by
        by_contra place
        exact isLate (late_of_place place)
      have thread := (serves i).thread
      rw [replying] at thread
      exact ThreadsInv.status_idle thread

theorem late_eq (others : ∀ j, j ≠ i → s'.worker j = s.worker j) :
    s'.late = Function.update s.late (some i) (s'.late (some i)) := by
  funext proc
  cases proc with
  | none => simp [late]
  | some j =>
      by_cases own : j = i
      · simp [own]
      · simp [late, others j own, own]

/-- What the clients see of a section: what it shows, up to a return that is answered later. -/
theorem run_of_section {opens closing : List CacheEvent} (serves : ∀ i, s.Serves i)
    (inTime : s.late (some i) = none) (others : ∀ j, j ≠ i → s'.worker j = s.worker j)
    (acts : s.threads.Acts s'.threads v'.stored map (opens ++ closing))
    (apart : ∀ event ∈ opens, event.proc = some i ∨ event.proc = none)
    (closes : (closing = [] ∧ s'.late (some i) = none) ∨
      s'.threads.phase i = .idle ∧ ∃ ret, closing = [.respond (some i) ret] ∧
        s'.late (some i) = some ret) :
    ∃ map', HoldsMap s'.threads.cache v'.stored map' ∧
      Atomic.Run mapSpec (s.atomic map) opens (s'.atomic map') := by
  rcases acts with ⟨map', holds', run⟩
  refine ⟨map', holds', ?_⟩
  have notLate : ∀ event ∈ opens, s.late event.proc = none := by
    intro event isEvent
    rcases apart event isEvent with own | none
    · rw [own, inTime]
    · rw [none]
      rfl
  have late' := late_eq others
  rcases closes with ⟨rfl, inTime'⟩ | ⟨idle, ret, rfl, isLate⟩
  · rw [List.append_nil] at run
    rw [inTime', ← inTime, Function.update_eq_self] at late'
    rw [atomic, atomic, late']
    exact (run.later (idle_of_late serves) notLate).1
  · have withheld := run.withhold rfl (ThreadsInv.status_idle idle)
    have same : s'.atomic map' =
        ((s'.threads.atomic map').set (some i) (.done ret)).later s.late := by
      rw [atomic, late', isLate]
      refine congrArg (Atomic.mk map') ?_
      funext proc
      by_cases own : proc = some i
      · subst own
        simp [inTime, Atomic.set]
      · simp [Atomic.set, own]
    rw [same]
    exact (withheld.later (idle_of_late serves) notLate).1

/-- A worker that has returned from its call is answered with what its reply says. -/
theorem late_of_reply {w : Worker} {reply : List UInt8} (isWorker : s'.worker i = w)
    (place : w.place = .replying) (goesOn : w.closeall = false)
    (outgoing : w.outgoing = .ok reply) : s'.late (some i) = some (answer reply) := by
  simp [late, isWorker, place, goesOn, outgoing, Except.toOption]

theorem Serves.of_others {j : ℕ} (serves : s.Serves j) (worker : s'.worker j = s.worker j)
    (phase : s'.threads.phase j = s.threads.phase j) : s'.Serves j :=
  ⟨worker ▸ serves.leftover, by rw [worker, phase]; exact serves.thread⟩

/-- The server holds the map of an object that its clients see. -/
def Represents (keys : Set (List UInt8)) (s : ZmqServer)
    (m : Atomic CacheMap (Option ℕ) CacheOp CacheRet) : Prop :=
  ∃ v map, ThreadsInv keys s.threads v ∧ HoldsMap s.threads.cache v.stored map ∧
    (∀ i, s.Serves i) ∧ m = s.atomic map

/-- What a step of a worker has to keep. -/
theorem represents_of_worker {m : Atomic CacheMap (Option ℕ) CacheOp CacheRet}
    {events : List CacheEvent} (serves : ∀ j, s.Serves j) (inv' : ThreadsInv keys s'.threads v')
    (others : ∀ j, j ≠ i → s'.worker j = s.worker j)
    (phases : ∀ j, j ≠ i → s'.threads.phase j = s.threads.phase j) (served : s'.Serves i)
    (run : ∃ map', HoldsMap s'.threads.cache v'.stored map' ∧
      Atomic.Run mapSpec m events (s'.atomic map')) :
    ∃ m', Atomic.Run mapSpec m events m' ∧ s'.Represents keys m' := by
  rcases run with ⟨map', holds', run⟩
  refine ⟨_, run, v', map', inv', holds', fun j => ?_, rfl⟩
  by_cases own : j = i
  · exact own ▸ served
  · exact (serves j).of_others (others j own) (phases j own)

theorem represents_request {r : ReceivedRequest} {sys : System} {padding : ℕ → UInt8}
    (inv : ThreadsInv keys s.threads v) (keySet : KeySet keys)
    (holds : HoldsMap s.threads.cache v.stored map) (serves : ∀ j, s.Serves j)
    (fits : r.Fits keys) (receiving : (s.worker i).place = .receiving)
    (run : s.step (.receive i r.message sys padding) = .ok s')
    (ran : s.Section keys s' (.call i r.call sys)) :
    ∃ m', Atomic.Run mapSpec (s.atomic map)
      (.invoke (some i) (r.asks (s'.threads.phase i)) ::
        s.threads.evictions s'.threads r.call) m' ∧ s'.Represents keys m' := by
  rcases inv.advance keySet ran.1 ran.2 with ⟨v', -, -, -, inv', -⟩
  have acts := inv.acts_step keySet holds ran.1 ran.2 inv'
  rw [Threads.events_call, r.operation_of_fits keySet fits] at acts
  have thread := (serves i).thread
  rw [receiving] at thread
  simp only [step] at run
  split at run
  case isTrue => cases run
  case isFalse =>
    rcases bind_eq_ok.mp run with ⟨_, operates, rest⟩
    cases r.operation_call.symm.trans operates
    rcases bind_eq_ok.mp rest with ⟨threads, called, rest⟩
    rcases bind_eq_ok.mp rest with ⟨w, left, done⟩
    cases done
    generalize isReq :
      (datarequested r.message.bytes r.message.totbytes r.message.serialized).1 = req at *
    have isOp : req.header.op = r.call.op := by
      rw [← isReq]
      exact (congrArg ReqHeader.op r.header).trans r.op_call.symm
    rw [isOp] at left
    have leftover := (serves i).leftover.receive req
    have apart : ∀ event ∈ (.invoke (some i) (r.asks (threads.phase i)) ::
        s.threads.evictions threads r.call : List CacheEvent),
          event.proc = some i ∨ event.proc = none := by
      cases r.call <;> simp [Threads.evictions, Linearizability.Event.proc]
    refine represents_of_worker serves inv' (fun j other => by simp [other])
      (Threads.phase_of_call (section_eq_ok.mp called)).1 ?_
      (run_of_section serves (late_of_place (by simp [receiving])) (fun j other => by simp [other])
        acts apart ?_)
    · rcases of_leave left with ⟨returned, replied⟩ | ⟨busy, rfl⟩
      · refine ⟨?_, ?_⟩
        · simp only [Function.update_self]
          exact leftover.of_reply replied
        · rcases Worker.of_reply replied with ⟨replybuffer, rep, -, rfl⟩
          simpa using returned
      · refine ⟨?_, ?_⟩
        · simp only [Function.update_self]
          exact ⟨leftover.byteUsed, leftover.held, leftover.fits⟩
        · simp only [Function.update_self]
          exact ⟨(Threads.op_of_call (section_eq_ok.mp called)).resolve_left busy, thread.2⟩
    · rcases of_leave left with ⟨returned, replied⟩ | ⟨busy, rfl⟩
      · right
        rcases leftover.answer_of_missed _ replied with ⟨reply, outgoing, isAnswer⟩
        refine ⟨returned, r.call.missed, by simp [Threads.missed, returned], ?_⟩
        rw [← isAnswer]
        rcases Worker.of_reply replied with ⟨replybuffer, rep, -, rfl⟩
        exact late_of_reply (Function.update_self ..) rfl thread.2 outgoing
      · left
        refine ⟨?_, late_of_place (by simp)⟩
        unfold Threads.missed
        split
        · exact absurd ‹_› busy
        · rfl

/-- A worker that has gone on in its call has returned from it, or goes on. -/
theorem answer_of_resume {w₁ w : Worker} {op : ℕ} {ret : CacheRet} {mem : Mem} {phase : Phase}
    {padding : ℕ → UInt8} (leftover : (s.worker i).Leftover) (isOp : phase.op = some op)
    (entered : (s.worker i).enter phase mem = .ok w₁) (replied : w₁.reply op 0 padding = .ok w)
    (returns : phase.Returns mem ret) :
    w.Leftover ∧ w.closeall = (s.worker i).closeall ∧ w.place = .replying ∧
      ∃ reply, w.outgoing = .ok reply ∧ answer reply = ret := by
  have place : w.place = .replying ∧ w.closeall = w₁.closeall := by
    rcases Worker.of_reply replied with ⟨replybuffer, rep, -, rfl⟩
    exact ⟨rfl, rfl⟩
  cases phase with
  | idle => exact returns.elim
  | storing it inbuffer bufflen => exact returns.elim
  | deleting it => exact returns.elim
  | getting it =>
      cases isOp
      subst returns
      refine ⟨.of_hit entered replied, ?_, place.1, Worker.answer_of_hit entered replied⟩
      rcases Worker.of_copyOut entered with ⟨-, rfl⟩
      exact place.2
  | copied it =>
      cases isOp
      cases entered
      subst returns
      refine ⟨leftover.of_reply replied, place.2, place.1, ?_⟩
      exact leftover.answer_of_missed (.store [] (fun _ => 0) 0) replied
  | unlinked it =>
      cases isOp
      cases entered
      subst returns
      refine ⟨leftover.of_reply replied, place.2, place.1, ?_⟩
      exact leftover.answer_of_missed (.delete []) replied

theorem represents_resume {op : ℕ} {sys : System} {padding : ℕ → UInt8}
    (inv : ThreadsInv keys s.threads v) (keySet : KeySet keys)
    (holds : HoldsMap s.threads.cache v.stored map) (serves : ∀ j, s.Serves j)
    (calling : (s.worker i).place = .calling op) (run : s.step (.resume i sys padding) = .ok s')
    (ran : s.Section keys s' (.resume i sys)) :
    ∃ m', Atomic.Run mapSpec (s.atomic map) [] m' ∧ s'.Represents keys m' := by
  rcases inv.advance keySet ran.1 ran.2 with ⟨v', -, -, -, inv', -⟩
  have acts := inv.acts_step keySet holds ran.1 ran.2 inv'
  have thread := (serves i).thread
  rw [calling] at thread
  rcases thread with ⟨isOp, goesOn⟩
  have busy : s.threads.phase i ≠ .idle := by
    intro idle
    simp [idle, Phase.op] at isOp
  simp only [step, calling] at run
  rcases bind_eq_ok.mp run with ⟨w₁, entered, rest⟩
  rcases bind_eq_ok.mp rest with ⟨threads, resumed, rest⟩
  rcases bind_eq_ok.mp rest with ⟨w, left, done⟩
  cases done
  rw [section_eq_ok] at resumed
  simp only at acts
  have others : ∀ j, j ≠ i → Function.update s.worker i w j = s.worker j := by
    intro j other
    simp [other]
  have inTime := late_of_place (s := s) (i := i) (by simp [calling])
  have noEvent : ∀ event ∈ ([] : List CacheEvent), event.proc = some i ∨ event.proc = none := by
    simp
  rcases Threads.phase_of_resume resumed with ⟨phases, -, gets⟩
  rcases Threads.events_of_resume busy resumed with
    ⟨nothing, sameOp⟩ | ⟨returned, ret, shows, returns⟩
  · have shown : s.threads.Acts threads v'.stored map ([] ++ []) := by
      rwa [nothing] at acts
    have stays : (threads.phase i).op = some op := sameOp.trans isOp
    have continues : threads.phase i ≠ .idle := fun idle => by
      rw [idle] at stays
      cases stays
    have notGetting : ∀ it, s.threads.phase i ≠ .getting it := fun it getting =>
      continues (gets it getting).1
    rcases of_leave left with ⟨returned, -⟩ | ⟨-, rfl⟩
    · exact absurd returned continues
    · rcases of_enter entered with ⟨it, getting, -⟩ | ⟨-, rfl⟩
      · exact absurd getting (notGetting it)
      · have leftover := (serves i).leftover
        refine represents_of_worker serves inv' others phases ⟨?_, ?_⟩
          (run_of_section serves inTime others shown noEvent ?_)
        · simp only [Function.update_self]
          exact ⟨leftover.byteUsed, leftover.held, leftover.fits⟩
        · simp only [Function.update_self]
          exact ⟨stays, goesOn⟩
        · exact Or.inl ⟨rfl, late_of_place (by simp)⟩
  · have shown : s.threads.Acts threads v'.stored map ([] ++ [.respond (some i) ret]) := by
      rwa [shows] at acts
    rcases of_leave left with ⟨-, replied⟩ | ⟨continues, -⟩
    · rcases answer_of_resume (serves i).leftover isOp entered replied returns with
        ⟨leftover, closes, place, reply, outgoing, isAnswer⟩
      refine represents_of_worker serves inv' others phases ⟨by simpa using leftover, ?_⟩
        (run_of_section serves inTime others shown noEvent ?_)
      · simp only [Function.update_self, place]
        exact returned
      · refine Or.inr ⟨returned, ret, rfl, ?_⟩
        rw [← isAnswer]
        exact late_of_reply (Function.update_self ..) place (closes.trans goesOn) outgoing
    · exact absurd returned continues

theorem represents_maintain (inv : ThreadsInv keys s.threads v) (keySet : KeySet keys)
    (holds : HoldsMap s.threads.cache v.stored map) (serves : ∀ j, s.Serves j)
    (run : s.step .maintain = .ok s') (ran : s.Section keys s' .maintain) :
    ∃ m', Atomic.Run mapSpec (s.atomic map) [] m' ∧ s'.Represents keys m' := by
  rcases inv.advance keySet ran.1 ran.2 with ⟨v', -, -, -, inv', -⟩
  rcases inv.acts_step keySet holds ran.1 ran.2 inv' with ⟨map', holds', acts⟩
  rcases bind_eq_ok.mp run with ⟨threads, passed, done⟩
  cases done
  have phases := Threads.phase_of_maintain (section_eq_ok.mp passed)
  refine ⟨_, (acts.later (idle_of_late serves) (by simp [Threads.events])).1, v', map', inv',
    holds', fun j => (serves j).of_others rfl (congrFun phases j), rfl⟩

/-- A step in which no worker calls the cache. -/
theorem represents_of_threads {events : List CacheEvent} (inv : ThreadsInv keys s.threads v)
    (holds : HoldsMap s.threads.cache v.stored map)
    (serves : ∀ j, s.Serves j) (threads : s'.threads = s.threads)
    (others : ∀ j, j ≠ i → s'.worker j = s.worker j) (served : s'.Serves i)
    (idle : s.threads.phase i = .idle) (inTime' : s'.late (some i) = none)
    (run : Atomic.Run mapSpec (s.atomic map) events ((s.atomic map).set (some i) .idle)) :
    ∃ m', Atomic.Run mapSpec (s.atomic map) events m' ∧ s'.Represents keys m' := by
  refine represents_of_worker serves (threads ▸ inv) others (fun _ _ => by rw [threads]) served
    ⟨map, by rwa [threads], ?_⟩
  have same : s'.atomic map = (s.atomic map).set (some i) .idle := by
    rw [atomic, late_eq others, inTime', threads]
    refine congrArg (Atomic.mk map) ?_
    funext proc
    by_cases own : proc = some i
    · subst own
      simp [ThreadsInv.status_idle idle, Threads.atomic]
    · simp [own, atomic, Atomic.later]
  rw [same]
  exact run

theorem represents_shutDown {m : Message} {sys : System} {padding : ℕ → UInt8}
    (inv : ThreadsInv keys s.threads v) (holds : HoldsMap s.threads.cache v.stored map)
    (serves : ∀ j, s.Serves j) (receiving : (s.worker i).place = .receiving)
    (operates : m.operation (datarequested m.bytes m.totbytes m.serialized).1 = .ok .shutDown)
    (run : s.step (.receive i m sys padding) = .ok s') :
    ∃ m', Atomic.Run mapSpec (s.atomic map) [] m' ∧ s'.Represents keys m' := by
  have thread := (serves i).thread
  rw [receiving] at thread
  simp only [step] at run
  split at run
  case isTrue => cases run
  case isFalse =>
    rcases bind_eq_ok.mp run with ⟨_, isShutDown, rest⟩
    cases operates.symm.trans isShutDown
    rcases bind_eq_ok.mp rest with ⟨w, replied, done⟩
    cases done
    have received := (serves i).leftover.receive (datarequested m.bytes m.totbytes m.serialized).1
    have closing : { (s.worker i).receive (datarequested m.bytes m.totbytes m.serialized).1 with
        closeall := true }.Leftover :=
      ⟨received.byteUsed, received.held, received.fits⟩
    have leftover := closing.of_reply replied
    rcases Worker.of_reply replied with ⟨replybuffer, rep, -, rfl⟩
    refine represents_of_threads (i := i) inv holds serves rfl (fun j other => by simp [other])
      ⟨by simpa using leftover, by simpa using thread.1⟩ thread.1 (by simp [late]) ?_
    have still : (s.atomic map).status (some i) = .idle := by
      simp [atomic, Atomic.later, late_of_place (s := s) (i := i) (by simp [receiving]),
        Threads.atomic, ThreadsInv.status_idle thread.1]
    rw [Atomic.set, ← still, Function.update_eq_self]
    exact .refl _

theorem represents_reply {message : List UInt8}
    (inv : ThreadsInv keys s.threads v) (holds : HoldsMap s.threads.cache v.stored map)
    (serves : ∀ j, s.Serves j) (replying : (s.worker i).place = .replying)
    (run : s.step (.finish i) = .ok s') (sent : s'.sent = (i, message) :: s.sent) :
    ∃ m', Atomic.Run mapSpec (s.atomic map)
      (if (s.worker i).closeall then [] else [.respond (some i) (answer message)]) m' ∧
        s'.Represents keys m' := by
  have idle := (serves i).thread
  rw [replying] at idle
  rcases bind_eq_ok.mp run with ⟨⟨w, bytes⟩, finished, done⟩
  cases done
  simp only [List.cons.injEq, Prod.mk.injEq, true_and, and_true] at sent
  subst sent
  rcases bind_eq_ok.mp finished with ⟨reply, outgoing, rest⟩
  rcases bind_eq_ok.mp rest with ⟨requests, -, rest⟩
  rcases bind_eq_ok.mp rest with ⟨replies, -, done⟩
  cases done
  have leftover := (serves i).leftover
  have kept : ({ s.worker i with
      place := if (s.worker i).closeall then .closed else .receiving
      requests
      replies
      log := (s.worker i).log ++ ((s.worker i).rep.toList.map .sent ++
        (s.worker i).req.toList.map .deletedRequest ++
          (s.worker i).rep.toList.map .deletedReply) } : Worker).Leftover :=
    ⟨leftover.byteUsed, leftover.held, leftover.fits⟩
  refine represents_of_threads (i := i) inv holds serves rfl (fun j other => by simp [other])
    ⟨by simpa using kept, ?_⟩ idle ?_ ?_
  · simp only [Function.update_self]
    cases closes : (s.worker i).closeall with
    | true => exact idle
    | false => exact ⟨idle, rfl⟩
  · refine late_of_place ?_
    simp only [Function.update_self]
    cases (s.worker i).closeall <;> simp
  · cases closes : (s.worker i).closeall with
    | true =>
        have still : (s.atomic map).status (some i) = .idle := by
          simp [atomic, Atomic.later, late, replying, closes, Threads.atomic,
            ThreadsInv.status_idle idle]
        rw [if_pos rfl, Atomic.set, ← still, Function.update_eq_self]
        exact .refl _
    | false =>
        have answered : (s.atomic map).status (some i) = .done (answer bytes) := by
          simp [atomic, Atomic.later, late, replying, closes, outgoing, Except.toOption]
        exact .single (.respond answered)

theorem represents_step (keySet : KeySet keys) {m : Atomic CacheMap (Option ℕ) CacheOp CacheRet}
    {events : List CacheEvent} (represents : s.Represents keys m)
    (step : ServiceStep keys s events s') :
    ∃ m', Atomic.Run mapSpec m events m' ∧ s'.Represents keys m' := by
  rcases represents with ⟨v, map, inv, holds, serves, rfl⟩
  cases step with
  | request fits receiving run ran =>
      exact represents_request inv keySet holds serves fits receiving run ran
  | shutDown operates receiving run =>
      exact represents_shutDown inv holds serves receiving operates run
  | resume calling run ran =>
      rcases calling with ⟨op, calling⟩
      exact represents_resume inv keySet holds serves calling run ran
  | reply replying run sent => exact represents_reply inv holds serves replying run sent
  | maintain run ran => exact represents_maintain inv keySet holds serves run ran

theorem represents_init (keys : Set (List UInt8)) {mem : Mem} {cacheSize : ℕ} {os : Os}
    {initialMalloc : Option ℕ} {cache : LruLists} {buffers : ℕ → (ℕ → UInt8) × (ℕ → UInt8)}
    (created : DataCache.create .zero .zero mem cacheSize os initialMalloc = .ok cache) :
    (init cache buffers).Represents keys ⟨fun _ => none, fun _ => .idle⟩ := by
  refine ⟨View.empty, fun _ => none, Threads.inv_init keys created, fun key value => ?_,
    fun i => ⟨⟨rfl, rfl, Nat.le_of_ble_eq_true rfl⟩, rfl, rfl⟩, ?_⟩
  · simp [View.empty]
  · refine congrArg (Atomic.mk _) ?_
    funext proc
    cases proc <;> rfl

/-- In every run that serves requests of `datarequested`, without wrapped counters and with tail
repairs that spare the items in use, the replies are what a map would have answered if the
requests had been served one after the other, in an order that respects which had been answered
when another was received. The map loses the bindings of evicted items and no others, and every
`SET` binds its key but those that obtain no item, which are answered with success too. -/
theorem service_linearizable (keySet : KeySet keys) {mem : Mem} {cacheSize : ℕ} {os : Os}
    {initialMalloc : Option ℕ} {cache : LruLists} {buffers : ℕ → (ℕ → UInt8) × (ℕ → UInt8)}
    (created : DataCache.create .zero .zero mem cacheSize os initialMalloc = .ok cache)
    {history : List CacheEvent}
    (trace : Trace (ServiceStep keys) (init cache buffers) history s) :
    Linearizable mapSpec (fun _ => none) history := by
  exact (linearizable_of_simulation (represents_init keys created)
    (fun _ _ _ _ represents step => represents_step keySet represents step) trace).1

/-! ## Runs that can be computed -/

/-- A request that a worker receives, a section of its call, or its reply. -/
inductive Served where
  | request (i : ℕ) (r : ReceivedRequest) (sys : System)
  | resume (i : ℕ) (sys : System)
  | reply (i : ℕ)

namespace Served

def action : Served → Action
  | request i r sys => .receive i r.message sys fun _ => 0
  | resume i sys => .resume i sys fun _ => 0
  | reply i => .finish i

/-- The section of the cache -/
def inCache : Served → Option ChaosCache.Action
  | request i r sys => some (.call i r.call sys)
  | resume i sys => some (.resume i sys)
  | reply _ => none

/-- A request is one of a client with a short value, and the system answers sanely. -/
def Meets (keys : Set (List UInt8)) (slabs : SlabAllocator) : Served → Prop
  | request _ r sys => (r.Fits keys ∧ r.data.length ≤ maxValue) ∧ ∀ j, (sys.os j).Sane slabs
  | resume _ sys => ∀ j, (sys.os j).Sane slabs
  | reply _ => True

theorem Meets.contract {served : Served} {slabs : SlabAllocator} (meets : served.Meets keys slabs)
    (keySet : KeySet keys) {inCache : ChaosCache.Action} (isIn : inCache ∈ served.inCache) :
    inCache.Valid keys ∧ inCache.Positive ∧ inCache.Sane slabs := by
  cases served with
  | request i r sys =>
      cases isIn
      exact ⟨r.valid_call keySet meets.1.1, r.positive_call meets.1.1 i sys, meets.2⟩
  | resume i sys =>
      cases isIn
      exact ⟨trivial, trivial, meets⟩
  | reply i => cases isIn

end Served

/-- The state after a step that may come next, if it returns, wraps no counter and fires no tail
repair. -/
def calmStep (s : ZmqServer) (served : Served) : Option ZmqServer :=
  if s.Enabled served.action ∧
      ∀ inCache ∈ served.inCache, (s.threads.calmStep inCache).isSome then
    (s.step served.action).toOption
  else none

theorem of_calmStep {served : Served} (keySet : KeySet keys)
    (meets : served.Meets keys s.threads.cache.slabs) (run : s.calmStep served = some s') :
    s.Enabled served.action ∧ s.step served.action = .ok s' ∧
      ∀ inCache ∈ served.inCache, s.Section keys s' inCache := by
  simp only [calmStep] at run
  split at run
  case isFalse => cases run
  case isTrue conditions =>
    rcases conditions with ⟨enabled, calm⟩
    have step := toOption_eq_some.mp run
    refine ⟨enabled, step, fun inCache isIn => ?_⟩
    have ran : s.threads.step inCache = .ok s'.threads := by
      cases served with
      | request i r sys =>
          cases isIn
          exact called_of_receive step
      | resume i sys =>
          cases isIn
          rcases enabled with ⟨op, calling⟩
          simp only [Served.action, ZmqServer.step, calling] at step
          rcases bind_eq_ok.mp step with ⟨w₁, -, rest⟩
          rcases bind_eq_ok.mp rest with ⟨threads, ran, rest⟩
          rcases bind_eq_ok.mp rest with ⟨w, -, done⟩
          cases done
          exact section_eq_ok.mp ran
      | reply i => cases isIn
    rcases Option.isSome_iff_exists.mp (calm inCache isIn) with ⟨threads, returned⟩
    rcases meets.contract keySet isIn with ⟨valid, positive, sane⟩
    rcases Threads.of_calmStep valid positive sane returned with ⟨guarded, quiet, -⟩
    cases guarded.run.symm.trans ran
    exact ⟨guarded, [], quiet, by simp⟩

theorem serviceStep_of_calmStep {served : Served} (keySet : KeySet keys)
    (meets : served.Meets keys s.threads.cache.slabs) (run : s.calmStep served = some s') :
    ∃ events, ServiceStep keys s events s' := by
  rcases of_calmStep keySet meets run with ⟨enabled, step, ran⟩
  cases served with
  | request i r sys => exact ⟨_, .request meets.1.1 enabled step (ran _ rfl)⟩
  | resume i sys => exact ⟨_, .resume enabled step (ran _ rfl)⟩
  | reply i =>
      rcases bind_eq_ok.mp step with ⟨⟨w, message⟩, -, done⟩
      cases done
      exact ⟨_, .reply enabled step rfl⟩

theorem isOp_set : codeOpSetKeyValue = codeOpSetKeyValue ∨
    codeOpSetKeyValue = codeOpGetValueByKey ∨ codeOpSetKeyValue = codeOpDeleteByKey :=
  Or.inl rfl

theorem isOp_get : codeOpGetValueByKey = codeOpSetKeyValue ∨
    codeOpGetValueByKey = codeOpGetValueByKey ∨ codeOpGetValueByKey = codeOpDeleteByKey :=
  Or.inr (Or.inl rfl)

theorem hasKey_k : [(107 : UInt8)] ≠ [] := List.cons_ne_nil 107 []

theorem mapped_requestK : 1 < 8192 := by decide

theorem user_requestK {data : List UInt8} (short : data.length ≤ 1) :
    8192 + (sizeofReqHeader + [(107 : UInt8)].length + 1 + data.length) ≤ userSpace := by
  simp only [sizeofReqHeader, List.length_singleton, userSpace]
  omega

/-- A request for the key `k`, with a value of at most one byte. -/
def requestK (op : ℕ) (data : List UInt8) (short : data.length ≤ 1)
    (isOp : op = codeOpSetKeyValue ∨ op = codeOpGetValueByKey ∨ op = codeOpDeleteByKey) :
    ReceivedRequest where
  memory _ := 0
  padding _ := 0
  dest := 8192
  op := op
  key := [107]
  data := data
  received := (datarequestedInto (fun _ => 0) (fun _ => 0) 8192 [107] data op).1
  serialized := 8192
  isOp := isOp
  hasKey := hasKey_k
  mapped := mapped_requestK
  user := user_requestK short
  delivered _ _ := rfl

theorem short_set : [(7 : UInt8)].length ≤ 1 := Nat.le_refl 1

theorem short_get : ([] : List UInt8).length ≤ 1 := Nat.zero_le 1

def setK : ReceivedRequest := requestK codeOpSetKeyValue [7] short_set isOp_set

def getK : ReceivedRequest := requestK codeOpGetValueByKey [] short_get isOp_get

theorem fits_requestK {op : ℕ} {data : List UInt8} {short : data.length ≤ 1}
    {isOp : op = codeOpSetKeyValue ∨ op = codeOpGetValueByKey ∨ op = codeOpDeleteByKey} :
    (requestK op data short isOp).Fits Threads.oneByteKeys ∧
      (requestK op data short isOp).data.length ≤ maxValue :=
  ⟨⟨⟨rfl, show (0 : UInt8) ∉ [107] by decide⟩, short.trans_lt (by decide)⟩,
    short.trans (by decide)⟩

/-- What calm steps keep holds at the end of a computed run. -/
theorem calm_induction {motive : ZmqServer → Prop}
    (next : ∀ s s' served, served.Meets keys s.threads.cache.slabs →
      s.calmStep served = some s' → motive s → motive s') {list : List Served}
    (meets : ∀ served ∈ list, ∀ slabs, served.Meets keys slabs) (begins : motive s)
    (run : list.foldlM calmStep s = some s') : motive s' := by
  induction list generalizing s with
  | nil =>
      cases run
      exact begins
  | cons served rest ih =>
      rw [List.foldlM_cons] at run
      rcases Option.bind_eq_some_iff.mp run with ⟨s₁, first, others⟩
      rcases List.forall_mem_cons.mp meets with ⟨meetsFirst, meetsRest⟩
      exact ih meetsRest (next s s₁ served (meetsFirst _) first begins) others

/-- Worker 0 receives a `SET`. -/
def firstSet : Served := .request 0 setK (DataCache.onePage 1048512 4096 0)

/-- Worker 1 receives a `GET` for the same key before worker 0 has replied. When both have replied,
worker 0 receives another. -/
def afterSet : List Served :=
  let quietly := DataCache.outOfMemory 0
  [.resume 0 quietly, .resume 0 quietly, .request 1 getK quietly, .reply 0, .resume 1 quietly,
    .reply 1, .request 0 getK quietly]

/-- What calm steps keep holds where two requests were answered, and a third one was received. -/
theorem serving_induction {motive : ZmqServer → Prop}
    (next : ∀ s s' served, served.Meets Threads.oneByteKeys s.threads.cache.slabs →
      s.calmStep served = some s' → motive s → motive s') (begins : motive start) :
    ∃ s, motive s ∧ s.sent.map (fun sent => (sent.1, answer sent.2)) =
      [(1, .value (some [7])), (0, .stored true)] ∧
        (s.worker 0).place = .calling codeOpGetValueByKey := by
  have facts : ((firstSet :: afterSet).foldlM calmStep start).map (fun s =>
      (s.sent, (s.worker 0).place)) =
        some ([(1, [2, 0, 0, 0, 1, 0, 0, 0, 1, 0, 0, 0, 0, 0, 0, 0, 7]),
          (0, [1, 0, 0, 0, 1, 0, 0, 0, 0, 0, 0, 0, 0, 0, 0, 0])],
            .calling codeOpGetValueByKey) := by
    decide +kernel
  rcases Option.map_eq_some_iff.mp facts with ⟨s, run, all⟩
  rcases Prod.mk.inj all with ⟨sent, calling⟩
  rw [List.foldlM_cons] at run
  rcases Option.bind_eq_some_iff.mp run with ⟨s₁, first, others⟩
  have meetsFirst : firstSet.Meets Threads.oneByteKeys (DataCache.newSlabs 64 0) :=
    ⟨fits_requestK, DataCache.sane_onePage (DataCache.noSlabs_new 64 0) (by decide) 0⟩
  have meets : ∀ served ∈ afterSet, ∀ slabs, served.Meets Threads.oneByteKeys slabs := by
    simp [afterSet, Served.Meets, DataCache.sane_outOfMemory, getK, fits_requestK]
  have begun := next start s₁ firstSet meetsFirst first begins
  exact ⟨s, calm_induction next meets begun others, by rw [sent]; rfl, calling⟩

/-- A `SET` and a `GET` were answered, and a third request was received. -/
theorem service_linearizable_setK : ∃ (history : List CacheEvent) (s : ZmqServer),
    s.sent.map (fun sent => (sent.1, answer sent.2)) =
      [(1, .value (some [7])), (0, .stored true)] ∧
        Trace (ServiceStep Threads.oneByteKeys) start history s ∧
          Linearizable mapSpec (fun _ => none) history := by
  have keySet := Threads.keySet_oneByteKeys
  have next (s s' : ZmqServer) (served : Served)
      (meets : served.Meets Threads.oneByteKeys s.threads.cache.slabs)
      (run : s.calmStep served = some s')
      (before : ∃ history, Trace (ServiceStep Threads.oneByteKeys) start history s) :
      ∃ history, Trace (ServiceStep Threads.oneByteKeys) start history s' := by
    rcases before with ⟨history, trace⟩
    rcases serviceStep_of_calmStep keySet meets run with ⟨events, step⟩
    exact ⟨_, trace.snoc step⟩
  rcases serving_induction next ⟨[], .nil⟩ with ⟨s, ⟨history, trace⟩, answers, -⟩
  have created := DataCache.create_eq .zero 64 ((DataCache.outOfMemory 0).os 0) none
  exact ⟨history, s, answers, trace, service_linearizable keySet created trace⟩

end ZmqServer

end ChaosCache
