import ChaosCache.Reqrep.Reply
import ChaosCache.Threads

/-!
# The server

`zmqServer::worker` of `zmqserver.cpp`. Every worker is a thread with two buffers of its own that
share the cache with the others. It receives a message, does the operation that the op code asks
for, lays a reply out in its buffer and sends a copy of it.

`req`, `rep`, `byte_used` and both buffers keep what they hold from one message to the next. The
objects that `new` returns are numbered, and no number is used again. What follows `delete` is a
pointer that leads nowhere.

`log` and `hits` are no part of the program. They record what a worker does with its messages and
objects, and the values that its calls of `getItem` returned, the last one first.
-/

namespace ChaosCache

open Reqrep

def codeOpShutDown : ℕ := 0
def codeOpSetKeyValue : ℕ := 1
def codeOpGetValueByKey : ℕ := 2
def codeOpDeleteByKey : ℕ := 3

/-- The length of `cachebuffer` and of `replybuffer`. -/
def bufferSize : ℕ := 1024

/-- What ends a worker other than by its return. -/
inductive ServerFault where
  /-- In a section of the cache. -/
  | cache (fault : Fault)
  /-- A write past the end of a buffer of the worker. -/
  | bufferOverflow
  /-- An access through `NULL`, or through a pointer to an object that was deleted. -/
  | badPointer
  /-- A read past the end of the received message. -/
  | badMessage
  deriving DecidableEq

/-- A received message of `totbytes` bytes, which lies in memory at `serialized`. -/
structure Message where
  bytes : ℕ → UInt8
  serialized : ℕ
  totbytes : ℕ

namespace Message

/-- The bytes from an address to the end of the message. -/
def bytesFrom (m : Message) (address : ℕ) : List UInt8 :=
  readBytes (fun i => m.bytes (address + i)) (m.serialized + m.totbytes - address)

/-- The C string at an address. -/
def cString (m : Message) (address : ℕ) : Except ServerFault (List UInt8) :=
  if address = 0 then .error .badPointer
  else if 0 ∈ m.bytesFrom address then .ok (DataCache.cString (m.bytesFrom address))
  else .error .badMessage

end Message

/-- The cases of the `switch`. There is none for any other op code. -/
inductive Case where
  | cache (call : Call)
  | shutDown
  | noCase

/-- What the worker does for a request. -/
def Message.operation (m : Message) (req : Datarequested) : Except ServerFault Case :=
  if req.header.op = codeOpGetValueByKey then
    (m.cString req.key).map fun key => .cache (.get key)
  else if req.header.op = codeOpSetKeyValue then
    -- `datasize()` is a `size_t`, and `bufflen` an `int32_t`
    (m.cString req.key).map fun key =>
      .cache (.store key (fun i => m.bytes (req.data + i))
        (DataCache.toInt32 (req.datasize % 2 ^ 32)))
  else if req.header.op = codeOpDeleteByKey then
    (m.cString req.key).map fun key => .cache (.delete key)
  else if req.header.op = codeOpShutDown then .ok .shutDown
  else .ok .noCase

/-! ## Objects -/

/-- The objects of a class that were constructed, and those among them that were not deleted. -/
structure Objects (α : Type) where
  count : ℕ
  live : ℕ → Option α

namespace Objects

variable {α : Type}

def empty : Objects α where
  count := 0
  live _ := none

/-- `new`, which returns the number `count`. -/
def new (objects : Objects α) (x : α) : Objects α where
  count := objects.count + 1
  live := Function.update objects.live objects.count (some x)

/-- The object that a pointer leads to. -/
def get (objects : Objects α) (pointer : Option ℕ) : Except ServerFault α :=
  match pointer.bind objects.live with
  | some x => .ok x
  | none => .error .badPointer

/-- `delete`, which does nothing to `NULL`. -/
def delete (objects : Objects α) (pointer : Option ℕ) : Except ServerFault (Objects α) :=
  match pointer with
  | none => .ok objects
  | some id =>
      if (objects.live id).isSome then
        .ok { objects with live := Function.update objects.live id none }
      else .error .badPointer

end Objects

/-! ## Workers -/

/-- Where a worker is in its loop. -/
inductive WorkerPlace where
  /-- Before `recv` -/
  | receiving
  /-- In the call of the cache that the case of an op code makes. -/
  | calling (op : ℕ)
  /-- Behind the `switch` -/
  | replying
  /-- Behind the loop -/
  | closed
  deriving DecidableEq

/-- What a worker does with a message and its objects. -/
inductive Event where
  | received (op : ℕ)
  | newRequest (id : ℕ)
  | newReply (id op : ℕ)
  | sent (id : ℕ)
  | deletedRequest (id : ℕ)
  | deletedReply (id : ℕ)
  deriving DecidableEq

structure Worker where
  place : WorkerPlace
  cachebuffer : ℕ → UInt8
  replybuffer : ℕ → UInt8
  byteUsed : ℤ
  req : Option ℕ
  rep : Option ℕ
  closeall : Bool
  requests : Objects Datarequested
  replies : Objects Datareplied
  log : List Event
  hits : List (List UInt8)

namespace Worker

/-- A worker before its loop. Nothing is assigned to its buffers. -/
def create (cachebuffer replybuffer : ℕ → UInt8) : Worker where
  place := .receiving
  cachebuffer := cachebuffer
  replybuffer := replybuffer
  byteUsed := 0
  req := none
  rep := none
  closeall := false
  requests := .empty
  replies := .empty
  log := []
  hits := []

variable (w : Worker)

/-- `req = new datarequested(recv_message.size(), recv_message.data())` -/
def receive (req : Datarequested) : Worker :=
  { w with
    req := some w.requests.count
    requests := w.requests.new req
    log := w.log ++ [.received req.header.op, .newRequest w.requests.count] }

/-- `getItem` has found the item, and writes to `byte_used` and `cachebuffer`. -/
def copyOut (mem : Mem) (it : ℕ) : Except ServerFault Worker :=
  if bufferSize < mem.nbytes it then .error .bufferOverflow
  else .ok { w with
    byteUsed := DataCache.toInt32 (mem.nbytes it)
    cachebuffer := writeBytes w.cachebuffer 0 (mem.data it)
    hits := mem.data it :: w.hits }

/-- `rep = new datareplied(...)`, in the case of an op code whose call has returned `ret`. Only the
reply to a `GET` carries data. The source compares `success`, which it declares nowhere;
`success_op` is meant. -/
def reply (op : ℕ) (ret : ℤ) (padding : ℕ → UInt8) : Except ServerFault Worker :=
  let replied :=
    if op = codeOpGetValueByKey then
      datareplied bufferSize w.replybuffer padding (some w.cachebuffer)
        (w.byteUsed % 2 ^ 64).toNat op (ret = 0)
    else datareplied bufferSize w.replybuffer padding none 0 op (ret = 0)
  match replied with
  | none => .error .bufferOverflow
  | some (replybuffer, rep) => .ok { w with
      place := .replying
      replybuffer
      rep := some w.replies.count
      replies := w.replies.new rep
      log := w.log ++ [.newReply w.replies.count op] }

/-- Before a section of a call. `getItem` writes to the buffer when it has found its item. -/
def enter (phase : Phase) (mem : Mem) : Except ServerFault Worker :=
  match phase with
  | .getting it => w.copyOut mem it
  | _ => .ok w

/-- Behind a section of a call, which goes on or has returned `ret`. -/
def leave (phase : Phase) (op : ℕ) (ret : ℤ) (padding : ℕ → UInt8) : Except ServerFault Worker :=
  match phase with
  | .idle => w.reply op ret padding
  | _ => .ok { w with place := .calling op }

/-- The bytes that are sent: as many of `replybuffer` as `rep->size()` says. -/
def outgoing : Except ServerFault (List UInt8) :=
  (w.replies.get w.rep).map fun rep => readBytes w.replybuffer rep.totbytes

/-- The end of an iteration: the message is sent, and both objects are deleted. -/
def finish : Except ServerFault (Worker × List UInt8) := do
  let message ← w.outgoing
  let requests ← w.requests.delete w.req
  let replies ← w.replies.delete w.rep
  return ({ w with
    place := if w.closeall then .closed else .receiving
    requests
    replies
    log := w.log ++ (w.rep.toList.map .sent ++ w.req.toList.map .deletedRequest ++
      w.rep.toList.map .deletedReply) }, message)

end Worker

/-! ## The steps of the server -/

/-- What a call returns that has found no item or obtained none. -/
def Call.failed : Call → ℤ
  | .get _ => -1
  | .store _ _ _ => 0
  | .delete _ => 0

structure ZmqServer where
  threads : Threads
  worker : ℕ → Worker
  sent : List (ℕ × List UInt8)

namespace ZmqServer

/-- Every worker is before its loop, on memory that held the buffers. -/
def init (cache : LruLists) (buffers : ℕ → (ℕ → UInt8) × (ℕ → UInt8)) : ZmqServer where
  threads := .init cache
  worker i := .create (buffers i).1 (buffers i).2
  sent := []

/-- One step of a worker, or of the maintenance thread. `padding` is what the memory of a new reply
holds behind the `bool`. -/
inductive Action where
  /-- The worker receives a message, and runs the first section of the call. -/
  | receive (i : ℕ) (m : Message) (sys : System) (padding : ℕ → UInt8)
  /-- The worker runs the next section of its call. -/
  | resume (i : ℕ) (sys : System) (padding : ℕ → UInt8)
  /-- The worker sends its reply. -/
  | finish (i : ℕ)
  | maintain

variable (s : ZmqServer)

/-- A section of the cache -/
def runSection (action : ChaosCache.Action) : Except ServerFault Threads :=
  (s.threads.step action).mapError .cache

def step : Action → Except ServerFault ZmqServer
  | .receive i m sys padding =>
      if m.totbytes < sizeofReqHeader then .error .badMessage
      else do
        let req := (datarequested m.bytes m.totbytes m.serialized).1
        let w := (s.worker i).receive req
        let case ← m.operation req
        match case with
        | .cache call => do
            let threads ← s.runSection (.call i call sys)
            let w ← w.leave (threads.phase i) req.header.op call.failed padding
            return { s with threads, worker := Function.update s.worker i w }
        | .shutDown => do
            let w ← { w with closeall := true }.reply codeOpShutDown 0 padding
            return { s with worker := Function.update s.worker i w }
        | .noCase =>
            return { s with worker := Function.update s.worker i { w with place := .replying } }
  | .resume i sys padding =>
      match (s.worker i).place with
      | .calling op => do
          let w ← (s.worker i).enter (s.threads.phase i) s.threads.cache.mem
          let threads ← s.runSection (.resume i sys)
          let w ← w.leave (threads.phase i) op 0 padding
          return { s with threads, worker := Function.update s.worker i w }
      | _ => .ok s
  | .finish i => do
      let (w, message) ← (s.worker i).finish
      return { s with
        worker := Function.update s.worker i w
        sent := (i, message) :: s.sent }
  | .maintain => do
      let threads ← s.runSection .maintain
      return { s with threads }

/-- Each worker does what is next in its loop. -/
def Enabled : Action → Prop
  | .receive i _ _ _ => (s.worker i).place = .receiving
  | .resume i _ _ => ∃ op, (s.worker i).place = .calling op
  | .finish i => (s.worker i).place = .replying
  | .maintain => True

instance (action : Action) : Decidable (s.Enabled action) :=
  match action with
  | .receive i _ _ _ => inferInstanceAs (Decidable ((s.worker i).place = .receiving))
  | .resume i _ _ =>
      match place : (s.worker i).place with
      | .calling op => .isTrue ⟨op, place⟩
      | .receiving => .isFalse (by simp [Enabled, place])
      | .replying => .isFalse (by simp [Enabled, place])
      | .closed => .isFalse (by simp [Enabled, place])
  | .finish i => inferInstanceAs (Decidable ((s.worker i).place = .replying))
  | .maintain => .isTrue trivial

def Step (s s' : ZmqServer) : Prop := ∃ action, s.Enabled action ∧ s.step action = .ok s'

/-- The state after some actions, if each of them may come next and returns. -/
def exec (s : ZmqServer) : List Action → Option ZmqServer
  | [] => some s
  | action :: rest =>
      if s.Enabled action then (s.step action).toOption.bind (exec · rest) else none

open Relation in
theorem run_of_exec {s' : ZmqServer} {steps : ZmqServer → ZmqServer → Prop} :
    ∀ (actions : List Action) (s : ZmqServer),
      (∀ action ∈ actions, ∀ s s', s.Enabled action → s.step action = .ok s' → steps s s') →
        s.exec actions = some s' → ReflTransGen steps s s'
  | [], _, _, run => by
      cases run
      exact .refl
  | action :: rest, s, taken, run => by
      simp only [exec] at run
      split at run
      case isTrue enabled =>
        rcases Option.bind_eq_some_iff.mp run with ⟨next, first, others⟩
        have after := run_of_exec rest next
          (fun action isLater => taken action (List.mem_cons_of_mem _ isLater)) others
        have step := toOption_eq_some.mp first
        exact .head (taken action List.mem_cons_self s next enabled step) after
      case isFalse => cases run

/-- The actions of a run may be any. -/
theorem step_of_enabled (actions : List Action) : ∀ action ∈ actions, ∀ s s' : ZmqServer,
    s.Enabled action → s.step action = .ok s' → Step s s' :=
  fun action _ _ _ enabled step => ⟨action, enabled, step⟩

end ZmqServer

end ChaosCache
