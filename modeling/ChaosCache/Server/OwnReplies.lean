import ChaosCache.Server.Buffers

/-!
# Each message and its reply

Every message whose op code has a case gets a reply of its own. The `switch` has no default, so that
any other message finds `rep` as the last iteration has left it: it is `NULL`, or it leads to a
reply that was deleted. A case that passes `key()` on gets no further than that if it is `NULL`, as
it is for a message whose header says that there is no key.
-/

namespace ChaosCache

open Relation Reqrep

/-- What a worker does for message number `i`. -/
def iteration (i op : ℕ) : List Event :=
  [.received op, .newRequest i, .newReply i op, .sent i, .deletedRequest i, .deletedReply i]

/-- What a worker does for some messages with these op codes. -/
def iterations (ops : List ℕ) : List Event := (ops.mapIdx iteration).flatten

theorem iterations_concat (ops : List ℕ) (op : ℕ) :
    iterations (ops ++ [op]) = iterations ops ++ iteration ops.length op := by
  simp [iterations, List.mapIdx_append]

namespace Worker

variable {w w' : Worker} {ops : List ℕ} {op : ℕ}

/-- No reply is alive but the one for message number `i`. -/
def OnlyReply (w : Worker) (i : ℕ) : Prop :=
  w.replies.count = i ∧ ∀ id, w.replies.live id = none

/-- `req` leads to the request of message number `i`, the last one. -/
def OwnRequest (w : Worker) (i : ℕ) : Prop :=
  w.requests.count = i + 1 ∧ w.req = some i ∧ (w.requests.live i).isSome

/-- How far a worker is that has handled messages with these op codes. -/
inductive Handles (w : Worker) (ops : List ℕ) : Prop where
  | ready : w.place = .receiving ∨ w.place = .closed → w.log = iterations ops →
      w.requests.count = ops.length → w.OnlyReply ops.length → Handles w ops
  | calling {op : ℕ} : w.place = .calling op → HasCase op →
      w.log = iterations ops ++ (iteration ops.length op).take 2 →
        w.OwnRequest ops.length → w.OnlyReply ops.length → Handles w ops
  | replying {op : ℕ} {rep : Datareplied} : w.place = .replying → HasCase op →
      w.log = iterations ops ++ (iteration ops.length op).take 3 →
        w.OwnRequest ops.length → w.replies.count = ops.length + 1 → w.rep = some ops.length →
          w.replies.live ops.length = some rep → rep.header.op = op →
            (∀ id, id ≠ ops.length → w.replies.live id = none) → Handles w ops
  | noCase {op : ℕ} : w.place = .replying → ¬HasCase op →
      w.log = iterations ops ++ (iteration ops.length op).take 2 →
        w.OnlyReply ops.length → Handles w ops

/-- The reply of the case that the worker is in. -/
theorem handles_of_reply {ret : ℤ} {padding : ℕ → UInt8} (hasCase : HasCase op)
    (log : w.log = iterations ops ++ (iteration ops.length op).take 2)
    (own : w.OwnRequest ops.length) (only : w.OnlyReply ops.length)
    (replied : w.reply op ret padding = .ok w') : w'.Handles ops := by
  rcases only with ⟨replies, dead⟩
  rcases of_reply replied with ⟨replybuffer, rep, isOp, rfl⟩
  refine Handles.replying rfl hasCase ?_ own ?_ ?_ ?_ isOp ?_
  · simp [log, replies, iteration]
  · simp [Objects.new, replies]
  · simp [replies]
  · simp [Objects.new, replies]
  · intro id other
    simpa [Objects.new, replies, other] using dead id

/-- The end of an iteration finds both objects alive. -/
theorem finish_of_live {i : ℕ} {rep : Datareplied} (own : w.OwnRequest i) (isRep : w.rep = some i)
    (live : w.replies.live i = some rep) :
    w.finish = .ok ({ w with
      place := if w.closeall then .closed else .receiving
      requests := { w.requests with live := Function.update w.requests.live i none }
      replies := { w.replies with live := Function.update w.replies.live i none }
      log := w.log ++ [.sent i, .deletedRequest i, .deletedReply i] },
        readBytes w.replybuffer rep.totbytes) := by
  rcases own with ⟨-, isReq, liveRequest⟩
  simp [finish, outgoing, Objects.get, Objects.delete, isReq, isRep, live, liveRequest, Except.map]

theorem handles_of_finish {rep : Datareplied} {message : List UInt8}
    (log : w.log = iterations ops ++ (iteration ops.length op).take 3)
    (own : w.OwnRequest ops.length)
    (replies : w.replies.count = ops.length + 1) (isRep : w.rep = some ops.length)
    (live : w.replies.live ops.length = some rep)
    (others : ∀ id, id ≠ ops.length → w.replies.live id = none)
    (finished : w.finish = .ok (w', message)) : w'.Handles (ops ++ [op]) := by
  have count := own.1
  rw [finish_of_live own isRep live] at finished
  cases finished
  apply Handles.ready
  · cases w.closeall <;> simp
  · simp [log, iterations_concat, iteration]
  · simp [count]
  · refine ⟨by simp [replies], ?_⟩
    intro id
    by_cases same : id = ops.length
    · simp [same]
    · simpa [same] using others id same

theorem finish_of_onlyReply {i : ℕ} (only : w.OnlyReply i) : w.finish = .error .badPointer := by
  rcases only with ⟨-, dead⟩
  have nowhere : w.replies.get w.rep = .error .badPointer := by
    cases rep : w.rep with
    | none => simp [Objects.get]
    | some id => simp [Objects.get, dead id]
  simp [finish, outgoing, nowhere, Except.map, bind, Except.bind]

namespace Handles

theorem of_receiving (handles : w.Handles ops) (receiving : w.place = .receiving) :
    w.log = iterations ops ∧ w.requests.count = ops.length ∧ w.OnlyReply ops.length := by
  cases handles with
  | ready _ log count only => exact ⟨log, count, only⟩
  | calling place => simp [place] at receiving
  | replying place => simp [place] at receiving
  | noCase place => simp [place] at receiving

theorem of_calling (handles : w.Handles ops) (calling : w.place = .calling op) :
    HasCase op ∧ w.log = iterations ops ++ (iteration ops.length op).take 2 ∧
      w.OwnRequest ops.length ∧ w.OnlyReply ops.length := by
  cases handles with
  | ready place => rcases place with place | place <;> simp [place] at calling
  | calling place hasCase log own only =>
      have same := place.symm.trans calling
      cases same
      exact ⟨hasCase, log, own, only⟩
  | replying place => simp [place] at calling
  | noCase place => simp [place] at calling

theorem receive (handles : w.Handles ops) (receiving : w.place = .receiving)
    (req : Datarequested) :
    (w.receive req).log = iterations ops ++ (iteration ops.length req.header.op).take 2 ∧
      (w.receive req).OwnRequest ops.length ∧ (w.receive req).OnlyReply ops.length := by
  rcases handles.of_receiving receiving with ⟨log, count, only⟩
  refine ⟨?_, ⟨?_, ?_, ?_⟩, only⟩
  · simp [Worker.receive, log, count, iteration]
  · simp [Worker.receive, Objects.new, count]
  · simp [Worker.receive, count]
  · simp [Worker.receive, Objects.new, count]

/-- A step keeps to the message, or it is the end of one that had a case. -/
theorem moves (handles : w.Handles ops) (moves : w.Moves w') :
    w'.Handles ops ∨ ∃ op, HasCase op ∧ w'.Handles (ops ++ [op]) := by
  cases moves with
  | @call req receiving hasCase =>
      rcases handles.receive receiving req with ⟨log, own, only⟩
      exact Or.inl (.calling rfl hasCase log own only)
  | @miss req _ _ _ receiving hasCase replied =>
      rcases handles.receive receiving req with ⟨log, own, only⟩
      exact Or.inl (handles_of_reply hasCase log own only replied)
  | @shutDown req _ _ receiving isShutDown replied =>
      rcases handles.receive receiving req with ⟨log, own, only⟩
      have hasCase : HasCase codeOpShutDown := by decide
      rw [isShutDown] at log
      refine Or.inl (handles_of_reply hasCase ?_ ?_ ?_ replied)
      · exact log
      · exact own
      · exact only
  | @noCase req receiving noCase =>
      rcases handles.receive receiving req with ⟨log, -, only⟩
      exact Or.inl (.noCase rfl noCase log only)
  | goOn calling =>
      rcases handles.of_calling calling with ⟨hasCase, log, own, only⟩
      exact Or.inl (.calling rfl hasCase log own only)
  | hit calling copied replied =>
      rcases handles.of_calling calling with ⟨hasCase, log, own, only⟩
      rcases of_copyOut copied with ⟨-, rfl⟩
      refine Or.inl (handles_of_reply hasCase ?_ ?_ ?_ replied)
      · exact log
      · exact own
      · exact only
  | returns calling replied =>
      rcases handles.of_calling calling with ⟨hasCase, log, own, only⟩
      exact Or.inl (handles_of_reply hasCase log own only replied)
  | finish replying finished =>
      cases handles with
      | ready place => rcases place with place | place <;> simp [place] at replying
      | calling place => simp [place] at replying
      | replying place hasCase log own replies isRep live isOp others =>
          right
          exact ⟨_, hasCase, handles_of_finish log own replies isRep live others finished⟩
      | noCase place noCase log only =>
          rw [finish_of_onlyReply only] at finished
          cases finished

theorem of_moves {cachebuffer replybuffer : ℕ → UInt8}
    (run : ReflTransGen Moves (create cachebuffer replybuffer) w) :
    ∃ ops, (∀ op ∈ ops, HasCase op) ∧ w.Handles ops := by
  induction run with
  | refl => exact ⟨[], by simp, .ready (Or.inl rfl) rfl rfl ⟨rfl, fun _ => rfl⟩⟩
  | tail _ last ih =>
      rcases ih with ⟨ops, hasCases, handles⟩
      rcases handles.moves last with handles' | ⟨op, hasCase, handles'⟩
      · exact ⟨ops, hasCases, handles'⟩
      · refine ⟨ops ++ [op], ?_, handles'⟩
        intro op' mem
        rcases List.mem_append.mp mem with before | isLast
        · exact hasCases op' before
        · rwa [List.mem_singleton.mp isLast]

end Handles

end Worker

/-! ## Messages that are handled -/

namespace ZmqServer

variable {s s' : ZmqServer} {i : ℕ} {action : Action}

/-- The section of the cache that is run in a step. -/
def Action.inCache : Action → Option ChaosCache.Action
  | .receive i m sys _ =>
      match m.operation (datarequested m.bytes m.totbytes m.serialized).1 with
      | .ok (.cache call) => some (.call i call sys)
      | _ => none
  | .resume i sys _ => some (.resume i sys)
  | .finish _ => none
  | .maintain => some .maintain

variable {cache : LruLists} {buffers : ℕ → (ℕ → UInt8) × (ℕ → UInt8)}

/-- A `GET` without a key, which has a case, ends the program. -/
example : (start.step (receiveRequest [] [] codeOpGetValueByKey
    (DataCache.outOfMemory 0))).toOption.isNone = true := by
  decide +kernel

end ZmqServer

end ChaosCache
