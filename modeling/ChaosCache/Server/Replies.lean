import ChaosCache.Server.Workers

/-!
# What a reply carries

`byte_used` and `cachebuffer` hold what the last hit of the worker has left in them. A `GET` that
misses is answered with that, as if it had been found.
-/

namespace ChaosCache

open Relation Reqrep

namespace Worker

variable {w w' : Worker} {op n : ℕ} {ret : ℤ} {padding : ℕ → UInt8} {fault : ServerFault}

/-! ## The reply to a `GET` -/

theorem size_of_byteUsed (used : w.byteUsed = n) (small : n ≤ bufferSize) :
    (w.byteUsed % 2 ^ 64).toNat = n := by
  simp only [bufferSize] at small
  rw [used]
  omega

/-- Only a `GET` can overflow the buffer of the reply. -/
theorem reply_ne_error (notGet : op ≠ codeOpGetValueByKey) :
    w.reply op ret padding ≠ .error fault := by
  simp [reply, notGet, datareplied]

/-- The reply to a `GET` overflows its buffer when `byte_used` leaves no room for the header. -/
theorem reply_get_eq_error (used : w.byteUsed = n) (small : n ≤ bufferSize) :
    w.reply codeOpGetValueByKey ret padding = .error fault ↔
      fault = .bufferOverflow ∧ bufferSize < sizeofRepHeader + n := by
  simp only [reply, if_true, size_of_byteUsed used small]
  split
  case h_1 overflows =>
    have tooLong := (datareplied_eq_none.mp overflows).2
    simp [tooLong, eq_comm]
  case h_2 replied =>
    have room : ¬(n ≠ 0 ∧ bufferSize < sizeofRepHeader + n) := by
      intro tooLong
      rw [datareplied_eq_none.mpr tooLong] at replied
      cases replied
    have short : ¬bufferSize < sizeofRepHeader + n := by
      intro tooLong
      apply room ⟨_, tooLong⟩
      rintro rfl
      simp [bufferSize, sizeofRepHeader] at tooLong
    simp [short]

/-- What a `GET` is answered with: the first `byte_used` bytes of `cachebuffer`. -/
theorem outgoing_of_reply (used : w.byteUsed = n) (small : n ≤ bufferSize)
    (replied : w.reply codeOpGetValueByKey ret padding = .ok w') :
    (w'.replies.get w'.rep).map Datareplied.header =
        .ok { op := codeOpGetValueByKey, valret := ret = 0, nbytes := n } ∧
      w'.outgoing = .ok (RepHeader.image padding
        { op := codeOpGetValueByKey, valret := ret = 0, nbytes := n } ++
          readBytes w.cachebuffer n) := by
  simp only [reply, if_true, size_of_byteUsed used small] at replied
  split at replied
  case h_1 => cases replied
  case h_2 replybuffer rep isReply =>
    cases replied
    have short : sizeofRepHeader + n < 2 ^ 64 := by
      simp only [sizeofRepHeader, bufferSize] at *
      omega
    simp only [outgoing, Objects.get, Objects.new, Option.bind_some, Function.update_self,
      Except.map]
    exact ⟨congrArg Except.ok (header_of_datareplied isReply),
      congrArg Except.ok (readBytes_of_datareplied short isReply)⟩

/-! ## What is left from one message to the next -/

/-- The value that the last hit of the worker returned, and nothing before the first hit. -/
def lastHit (w : Worker) : List UInt8 := w.hits.headD []

/-- What a worker keeps from one message to the next: its last hit, which fitted into a reply. -/
structure Leftover (w : Worker) : Prop where
  byteUsed : w.byteUsed = w.lastHit.length
  held : Holds w.cachebuffer 0 w.lastHit
  fits : sizeofRepHeader + w.lastHit.length ≤ bufferSize

namespace Leftover

theorem small (leftover : w.Leftover) : w.lastHit.length ≤ bufferSize :=
  Nat.le_trans (Nat.le_add_left _ _) leftover.fits

theorem of_reply (leftover : w.Leftover) (replied : w.reply op ret padding = .ok w') :
    w'.Leftover := by
  rcases Worker.of_reply replied with ⟨replybuffer, rep, -, rfl⟩
  exact ⟨leftover.byteUsed, leftover.held, leftover.fits⟩

theorem of_copyOut {mem : Mem} {it : ℕ} (copied : w.copyOut mem it = .ok w') :
    w'.byteUsed = mem.nbytes it ∧ mem.nbytes it ≤ bufferSize ∧ w'.lastHit = mem.data it ∧
      Holds w'.cachebuffer 0 w'.lastHit := by
  rcases Worker.of_copyOut copied with ⟨small, rfl⟩
  refine ⟨?_, small, rfl, holds_writeBytes⟩
  apply if_pos
  simp only [bufferSize] at small
  omega

theorem of_hit {mem : Mem} {it : ℕ} {w₁ : Worker} (copied : w.copyOut mem it = .ok w₁)
    (replied : w₁.reply codeOpGetValueByKey 0 padding = .ok w') : w'.Leftover := by
  rcases of_copyOut copied with ⟨used, small, value, held⟩
  have length : w₁.lastHit.length = mem.nbytes it := by simp [value, Mem.data]
  have fits : ¬bufferSize < sizeofRepHeader + mem.nbytes it := by
    intro tooLong
    rw [(reply_get_eq_error used small).mpr ⟨rfl, tooLong⟩] at replied
    cases replied
  have leftover : w₁.Leftover :=
    ⟨by rw [used, length], held, by rw [length]; exact Nat.not_lt.mp fits⟩
  exact leftover.of_reply replied

theorem moves (leftover : w.Leftover) (moves : w.Moves w') : w'.Leftover := by
  cases moves with
  | call => exact ⟨leftover.byteUsed, leftover.held, leftover.fits⟩
  | @miss req _ _ _ _ _ replied =>
      have received : (w.receive req).Leftover :=
        ⟨leftover.byteUsed, leftover.held, leftover.fits⟩
      exact received.of_reply replied
  | @shutDown req _ _ _ _ replied =>
      have received : { w.receive req with closeall := true }.Leftover :=
        ⟨leftover.byteUsed, leftover.held, leftover.fits⟩
      exact received.of_reply replied
  | noCase => exact ⟨leftover.byteUsed, leftover.held, leftover.fits⟩
  | goOn => exact ⟨leftover.byteUsed, leftover.held, leftover.fits⟩
  | hit _ copied replied => exact of_hit copied replied
  | returns _ replied => exact leftover.of_reply replied
  | finish _ finished =>
      rcases bind_eq_ok.mp finished with ⟨message, -, rest⟩
      rcases bind_eq_ok.mp rest with ⟨requests, -, rest⟩
      rcases bind_eq_ok.mp rest with ⟨replies, -, done⟩
      cases done
      exact ⟨leftover.byteUsed, leftover.held, leftover.fits⟩

theorem of_moves {cachebuffer replybuffer : ℕ → UInt8}
    (run : ReflTransGen Moves (create cachebuffer replybuffer) w) : w.Leftover := by
  induction run with
  | refl => exact ⟨rfl, rfl, Nat.le_of_ble_eq_true rfl⟩
  | tail _ last ih => exact ih.moves last

end Leftover

end Worker

namespace ZmqServer

variable {s s' : ZmqServer} {i : ℕ} {m : Message} {sys : System} {padding : ℕ → UInt8}
  {cache : LruLists} {buffers : ℕ → (ℕ → UInt8) × (ℕ → UInt8)}

/-- Worker `i` receives a `GET` for a key that the cache does not hold, and lays out its reply. -/
structure Misses (s s' : ZmqServer) (i : ℕ) (m : Message) (key : List UInt8)
    (padding : ℕ → UInt8) : Prop where
  receiving : (s.worker i).place = .receiving
  isGet : (readHeader m.bytes m.serialized).op = codeOpGetValueByKey
  string : m.cString (datarequested m.bytes m.totbytes m.serialized).1.key = .ok key
  run : ∃ sys c, s.step (.receive i m sys padding) = .ok s' ∧
    s.threads.cache.itemGet (DataCache.cString key) sys = .ok (c, none)

theorem operation_of_get {key : List UInt8}
    (isGet : (readHeader m.bytes m.serialized).op = codeOpGetValueByKey)
    (string : m.cString (datarequested m.bytes m.totbytes m.serialized).1.key = .ok key) :
    m.operation (datarequested m.bytes m.totbytes m.serialized).1 = .ok (.cache (.get key)) := by
  have header : (datarequested m.bytes m.totbytes m.serialized).1.header.op =
      codeOpGetValueByKey := isGet
  simp [Message.operation, header, string, Except.map]

/-- A miss is answered with the last hit. -/
theorem outgoing_of_misses {key : List UInt8} (leftover : (s.worker i).Leftover)
    (misses : s.Misses s' i m key padding) :
    ((s'.worker i).replies.get (s'.worker i).rep).map Datareplied.header =
        .ok { op := codeOpGetValueByKey, valret := false,
              nbytes := (s.worker i).lastHit.length } ∧
      (s'.worker i).outgoing = .ok (RepHeader.image padding
        { op := codeOpGetValueByKey, valret := false, nbytes := (s.worker i).lastHit.length } ++
          (s.worker i).lastHit) := by
  rcases misses.run with ⟨sys, c, run, absent⟩
  have isGet : (datarequested m.bytes m.totbytes m.serialized).1.header.op =
      codeOpGetValueByKey := misses.isGet
  simp only [step] at run
  split at run
  case isTrue => cases run
  case isFalse =>
    rcases bind_eq_ok.mp run with ⟨operation, operates, rest⟩
    rw [operation_of_get misses.isGet misses.string] at operates
    cases operates
    rcases bind_eq_ok.mp rest with ⟨threads, ran, rest⟩
    rcases bind_eq_ok.mp rest with ⟨w, left, done⟩
    cases done
    have idle : threads.phase i = .idle := by
      rcases bind_eq_ok.mp (section_eq_ok.mp ran) with ⟨⟨cache, phase⟩, started, entered⟩
      rcases bind_eq_ok.mp started with ⟨⟨c', it⟩, got, returned⟩
      rw [absent] at got
      cases got
      cases returned
      cases entered
      simp [Threads.enter]
    rw [idle, isGet] at left
    have received : ((s.worker i).receive
        (datarequested m.bytes m.totbytes m.serialized).1).byteUsed =
          (s.worker i).lastHit.length := leftover.byteUsed
    have kept : readBytes (s.worker i).cachebuffer (s.worker i).lastHit.length =
        (s.worker i).lastHit := by
      simpa [Holds] using leftover.held
    simpa [Worker.receive, kept, Call.failed] using
      Worker.outgoing_of_reply received leftover.small left

/-- Two workers that miss give the same reply exactly when their last hits were the same, and the
padding is. The reply carries no data exactly when the last hit was empty, or there was none. -/
theorem sameReply_iff_of_runs {cache₁ cache₂ : LruLists}
    {buffers₁ buffers₂ : ℕ → (ℕ → UInt8) × (ℕ → UInt8)} {s₁ s₂ s₁' s₂' : ZmqServer} {i₁ i₂ : ℕ}
    {m₁ m₂ : Message} {key : List UInt8} {padding₁ padding₂ : ℕ → UInt8}
    (run₁ : ReflTransGen Step (init cache₁ buffers₁) s₁)
    (run₂ : ReflTransGen Step (init cache₂ buffers₂) s₂)
    (misses₁ : s₁.Misses s₁' i₁ m₁ key padding₁) (misses₂ : s₂.Misses s₂' i₂ m₂ key padding₂) :
    ((s₁'.worker i₁).outgoing = (s₂'.worker i₂).outgoing ↔
      readBytes padding₁ 3 = readBytes padding₂ 3 ∧
        (s₁.worker i₁).lastHit = (s₂.worker i₂).lastHit) ∧
    (((s₁'.worker i₁).replies.get (s₁'.worker i₁).rep).map (·.header.nbytes) = .ok 0 ↔
      (s₁.worker i₁).lastHit = []) := by
  have leftover₁ := Worker.Leftover.of_moves (workers_of_run run₁ i₁).2
  have leftover₂ := Worker.Leftover.of_moves (workers_of_run run₂ i₂).2
  rcases outgoing_of_misses leftover₁ misses₁ with ⟨header₁, outgoing₁⟩
  rcases outgoing_of_misses leftover₂ misses₂ with ⟨-, outgoing₂⟩
  constructor
  · rw [outgoing₁, outgoing₂, Except.ok.injEq]
    exact image_append_inj
  · rcases map_eq_ok.mp header₁ with ⟨rep, isRep, header⟩
    simp [isRep, Except.map, header, List.length_eq_zero_iff]

/-- Worker 0 serves a `SET` of the key `k`, and then a `GET` of it. -/
def setAndGet : List Action :=
  [receiveRequest [107] [42] codeOpSetKeyValue (DataCache.onePage 1048512 4096 0),
    .resume 0 (DataCache.outOfMemory 0) fun _ => 0, .resume 0 (DataCache.outOfMemory 0) fun _ => 0,
    .finish 0, receiveRequest [107] [] codeOpGetValueByKey (DataCache.outOfMemory 0),
    .resume 0 (DataCache.outOfMemory 0) fun _ => 0, .finish 0]

/-- The last hit of worker 0 after some actions, if a `GET` of the key `x` then misses. -/
def hitBeforeMiss (actions : List Action) : Option (List UInt8) := do
  let s ← start.exec actions
  let got ← (s.threads.cache.itemGet [120] (DataCache.outOfMemory 0)).toOption
  let _ ← (s.step (receiveRequest [120] [] codeOpGetValueByKey (DataCache.outOfMemory 0))).toOption
  if got.2 = none ∧ (s.worker 0).place = .receiving then some (s.worker 0).lastHit else none

theorem misses_of_exec {actions : List Action} {hit : List UInt8}
    (known : hitBeforeMiss actions = some hit) :
    ∃ s s', ReflTransGen Step start s ∧
      s.Misses s' 0 (requestMessage [120] [] codeOpGetValueByKey) [120] (fun _ => 0) ∧
        (s.worker 0).lastHit = hit := by
  rcases Option.bind_eq_some_iff.mp known with ⟨s, run, got⟩
  rcases Option.bind_eq_some_iff.mp got with ⟨⟨c, it⟩, got, stepped⟩
  rcases Option.bind_eq_some_iff.mp stepped with ⟨s', step, missed⟩
  split at missed
  case isTrue both =>
    rcases both with ⟨rfl, receiving⟩
    refine ⟨s, s', run_of_exec _ _ (step_of_enabled _) run, ⟨receiving, ?_, ?_, ?_⟩,
      Option.some.inj missed⟩
    · decide +kernel
    · decide +kernel
    · exact ⟨_, c, toOption_eq_some.mp step, toOption_eq_some.mp got⟩
  case isFalse => cases missed

theorem sameReply_iff_setAndGet : ∃ s₁ s₁' s₂ s₂' : ZmqServer,
    (s₁.worker 0).lastHit = [42] ∧ (s₂.worker 0).lastHit = [] ∧
      ((s₁'.worker 0).outgoing = (s₂'.worker 0).outgoing ↔
        readBytes (fun _ => 0) 3 = readBytes (fun _ => 0) 3 ∧
          (s₁.worker 0).lastHit = (s₂.worker 0).lastHit) ∧
      (((s₁'.worker 0).replies.get (s₁'.worker 0).rep).map (·.header.nbytes) = .ok 0 ↔
        (s₁.worker 0).lastHit = []) := by
  have known : hitBeforeMiss setAndGet = some [42] := by decide +kernel
  have unknown : hitBeforeMiss [] = some [] := by decide +kernel
  rcases misses_of_exec known with ⟨s₁, s₁', run₁, misses₁, hit⟩
  rcases misses_of_exec unknown with ⟨s₂, s₂', run₂, misses₂, noHit⟩
  exact ⟨s₁, s₁', s₂, s₂', hit, noHit, sameReply_iff_of_runs run₁ run₂ misses₁ misses₂⟩

/-- A `GET` that misses is answered with the value that an earlier one has returned. -/
theorem not_sameReply_of_setAndGet : ¬∀ (cache₁ cache₂ : LruLists)
    (buffers₁ buffers₂ : ℕ → (ℕ → UInt8) × (ℕ → UInt8)) (s₁ s₂ s₁' s₂' : ZmqServer) (i₁ i₂ : ℕ)
    (m : Message) (key : List UInt8) (padding : ℕ → UInt8),
      ReflTransGen Step (init cache₁ buffers₁) s₁ → ReflTransGen Step (init cache₂ buffers₂) s₂ →
        s₁.Misses s₁' i₁ m key padding → s₂.Misses s₂' i₂ m key padding →
          (s₁'.worker i₁).outgoing = (s₂'.worker i₂).outgoing := by
  intro always
  have known : hitBeforeMiss setAndGet = some [42] := by decide +kernel
  have unknown : hitBeforeMiss [] = some [] := by decide +kernel
  rcases misses_of_exec known with ⟨s₁, s₁', run₁, misses₁, hit⟩
  rcases misses_of_exec unknown with ⟨s₂, s₂', run₂, misses₂, noHit⟩
  have same := always _ _ _ _ _ _ _ _ _ _ _ _ _ run₁ run₂ misses₁ misses₂
  have leftover₁ := Worker.Leftover.of_moves (workers_of_run run₁ 0).2
  have leftover₂ := Worker.Leftover.of_moves (workers_of_run run₂ 0).2
  rw [(outgoing_of_misses leftover₁ misses₁).2, (outgoing_of_misses leftover₂ misses₂).2,
    Except.ok.injEq, image_append_inj, hit, noHit] at same
  exact List.cons_ne_nil _ _ same.2

end ZmqServer

end ChaosCache
