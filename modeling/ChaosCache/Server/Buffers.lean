import ChaosCache.Lru.Lengths
import ChaosCache.Server.Replies

/-!
# The buffers of a worker

Neither `getItem` nor the constructor of the reply is told how long its buffer is. What a worker
writes there is as long as the value that it has found, so a copy leaves its buffer exactly when
that value leaves no room for the header of the reply. How long the value is was decided when it
was stored.
-/

namespace ChaosCache

open Relation Reqrep

variable {known : Set ℕ} {bound it : ℕ}

/-! ## Values in the cache -/

/-- A value that is stored has at most `bound` bytes. -/
def Call.Short (bound : ℕ) : Call → Prop
  | store _ _ bufflen => (bufflen % 2 ^ 32).toNat ≤ bound
  | _ => True

namespace Threads

variable {t t' : Threads}

/-- The table and all threads lead to known items, whose values are short. -/
structure Knows (t : Threads) (known : Set ℕ) (bound : ℕ) : Prop where
  cache : t.cache.Knows known bound
  items : ∀ thread, ∀ it ∈ (t.phase thread).item, it ∈ known

theorem Knows.enter (knows : t.Knows known bound) {thread : ℕ} {cache : LruLists} {phase : Phase}
    (obtained : List ℕ) {known' : Set ℕ} (grows : known ⊆ known')
    (cacheKnows : cache.Knows known' bound) (item : ∀ it ∈ phase.item, it ∈ known') :
    ({ t.enter thread cache phase with obtained } : Threads).Knows known' bound := by
  refine ⟨cacheKnows, ?_⟩
  intro other
  by_cases same : other = thread
  · subst same
    simpa [Threads.enter] using item
  · intro it isItem
    apply grows
    exact knows.items other it (by simpa [Threads.enter, same] using isItem)

theorem knows_of_start {cache : LruLists} {phase : Phase} {call : Call} {sys : System}
    (knows : t.cache.Knows known bound) (short : call.Short bound)
    (run : call.start t.cache sys = .ok (cache, phase)) :
    ∃ known', known ⊆ known' ∧ cache.Knows known' bound ∧ ∀ it ∈ phase.item, it ∈ known' := by
  cases call with
  | get key =>
      rcases bind_eq_ok.mp run with ⟨⟨c, found⟩, got, done⟩
      cases done
      rcases knows.doItemGet got with ⟨after, inKnown⟩
      refine ⟨known, subset_rfl, after, ?_⟩
      cases found with
      | none => simp [Phase.item]
      | some it => simpa [Phase.item] using inKnown
  | store key inbuffer bufflen =>
      rcases bind_eq_ok.mp run with ⟨⟨c, found⟩, allocated, done⟩
      cases done
      rcases knows.itemAlloc short allocated with ⟨known', grows, after, inKnown⟩
      refine ⟨known', grows, after, ?_⟩
      cases found with
      | none => simp [Phase.item]
      | some it => simpa [Phase.item] using inKnown
  | delete key =>
      rcases bind_eq_ok.mp run with ⟨⟨c, found⟩, got, done⟩
      cases done
      rcases knows.doItemGet got with ⟨after, inKnown⟩
      refine ⟨known, subset_rfl, after, ?_⟩
      cases found with
      | none => simp [Phase.item]
      | some it => simpa [Phase.item] using inKnown

theorem knows_of_resume {cache : LruLists} {phase phase' : Phase} {sys : System}
    (knows : t.cache.Knows known bound) (item : ∀ it ∈ phase.item, it ∈ known)
    (run : phase.resume t.cache sys = .ok (cache, phase')) :
    cache.Knows known bound ∧ ∀ it ∈ phase'.item, it ∈ known := by
  cases phase with
  | idle =>
      cases run
      exact ⟨knows, item⟩
  | storing it inbuffer bufflen =>
      rcases bind_eq_ok.mp run with ⟨c, copied, done⟩
      cases done
      simp only [DataCache.copyIn] at copied
      split at copied
      · cases copied
      · cases copied
        exact ⟨knows.congr rfl rfl rfl, item⟩
  | copied it =>
      rcases bind_eq_ok.mp run with ⟨c, stored, done⟩
      cases done
      exact ⟨knows.storeItem (item it rfl) stored, by simp [Phase.item]⟩
  | getting it =>
      cases run
      exact ⟨knows, by simp [Phase.item]⟩
  | deleting it =>
      rcases bind_eq_ok.mp run with ⟨c, isUnlinked, done⟩
      cases done
      exact ⟨knows.doItemUnlink isUnlinked, item⟩
  | unlinked it =>
      rcases bind_eq_ok.mp run with ⟨c, released, done⟩
      cases done
      exact ⟨knows.doItemRelease released, by simp [Phase.item]⟩

theorem Knows.call (knows : t.Knows known bound) {thread : ℕ} {call : Call} {sys : System}
    (short : call.Short bound) (run : t.step (.call thread call sys) = .ok t') :
    ∃ known', t'.Knows known' bound := by
  rcases bind_eq_ok.mp run with ⟨⟨cache, phase⟩, started, done⟩
  cases done
  rcases knows_of_start knows.cache short started with ⟨known', grows, after, item⟩
  exact ⟨known', knows.enter _ grows after item⟩

theorem Knows.resume (knows : t.Knows known bound) {thread : ℕ} {sys : System}
    (run : t.step (.resume thread sys) = .ok t') : t'.Knows known bound := by
  rcases bind_eq_ok.mp run with ⟨⟨cache, phase⟩, resumed, done⟩
  cases done
  rcases knows_of_resume knows.cache (knows.items thread) resumed with ⟨after, item⟩
  exact knows.enter _ subset_rfl after item

theorem Knows.maintain (knows : t.Knows known bound) (run : t.step .maintain = .ok t') :
    t'.Knows known bound := by
  rcases bind_eq_ok.mp run with ⟨cache, passed, done⟩
  cases done
  exact ⟨knows.cache.maintenance passed, knows.items⟩

end Threads

/-! ## Copies into the buffers -/

namespace Worker

variable {w w' : Worker} {fault : ServerFault} {padding : ℕ → UInt8} {op : ℕ} {ret : ℤ}

/-- What is left from the last hit always fits into a reply. -/
theorem Leftover.leave_ne_error (leftover : w.Leftover) {phase : Phase} :
    w.leave phase op ret padding ≠ .error fault := by
  intro failed
  cases phase with
  | idle =>
      by_cases isGet : op = codeOpGetValueByKey
      · subst isGet
        have tooLong := ((reply_get_eq_error leftover.byteUsed leftover.small).mp failed).2
        exact Nat.not_lt.mpr leftover.fits tooLong
      · exact reply_ne_error isGet failed
  | storing | copied | getting | deleting | unlinked => cases failed

theorem copyOut_eq_error {mem : Mem} :
    w.copyOut mem it = .error fault ↔ fault = .bufferOverflow ∧ bufferSize < mem.nbytes it := by
  simp only [copyOut]
  split
  case isTrue long => simp [long, eq_comm]
  case isFalse short => simp [short]

theorem Leftover.receive (leftover : w.Leftover) (req : Datarequested) :
    (w.receive req).Leftover :=
  ⟨leftover.byteUsed, leftover.held, leftover.fits⟩

theorem reply_of_other (notGet : op ≠ codeOpGetValueByKey) (w : Worker) (ret : ℤ)
    (padding : ℕ → UInt8) : ∃ w', w.reply op ret padding = .ok w' := by
  cases replied : w.reply op ret padding with
  | ok w' => exact ⟨w', rfl⟩
  | error fault => exact absurd replied (reply_ne_error notGet)

/-- A value that leaves room for the header of a reply can be copied out, and answered. -/
theorem Leftover.enter (leftover : w.Leftover) {phase : Phase} {mem : Mem}
    (short : ∀ it, phase = .getting it → sizeofRepHeader + mem.nbytes it ≤ bufferSize) :
    ∃ w₁, w.enter phase mem = .ok w₁ ∧ w₁.Leftover := by
  cases phase with
  | idle | storing | copied | deleting | unlinked => exact ⟨w, rfl, leftover⟩
  | getting it =>
      have fits := short it rfl
      cases copied : w.copyOut mem it with
      | error fault =>
          have long := (copyOut_eq_error.mp copied).2
          exact absurd (Nat.lt_of_le_of_lt fits long) (Nat.not_lt.mpr (Nat.le_add_left _ _))
      | ok w₁ =>
          rcases of_copyOut copied with ⟨used, -, value, held⟩
          have length : w₁.lastHit.length = mem.nbytes it := by simp [value, Mem.data]
          refine ⟨w₁, copied, ?_, held, ?_⟩
          · rw [used, length]
          · rw [length]
            exact fits

theorem Leftover.leave (leftover : w.Leftover) (phase : Phase) (op : ℕ) (ret : ℤ)
    (padding : ℕ → UInt8) : ∃ w', w.leave phase op ret padding = .ok w' := by
  cases left : w.leave phase op ret padding with
  | ok w' => exact ⟨w', rfl⟩
  | error fault => exact absurd left leftover.leave_ne_error

end Worker

theorem Message.cString_ne_overflow {m : Message} {address : ℕ} :
    m.cString address ≠ .error .bufferOverflow := by
  unfold cString
  split
  · simp
  · split <;> simp

theorem Message.operation_ne_overflow {m : Message} {req : Datarequested} :
    m.operation req ≠ .error .bufferOverflow := by
  have mapped : ∀ f : List UInt8 → Case, (m.cString req.key).map f ≠ .error .bufferOverflow := by
    intro f
    cases string : m.cString req.key with
    | ok key => simp [Except.map]
    | error fault =>
        rintro ⟨⟩
        exact cString_ne_overflow string
  unfold operation
  split
  · exact mapped _
  · split
    · exact mapped _
    · split
      · exact mapped _
      · split <;> simp

namespace ZmqServer

variable {s s' : ZmqServer} {i : ℕ} {cache : LruLists}
  {buffers : ℕ → (ℕ → UInt8) × (ℕ → UInt8)}

theorem section_ne_overflow {action : ChaosCache.Action} :
    s.runSection action ≠ .error .bufferOverflow := by
  unfold runSection
  cases s.threads.step action <;> simp [Except.mapError]

/-- The step copies a value out that leaves no room for the header of the reply. -/
def CopiesLong (s : ZmqServer) : Action → Prop
  | .resume i _ _ => ∃ it, s.threads.phase i = .getting it ∧
      bufferSize < sizeofRepHeader + s.threads.cache.mem.nbytes it
  | _ => False

theorem receive_ne_overflow {m : Message} {sys : System} {padding : ℕ → UInt8}
    (leftover : (s.worker i).Leftover) :
    s.step (.receive i m sys padding) ≠ .error .bufferOverflow := by
  intro failed
  simp only [step] at failed
  split at failed
  case isTrue => cases failed
  case isFalse =>
    have received := leftover.receive (datarequested m.bytes m.totbytes m.serialized).1
    rcases bind_eq_error.mp failed with noOperation | ⟨operation, -, rest⟩
    · exact Message.operation_ne_overflow noOperation
    · cases operation with
      | cache call =>
          rcases bind_eq_error.mp rest with noSection | ⟨threads, -, rest⟩
          · exact section_ne_overflow noSection
          · rcases bind_eq_error.mp rest with notLeft | ⟨w, -, done⟩
            · exact received.leave_ne_error notLeft
            · cases done
      | shutDown =>
          rcases bind_eq_error.mp rest with noReply | ⟨w, -, done⟩
          · exact Worker.reply_ne_error (by decide) noReply
          · cases done
      | noCase => cases rest

theorem resume_eq_overflow {op : ℕ} {sys : System} {padding : ℕ → UInt8} (coupled : s.Coupled i)
    (leftover : (s.worker i).Leftover) (calling : (s.worker i).place = .calling op) :
    s.step (.resume i sys padding) = .error .bufferOverflow ↔
      s.CopiesLong (.resume i sys padding) := by
  simp only [Coupled, calling] at coupled
  simp only [step, calling, CopiesLong]
  cases phase : s.threads.phase i with
  | getting it =>
      have isGet := coupled.2 it phase
      subst isGet
      have ran : s.runSection (.resume i sys) = .ok (s.threads.enter i s.threads.cache .idle) := by
        simp [runSection, Threads.step, phase, Phase.resume, Except.mapError]
      have returns : (s.threads.enter i s.threads.cache .idle).phase i = .idle := by
        simp [Threads.enter]
      cases copied : (s.worker i).copyOut s.threads.cache.mem it with
      | error fault =>
          rcases Worker.copyOut_eq_error.mp copied with ⟨rfl, long⟩
          apply iff_of_true
          · exact bind_eq_error.mpr (Or.inl copied)
          · exact ⟨it, rfl, Nat.lt_of_lt_of_le long (Nat.le_add_left _ _)⟩
      | ok w =>
          rcases Worker.Leftover.of_copyOut copied with ⟨used, small, -, -⟩
          simp only [Worker.enter, copied, ran, ok_bind, returns, Worker.leave, Phase.getting.injEq,
            exists_eq_left', pure_eq_ok]
          constructor
          · intro failed
            rcases bind_eq_error.mp failed with noReply | ⟨w', -, done⟩
            · exact ((Worker.reply_get_eq_error used small).mp noReply).2
            · cases done
          · intro long
            exact bind_eq_error.mpr
              (Or.inl ((Worker.reply_get_eq_error used small).mpr ⟨rfl, long⟩))
  | idle | storing | copied | deleting | unlinked =>
      apply iff_of_false
      · intro failed
        simp only [Worker.enter, ok_bind] at failed
        rcases bind_eq_error.mp failed with noSection | ⟨threads, -, rest⟩
        · exact section_ne_overflow noSection
        · rcases bind_eq_error.mp rest with notLeft | ⟨w, -, done⟩
          · exact leftover.leave_ne_error notLeft
          · cases done
      · rintro ⟨it, ⟨⟩, -⟩

theorem finish_ne_overflow : s.step (.finish i) ≠ .error .bufferOverflow := by
  have noDelete : ∀ {α : Type} (objects : Objects α) (pointer : Option ℕ),
      objects.delete pointer ≠ .error .bufferOverflow := by
    intro α objects pointer
    cases pointer with
    | none => simp [Objects.delete]
    | some id =>
        simp only [Objects.delete]
        split <;> simp
  intro failed
  rcases bind_eq_error.mp failed with notFinished | ⟨finished, -, done⟩
  · rcases bind_eq_error.mp notFinished with noMessage | ⟨message, -, rest⟩
    · simp only [Worker.outgoing, Objects.get] at noMessage
      split at noMessage <;> cases noMessage
    · rcases bind_eq_error.mp rest with noRequest | ⟨requests, -, rest⟩
      · exact noDelete _ _ noRequest
      · rcases bind_eq_error.mp rest with noReply | ⟨replies, -, done⟩
        · exact noDelete _ _ noReply
        · cases done
  · cases done

/-- In every run a step overflows a buffer exactly when it copies a long value out. -/
theorem eq_overflow_iff (run : ReflTransGen Step (init cache buffers) s) {action : Action}
    (enabled : s.Enabled action) :
    s.step action = .error .bufferOverflow ↔ s.CopiesLong action := by
  cases action with
  | receive i m sys padding =>
      have leftover := Worker.Leftover.of_moves (workers_of_run run i).2
      exact iff_of_false (receive_ne_overflow leftover) id
  | resume i sys padding =>
      rcases workers_of_run run i with ⟨coupled, moves⟩
      rcases enabled with ⟨op, calling⟩
      exact resume_eq_overflow coupled (Worker.Leftover.of_moves moves) calling
  | finish i => exact iff_of_false finish_ne_overflow id
  | maintain =>
      apply iff_of_false _ id
      intro failed
      rcases bind_eq_error.mp failed with noSection | ⟨threads, -, done⟩
      · exact section_ne_overflow noSection
      · cases done

/-! ## Runs with short values -/

/-- A message that stores a value leaves room for the header in a reply with that value. -/
def Action.Short : Action → Prop
  | .receive _ m _ _ => (readHeader m.bytes m.serialized).op = codeOpSetKeyValue →
      sizeofRepHeader + (readHeader m.bytes m.serialized).nbytes ≤ bufferSize
  | _ => True

/-- A step of a run in which only short values are stored. -/
def ShortStep (s s' : ZmqServer) : Prop :=
  ∃ action, action.Short ∧ s.Enabled action ∧ s.step action = .ok s'

/-- The longest value that fits into a reply. -/
def maxValue : ℕ := bufferSize - sizeofRepHeader

theorem short_of_operation {m : Message} {call : Call}
    (short : (readHeader m.bytes m.serialized).op = codeOpSetKeyValue →
      sizeofRepHeader + (readHeader m.bytes m.serialized).nbytes ≤ bufferSize)
    (operates : m.operation (datarequested m.bytes m.totbytes m.serialized).1 =
      .ok (.cache call)) : call.Short maxValue := by
  simp only [Message.operation] at operates
  split at operates
  · rcases map_eq_ok.mp operates with ⟨key, -, isCall⟩
    cases isCall
    trivial
  · split at operates
    case isTrue isSet =>
      rcases map_eq_ok.mp operates with ⟨key, -, isCall⟩
      cases isCall
      have fits := short isSet
      simp only [sizeofRepHeader, bufferSize] at fits
      simp only [Call.Short, Datarequested.datasize, datarequested, DataCache.toInt32, maxValue,
        bufferSize, sizeofRepHeader]
      omega
    case isFalse =>
      split at operates
      · rcases map_eq_ok.mp operates with ⟨key, -, isCall⟩
        cases isCall
        trivial
      · split at operates <;> cases operates

theorem knows_of_step {known : Set ℕ} (knows : s.threads.Knows known maxValue)
    (step : ShortStep s s') : ∃ known', s'.threads.Knows known' maxValue := by
  rcases step with ⟨action, short, enabled, run⟩
  cases action with
  | receive i m sys padding =>
      simp only [ZmqServer.step] at run
      split at run
      case isTrue => cases run
      case isFalse =>
        rcases bind_eq_ok.mp run with ⟨operation, operates, rest⟩
        cases operation with
        | cache call =>
            rcases bind_eq_ok.mp rest with ⟨threads, ran, rest⟩
            rcases bind_eq_ok.mp rest with ⟨w, -, done⟩
            cases done
            exact knows.call (short_of_operation short operates) (section_eq_ok.mp ran)
        | shutDown =>
            rcases bind_eq_ok.mp rest with ⟨w, -, done⟩
            cases done
            exact ⟨known, knows⟩
        | noCase =>
            cases rest
            exact ⟨known, knows⟩
  | resume i sys padding =>
      rcases enabled with ⟨op, calling⟩
      simp only [ZmqServer.step, calling] at run
      rcases bind_eq_ok.mp run with ⟨w₁, -, rest⟩
      rcases bind_eq_ok.mp rest with ⟨threads, ran, rest⟩
      rcases bind_eq_ok.mp rest with ⟨w, -, done⟩
      cases done
      exact ⟨known, knows.resume (section_eq_ok.mp ran)⟩
  | finish i =>
      rcases bind_eq_ok.mp run with ⟨finished, -, done⟩
      cases done
      exact ⟨known, knows⟩
  | maintain =>
      rcases bind_eq_ok.mp run with ⟨threads, ran, done⟩
      cases done
      exact ⟨known, knows.maintain (section_eq_ok.mp ran)⟩

/-- In a run that stores short values only, the cache holds short values only. -/
theorem knows_of_run {mem : Mem} {cacheSize : ℕ} {os : Os} {initialMalloc : Option ℕ}
    (created : DataCache.create .zero .zero mem cacheSize os initialMalloc = .ok cache)
    (run : ReflTransGen ShortStep (init cache buffers) s) :
    ∃ known, s.threads.Knows known maxValue := by
  induction run with
  | refl =>
      rw [DataCache.create_eq, Except.ok.injEq] at created
      subst created
      refine ⟨∅, .of_empty rfl rfl, ?_⟩
      simp [init, Threads.init, Phase.item]
  | tail _ last ih =>
      rcases ih with ⟨known, knows⟩
      exact knows_of_step knows last

/-- Whatever the values, a step overflows a buffer exactly when it copies out a value of more than
1008 bytes. There is none in a run that stores values of at most 1008 bytes only. -/
theorem withinBuffers_of_run {mem : Mem} {cacheSize : ℕ} {os : Os} {initialMalloc : Option ℕ}
    (created : DataCache.create .zero .zero mem cacheSize os initialMalloc = .ok cache)
    {action : Action} (enabled : s.Enabled action) :
    (ReflTransGen Step (init cache buffers) s →
      (s.step action ≠ .error .bufferOverflow ↔ ¬s.CopiesLong action)) ∧
    (ReflTransGen ShortStep (init cache buffers) s →
      s.step action ≠ .error .bufferOverflow) := by
  have always : ReflTransGen Step (init cache buffers) s →
      (s.step action ≠ .error .bufferOverflow ↔ ¬s.CopiesLong action) :=
    fun run => not_congr (eq_overflow_iff run enabled)
  refine ⟨always, ?_⟩
  intro short
  have forget : ∀ a b, ShortStep a b → Step a b := by
    rintro a b ⟨action, -, steps⟩
    exact ⟨action, steps⟩
  apply (always (ReflTransGen.mono forget _ _ short)).mpr
  rcases knows_of_run created short with ⟨known, knows⟩
  cases action with
  | resume i sys padding =>
      rintro ⟨it, getting, long⟩
      have isKnown := knows.items i it (by simp [getting, Phase.item])
      have fits := knows.cache.nbytes it isKnown
      simp only [maxValue, bufferSize, sizeofRepHeader] at fits long
      omega
  | receive | finish | maintain => exact id

/-- The next section of worker 0. -/
def resumeNext : Action := .resume 0 (DataCache.outOfMemory 0) fun _ => 0

/-- Worker 0 has stored a byte, and has found it again. -/
def shortHit : List Action :=
  [receiveRequest [107] [42] codeOpSetKeyValue (DataCache.onePage 1048512 4096 0), resumeNext,
    resumeNext, .finish 0, receiveRequest [107] [] codeOpGetValueByKey (DataCache.outOfMemory 0)]

theorem withinBuffers_shortHit : ∃ s : ZmqServer, (s.threads.phase 0).item = some 4096 ∧
    (s.step resumeNext ≠ .error .bufferOverflow ↔ ¬s.CopiesLong resumeNext) ∧
      s.step resumeNext ≠ .error .bufferOverflow := by
  have found : (start.exec shortHit).map
      (fun s => ((s.threads.phase 0).item, (s.worker 0).place)) =
        some (some 4096, .calling codeOpGetValueByKey) := by
    decide +kernel
  rcases Option.map_eq_some_iff.mp found with ⟨s, run, both⟩
  rw [Prod.mk.injEq] at both
  rcases both with ⟨item, calling⟩
  have created := DataCache.create_eq .zero 64 ((DataCache.outOfMemory 0).os 0) none
  have enabled : s.Enabled resumeNext := ⟨_, calling⟩
  have short : ReflTransGen ShortStep start s := by
    apply run_of_exec _ _ _ run
    intro action mem s s' enabled step
    refine ⟨action, ?_, enabled, step⟩
    simp only [shortHit, List.mem_cons, List.not_mem_nil, or_false] at mem
    rcases mem with rfl | rfl | rfl | rfl | rfl
    · intro _
      exact Nat.le_of_ble_eq_true rfl
    · trivial
    · trivial
    · trivial
    · intro isSet
      exact absurd isSet (by decide +kernel)
  exact ⟨s, item,
    (withinBuffers_of_run created enabled).1 (run_of_exec _ _ (step_of_enabled _) run),
    (withinBuffers_of_run created enabled).2 short⟩

/-- A `SET` of the key `k` to 1009 bytes. -/
def longSet : Message where
  bytes a :=
    if a < 4096 + sizeofReqHeader then
      (ReqHeader.image (fun _ => 0) { op := codeOpSetKeyValue, nkey := 1, nbytes := 1009 }).getD
        (a - 4096) 0
    else if a = 4096 + sizeofReqHeader then 107
    else if a = 4096 + sizeofReqHeader + 1 then 0
    else 42
  serialized := 4096
  totbytes := sizeofReqHeader + 1 + 1 + 1009

/-- Worker 0 has stored 1009 bytes, and has found them again. -/
def longHit : List Action :=
  [.receive 0 longSet (DataCache.onePage 1047840 4096 0) fun _ => 0, resumeNext, resumeNext,
    .finish 0, receiveRequest [107] [] codeOpGetValueByKey (DataCache.outOfMemory 0)]

/-- The reply to the `GET` is one byte longer than its buffer. -/
theorem not_withinBuffers_of_longHit : ¬∀ (mem : Mem) (cacheSize : ℕ) (os : Os)
    (initialMalloc : Option ℕ) (cache : LruLists) (buffers : ℕ → (ℕ → UInt8) × (ℕ → UInt8))
    (s : ZmqServer) (action : Action),
      DataCache.create .zero .zero mem cacheSize os initialMalloc = .ok cache →
        ReflTransGen Step (init cache buffers) s → s.Enabled action →
          s.step action ≠ .error .bufferOverflow := by
  intro always
  have overflows : (start.exec longHit).map (fun s => ((s.worker 0).place,
      match s.step resumeNext with
      | .error fault => some fault
      | .ok _ => none)) = some (.calling codeOpGetValueByKey, some .bufferOverflow) := by
    decide +kernel
  rcases Option.map_eq_some_iff.mp overflows with ⟨s, run, both⟩
  rw [Prod.mk.injEq] at both
  rcases both with ⟨calling, failed⟩
  have created := DataCache.create_eq .zero 64 ((DataCache.outOfMemory 0).os 0) none
  apply always _ _ _ _ _ _ s resumeNext created (run_of_exec _ _ (step_of_enabled _) run)
    ⟨_, calling⟩
  cases step : s.step resumeNext with
  | ok s' => simp [step] at failed
  | error fault => simpa [step] using failed

end ZmqServer

end ChaosCache
