import BodyArchive.Futio.Blocking

/-!
# Sinks for the buffers of a stream

`AsyncBodySink` takes buffers one at a time: `start_send` puts one aside, and the next poll sends it
to the `BodySink`, in RAM as long as `max_body_ram` allows. `PermitBodySink` and `DispatchBodySink`
are its wrappers. The poll routine meets `sinkService` (`sinkRoutine_meets`), which says what comes
of a buffer.
-/

namespace BodyArchive

/-- How a blocking operation of a sink goes: the writes of a write-back, and the write. -/
structure SendAttempt where
  back : List OpResult
  write : OpResult
  deriving DecidableEq, Repr

/-- One where all goes well. -/
def SendAttempt.done : SendAttempt := ⟨[], .done⟩

/-- The fields of an `AsyncBodySink` but for the arbiter. The script says how the coming blocking
operations go; when it has run out, they go well. -/
structure SinkCore where
  body : BodySink
  tune : FutioTunables
  buf : Option Bytes
  script : List SendAttempt

/-- `AsyncBodySink`, for an arbiter. -/
abbrev AsyncBodySink (BA : Type) := Adaptor SinkCore BA

namespace SinkCore

/-- `AsyncBodySink::new`. -/
def new (body : BodySink) (tune : FutioTunables) (script : List SendAttempt) : SinkCore :=
  ⟨body, tune, none, script⟩

def onBody {ε α : Type} (m : Prog BodySink ε α) : Prog SinkCore ε α := fun c =>
  ((m c.body).1, { c with body := (m c.body).2 })

def nextAttempt {ε : Type} : Prog SinkCore ε SendAttempt := fun c =>
  (.ok (c.script.headD .done), { c with script := c.script.tail })

end SinkCore

namespace AsyncBodySink

variable {BA : Type} [BlockingArbiter BA]

/-- If still Ram at this point, the body needs to be written back. -/
def writeBack (io : SendAttempt) : Prog (AsyncBodySink BA) FutioError Unit := do
  let this ← Prog.get
  if this.core.body.isRam then do
    Adaptor.mark (.operation .writeBack)
    Prog.mapErr .body (Adaptor.onCore (SinkCore.onBody
      (BodySink.writeBack this.core.tune.image.tempDir io.back)))
  else pure ()

/-- Now write the buf. -/
def writeBuf (io : SendAttempt) (buf : Bytes) : Prog (AsyncBodySink BA) FutioError (Option Bytes) := do
  Adaptor.mark (.operation .write)
  match ← Prog.attempt (Adaptor.onCore (SinkCore.onBody (BodySink.writeAll io.write buf))) with
  | .ok () => pure none
  | .error .interrupted => pure (some buf)
  | .error e => Prog.throw (.body (.io e))

/-- `poll_send`, when blocking is allowed. -/
def sendBlocking (buf : Bytes) : Prog (AsyncBodySink BA) FutioError (Option Bytes) := do
  let io ← Adaptor.onCore SinkCore.nextAttempt
  writeBack io
  writeBuf io buf

/-- `poll_send`: if the item is returned, it will be retried later. -/
def pollSend (buf : Bytes) : Prog (AsyncBodySink BA) FutioError (Option Bytes) := do
  if buf.length = 0 then pure none
  else do
    let this ← Prog.get
    let newLen := this.core.body.len + buf.length
    -- Early exit if too long.
    if this.core.tune.image.maxBody < newLen then Prog.throw (.body (.bodyTooLong newLen))
    -- Ram doesn't need blocking permit.
    else if this.core.body.isRam = true ∧ newLen ≤ this.core.tune.image.maxBodyRam then do
      Prog.mapErr (fun e => .body (.io e))
        (Adaptor.onCore (SinkCore.onBody (BodySink.push .done buf)))
      pure none
    else do
      -- Otherwise blocking is required; if it is not allowed, we return the buf.
      if (← Adaptor.canBlock) then sendBlocking buf else pure (some buf)

/-- `poll_flush_impl`. -/
def pollFlushImpl : Prog (AsyncBodySink BA) Empty (Poll (Except FutioError Unit)) := do
  let this ← Prog.get
  match this.core.buf with
  | none => pure (.ready (.ok ()))
  | some buf => do
    Prog.set { this with core := { this.core with buf := none } }
    match ← Prog.attempt (pollSend buf) with
    | .ok none => pure (.ready (.ok ()))
    | .ok (some buf) => do
      let this ← Prog.get
      Prog.set { this with core := { this.core with buf := some buf } }
      pure .pending
    | .error e => pure (.ready (.error e))

def pollReady (_ : Context) : Prog (AsyncBodySink BA) Empty (Poll (Except FutioError Unit)) :=
  pollFlushImpl

def pollFlush (_ : Context) : Prog (AsyncBodySink BA) Empty (Poll (Except FutioError Unit)) :=
  pollFlushImpl

def pollClose (_ : Context) : Prog (AsyncBodySink BA) Empty (Poll (Except FutioError Unit)) :=
  pollFlushImpl

/-- `send`, which is `start_send`. -/
def send (buf : Bytes) : Prog (AsyncBodySink BA) Empty (Except FutioError Unit) := do
  let this ← Prog.get
  Prog.assert this.core.buf.isNone "assertion failed: self.buf.is_none()"
  Prog.set { this with core := { this.core with buf := some buf } }
  pure (.ok ())

/-- `into_inner`. -/
def intoInner (s : AsyncBodySink BA) : BodySink := s.core.body

end AsyncBodySink

/-- The poll routine that the wrappers share. -/
def sinkRoutine : Routine SinkCore (Except FutioError Unit) where
  poll := AsyncBodySink.pollFlushImpl
  opCanceled := .error .opCanceled
  semaphore c := c.tune.blockingSemaphore

/-! ## The wrappers -/

abbrev PermitBodySink := Permitted SinkCore

namespace PermitBodySink

def new (core : SinkCore) : PermitBodySink := ⟨Adaptor.new core, none⟩

def pollFlush (cx : Context) : Prog PermitBodySink Empty (Poll (Except FutioError Unit)) :=
  Permitted.poll sinkRoutine cx

def pollReady (cx : Context) : Prog PermitBodySink Empty (Poll (Except FutioError Unit)) :=
  pollFlush cx

def pollClose (cx : Context) : Prog PermitBodySink Empty (Poll (Except FutioError Unit)) :=
  pollFlush cx

def startSend (buf : Bytes) : Prog PermitBodySink Empty (Except FutioError Unit) :=
  Permitted.onInner (AsyncBodySink.send buf)

def intoInner (s : PermitBodySink) : BodySink := AsyncBodySink.intoInner s.inner

end PermitBodySink

abbrev DispatchBodySink := Dispatching SinkCore (Except FutioError Unit)

namespace DispatchBodySink

def new (core : SinkCore) : DispatchBodySink := .inner (some (Adaptor.new core))

def pollFlush (cx : Context) : Prog DispatchBodySink Empty (Poll (Except FutioError Unit)) :=
  Dispatching.poll sinkRoutine cx

def pollReady (cx : Context) : Prog DispatchBodySink Empty (Poll (Except FutioError Unit)) :=
  pollFlush cx

def pollClose (cx : Context) : Prog DispatchBodySink Empty (Poll (Except FutioError Unit)) :=
  pollFlush cx

def startSend (buf : Bytes) : Prog DispatchBodySink Empty (Except FutioError Unit) := do
  match ← Prog.get with
  | .inner (some ob) => do
    let res ← Prog.onOwn (AsyncBodySink.send buf) ob
    Prog.set (.inner (some (AsyncBodySink.send buf ob).2))
    pure res
  | .inner none => Prog.panic "called `Option::unwrap()` on a `None` value"
  | .dispatch _ => Prog.panic "DispatchBodySink::start_send called while dispatched!"

def intoInner : DispatchBodySink → Res Empty BodySink
  | .inner (some ob) => .ok (AsyncBodySink.intoInner ob)
  | .inner none => .panic "called `Option::unwrap()` on a `None` value"
  | .dispatch _ => .panic "Can't recover inner BodySink from dispatched!"

end DispatchBodySink

/-! ## What comes of a buffer -/

namespace SinkCore

/-- The buffer put aside has to be written, and the body is in a file, or has to be moved there. -/
def wants (c : SinkCore) : Bool :=
  match c.buf with
  | none => false
  | some b => b.length ≠ 0 && c.body.len + b.length ≤ c.tune.image.maxBody &&
      !(c.body.isRam && c.body.len + b.length ≤ c.tune.image.maxBodyRam)

/-- The buffer is written, after the body has been moved to a file. -/
def serveBlocking (c : SinkCore) (b : Bytes) : Res Empty (Except FutioError Unit) × SinkCore :=
  let io := c.script.headD .done
  let after (body : BodySink) : SinkCore := ⟨body, c.tune, none, c.script.tail⟩
  match BodySink.writeBack c.tune.image.tempDir io.back c.body with
  | (.ok (), body) =>
    match BodySink.writeAll io.write b body with
    | (.ok (), body) => (.ok (.ok ()), after body)
    | (.err e, body) => (.ok (.error (.body (.io e))), after body)
    | (.panic msg, body) => (.panic msg, after body)
  | (.err e, body) => (.ok (.error (.body e)), after body)
  | (.panic msg, body) => (.panic msg, after body)

/-- The buffer put aside is sent. -/
def serve (c : SinkCore) : Res Empty (Except FutioError Unit) × SinkCore :=
  match c.buf with
  | none => (.ok (.ok ()), c)
  | some b =>
    if b.length = 0 then (.ok (.ok ()), { c with buf := none })
    else if c.tune.image.maxBody < c.body.len + b.length then
      (.ok (.error (.body (.bodyTooLong (c.body.len + b.length)))), { c with buf := none })
    else if c.body.isRam = true ∧ c.body.len + b.length ≤ c.tune.image.maxBodyRam then
      (.ok (.ok ()), { c with body := (BodySink.push .done b c.body).2, buf := none })
    else c.serveBlocking b

/-- The operations of a buffer that is written: the body is moved first, and if that fails it is
all. -/
def operations (c : SinkCore) : List Operation :=
  if c.body.isRam then
    match (BodySink.writeBack c.tune.image.tempDir (c.script.headD .done).back c.body).1 with
    | .ok () => [.writeBack, .write]
    | _ => [.writeBack]
  else [.write]

/-- No write reports an interrupt: `write_all` goes on after one. -/
def Uninterrupted (c : SinkCore) : Prop :=
  ∀ io ∈ c.script, ∀ k, io.write ≠ .failed k .interrupted

end SinkCore

/-- The service of the sinks. -/
def sinkService : Service SinkCore (Except FutioError Unit) :=
  ⟨SinkCore.wants, SinkCore.serve, SinkCore.operations⟩

/-! `push` and `write_all` do not fail in RAM, and nothing panics. -/

theorem push_ram {s : BodySink} (h : s.isRam = true) (io : OpResult) (b : Bytes) :
    ∃ s', BodySink.push io b s = (.ok (), s') := by
  obtain ⟨state, len⟩ := s
  cases state with
  | ram v =>
    unfold BodySink.push
    by_cases hb : 0 < b.length
    · exact ⟨_, if_pos hb⟩
    · exact ⟨_, if_neg hb⟩
  | fsWrite f => cases h

theorem writeAll_cases (io : OpResult) (b : Bytes) (s : BodySink) :
    (∃ s', BodySink.writeAll io b s = (.ok (), s')) ∨
      ∃ k e s', io = .failed k e ∧ BodySink.writeAll io b s = (.err e, s') := by
  obtain ⟨state, len⟩ := s
  unfold BodySink.writeAll
  by_cases hb : 0 < b.length
  · cases state with
    | ram v => exact .inl ⟨_, if_pos hb⟩
    | fsWrite f =>
      cases io with
      | done => exact .inl ⟨_, if_pos hb⟩
      | failed k e => exact .inr ⟨k, e, _, rfl, if_pos hb⟩
  · exact .inl ⟨_, if_neg hb⟩

theorem writeBack_ends (dir : TempDir) (writes : List OpResult) (s : BodySink) :
    (∃ s', BodySink.writeBack dir writes s = (.ok (), s')) ∨
      ∃ e s', BodySink.writeBack dir writes s = (.err e, s') := by
  obtain ⟨state, len⟩ := s
  cases state with
  | fsWrite f => exact .inl ⟨_, rfl⟩
  | ram v =>
    unfold BodySink.writeBack
    dsimp only
    cases tempfileIn dir with
    | error e => exact .inr ⟨_, _, rfl⟩
    | ok f =>
      dsimp only
      cases BodySink.writeBuffers writes v f with
      | error e => exact .inr ⟨_, _, rfl⟩
      | ok g => exact .inl ⟨_, rfl⟩

theorem writeBack_file {s : BodySink} (h : s.isRam = false) (dir : TempDir)
    (writes : List OpResult) : BodySink.writeBack dir writes s = (.ok (), s) := by
  obtain ⟨state, len⟩ := s
  cases state with
  | ram v => cases h
  | fsWrite f => rfl

section Meets

variable {BA : Type}

/-- The write of a buffer that is not interrupted. -/
theorem writeBuf_run {io : SendAttempt} (hio : ∀ k, io.write ≠ .failed k .interrupted) (b : Bytes)
    (s : AsyncBodySink BA) :
    (∃ body, BodySink.writeAll io.write b s.core.body = (.ok (), body) ∧
      AsyncBodySink.writeBuf io b s =
        (.ok none, ⟨{ s.core with body := body }, s.arbiter, s.marks ++ [.operation .write]⟩)) ∨
    ∃ e body, BodySink.writeAll io.write b s.core.body = (.err e, body) ∧
      AsyncBodySink.writeBuf io b s =
        (.err (.body (.io e)),
          ⟨{ s.core with body := body }, s.arbiter, s.marks ++ [.operation .write]⟩) := by
  have hmark : (Adaptor.mark (.operation .write) : Prog (AsyncBodySink BA) FutioError Unit) s =
      (.ok (), { s with marks := s.marks ++ [.operation .write] }) := rfl
  unfold AsyncBodySink.writeBuf
  rw [Prog.bind_of_ok hmark]
  rcases writeAll_cases io.write b s.core.body with ⟨body, hw⟩ | ⟨k, e, body, hk, hw⟩
  · refine .inl ⟨body, hw, ?_⟩
    have hon : (Adaptor.onCore (SinkCore.onBody (BodySink.writeAll io.write b)) :
        Prog (AsyncBodySink BA) IoError Unit) { s with marks := s.marks ++ [.operation .write] } =
          (.ok (), ⟨{ s.core with body := body }, s.arbiter, s.marks ++ [.operation .write]⟩) := by
      simp only [Adaptor.onCore, SinkCore.onBody, hw]
    rw [Prog.bind_of_ok (Prog.attempt_of_ok hon)]
    rfl
  · refine .inr ⟨e, body, hw, ?_⟩
    have hon : (Adaptor.onCore (SinkCore.onBody (BodySink.writeAll io.write b)) :
        Prog (AsyncBodySink BA) IoError Unit) { s with marks := s.marks ++ [.operation .write] } =
          (.err e, ⟨{ s.core with body := body }, s.arbiter, s.marks ++ [.operation .write]⟩) := by
      simp only [Adaptor.onCore, SinkCore.onBody, hw]
    rw [Prog.bind_of_ok (Prog.attempt_of_err hon)]
    cases e with
    | interrupted => exact absurd hk (hio k)
    | _ => rfl

/-- A write-back, if there is one to do, and the write after it. -/
theorem sendBlocking_run {s : AsyncBodySink BA} (hbuf : s.core.buf = none)
    (hio : s.core.Uninterrupted) (b : Bytes) :
    (∃ c', s.core.serveBlocking b = (.ok (.ok ()), c') ∧
      AsyncBodySink.sendBlocking b s =
        (.ok none, ⟨c', s.arbiter, s.marks ++ s.core.operations.map .operation⟩)) ∨
    ∃ e c', s.core.serveBlocking b = (.ok (.error e), c') ∧
      AsyncBodySink.sendBlocking b s =
        (.err e, ⟨c', s.arbiter, s.marks ++ s.core.operations.map .operation⟩) := by
  obtain ⟨⟨body, tune, buf, script⟩, arbiter, marks⟩ := s
  simp only at hbuf hio
  subst hbuf
  have hwrite : ∀ k, (script.headD .done).write ≠ .failed k .interrupted := by
    intro k hk
    cases script with
    | nil => cases hk
    | cons io script => exact hio io List.mem_cons_self k hk
  have hnext : (Adaptor.onCore SinkCore.nextAttempt : Prog (AsyncBodySink BA) FutioError SendAttempt)
      ⟨⟨body, tune, none, script⟩, arbiter, marks⟩ =
        (.ok (script.headD .done), ⟨⟨body, tune, none, script.tail⟩, arbiter, marks⟩) := rfl
  unfold SinkCore.serveBlocking SinkCore.operations AsyncBodySink.sendBlocking
  rw [Prog.bind_of_ok hnext]
  dsimp only
  generalize script.headD .done = io at hwrite
  cases hram : body.isRam with
  | false =>
    have hback : AsyncBodySink.writeBack io
        (⟨⟨body, tune, none, script.tail⟩, arbiter, marks⟩ : AsyncBodySink BA) =
          (.ok (), ⟨⟨body, tune, none, script.tail⟩, arbiter, marks⟩) := by
      unfold AsyncBodySink.writeBack
      rw [Prog.get_bind]
      dsimp only
      rw [hram]
      rfl
    rw [Prog.bind_of_ok hback, writeBack_file hram]
    rcases writeBuf_run hwrite b
      (⟨⟨body, tune, none, script.tail⟩, arbiter, marks⟩ : AsyncBodySink BA) with
        ⟨body', hw, hrun⟩ | ⟨e, body', hw, hrun⟩ <;> simp only at hw <;> simp only [hw, hrun]
    · exact .inl ⟨_, rfl, rfl⟩
    · exact .inr ⟨_, _, rfl, rfl⟩
  | true =>
    have hback : AsyncBodySink.writeBack io
        (⟨⟨body, tune, none, script.tail⟩, arbiter, marks⟩ : AsyncBodySink BA) =
          Prog.mapErr .body (Adaptor.onCore (SinkCore.onBody
            (BodySink.writeBack tune.image.tempDir io.back)))
              (⟨⟨body, tune, none, script.tail⟩, arbiter, marks ++ [.operation .writeBack]⟩ :
                AsyncBodySink BA) := by
      unfold AsyncBodySink.writeBack
      rw [Prog.get_bind]
      dsimp only
      rw [hram]
      rfl
    rcases writeBack_ends tune.image.tempDir io.back body with ⟨body₁, hb⟩ | ⟨e, body₁, hb⟩
    · have hdone : AsyncBodySink.writeBack io
          (⟨⟨body, tune, none, script.tail⟩, arbiter, marks⟩ : AsyncBodySink BA) =
            (.ok (), ⟨⟨body₁, tune, none, script.tail⟩, arbiter,
              marks ++ [.operation .writeBack]⟩) := by
        rw [hback]
        refine Prog.mapErr_of_ok ?_
        simp only [Adaptor.onCore, SinkCore.onBody, hb]
      rw [Prog.bind_of_ok hdone, hb]
      rcases writeBuf_run hwrite b (⟨⟨body₁, tune, none, script.tail⟩, arbiter,
        marks ++ [.operation .writeBack]⟩ : AsyncBodySink BA) with
          ⟨body', hw, hrun⟩ | ⟨e, body', hw, hrun⟩ <;> simp only at hw <;>
        simp only [hw, hrun, List.append_assoc]
      · exact .inl ⟨_, rfl, rfl⟩
      · exact .inr ⟨_, _, rfl, rfl⟩
    · have hfail : AsyncBodySink.writeBack io
          (⟨⟨body, tune, none, script.tail⟩, arbiter, marks⟩ : AsyncBodySink BA) =
            (.err (.body e), ⟨⟨body₁, tune, none, script.tail⟩, arbiter,
              marks ++ [.operation .writeBack]⟩) := by
        rw [hback]
        refine Prog.mapErr_of_err ?_
        simp only [Adaptor.onCore, SinkCore.onBody, hb]
      rw [Prog.bind_of_err hfail, hb]
      exact .inr ⟨_, _, rfl, rfl⟩

variable [BlockingArbiter BA]

/-- A poll with a buffer, from how it is sent. -/
theorem pollFlushImpl_of_ok {s s' : AsyncBodySink BA} {b : Bytes} (hbuf : s.core.buf = some b)
    (h : AsyncBodySink.pollSend b ({ s with core := { s.core with buf := none } } : AsyncBodySink BA) =
      (.ok none, s')) : AsyncBodySink.pollFlushImpl s = (.ok (.ready (.ok ())), s') := by
  unfold AsyncBodySink.pollFlushImpl
  rw [Prog.get_bind, hbuf]
  dsimp only
  rw [Prog.set_bind, Prog.bind_of_ok (Prog.attempt_of_ok h)]
  rfl

theorem pollFlushImpl_of_err {s s' : AsyncBodySink BA} {b : Bytes} {e : FutioError}
    (hbuf : s.core.buf = some b)
    (h : AsyncBodySink.pollSend b ({ s with core := { s.core with buf := none } } : AsyncBodySink BA) =
      (.err e, s')) : AsyncBodySink.pollFlushImpl s = (.ok (.ready (.error e)), s') := by
  unfold AsyncBodySink.pollFlushImpl
  rw [Prog.get_bind, hbuf]
  dsimp only
  rw [Prog.set_bind, Prog.bind_of_ok (Prog.attempt_of_err h)]
  rfl

theorem pollFlushImpl_of_back {s s' : AsyncBodySink BA} {b : Bytes} (hbuf : s.core.buf = some b)
    (h : AsyncBodySink.pollSend b ({ s with core := { s.core with buf := none } } : AsyncBodySink BA) =
      (.ok (some b), s')) :
    AsyncBodySink.pollFlushImpl s =
      (.ok .pending, { s' with core := { s'.core with buf := some b } }) := by
  unfold AsyncBodySink.pollFlushImpl
  rw [Prog.get_bind, hbuf]
  dsimp only
  rw [Prog.set_bind, Prog.bind_of_ok (Prog.attempt_of_ok h)]
  rfl

/-- `poll_send`, after the checks that come before blocking. -/
theorem pollSend_blocking {s : AsyncBodySink BA} {b : Bytes} (hb : b.length ≠ 0)
    (hmax : s.core.body.len + b.length ≤ s.core.tune.image.maxBody)
    (hram : ¬ (s.core.body.isRam = true ∧
      s.core.body.len + b.length ≤ s.core.tune.image.maxBodyRam)) :
    AsyncBodySink.pollSend b s =
      if (BlockingArbiter.canBlock s.arbiter).1 then
        AsyncBodySink.sendBlocking b { s with arbiter := (BlockingArbiter.canBlock s.arbiter).2 }
      else (.ok (some b), { s with arbiter := (BlockingArbiter.canBlock s.arbiter).2 }) := by
  have hcan : (Adaptor.canBlock : Prog (AsyncBodySink BA) FutioError Bool) s =
      (.ok (BlockingArbiter.canBlock s.arbiter).1,
        { s with arbiter := (BlockingArbiter.canBlock s.arbiter).2 }) := rfl
  unfold AsyncBodySink.pollSend
  rw [if_neg hb, Prog.get_bind, if_neg (Nat.not_lt.mpr hmax), if_neg hram, Prog.bind_of_ok hcan]
  cases (BlockingArbiter.canBlock s.arbiter).1 <;> rfl

/-- What is wanted of a buffer that has to be written. -/
theorem SinkCore.wants_eq_true {c : SinkCore} (h : c.wants = true) :
    ∃ b, c.buf = some b ∧ b.length ≠ 0 ∧ c.body.len + b.length ≤ c.tune.image.maxBody ∧
      ¬ (c.body.isRam = true ∧ c.body.len + b.length ≤ c.tune.image.maxBodyRam) := by
  unfold SinkCore.wants at h
  cases hbuf : c.buf with
  | none =>
    rw [hbuf] at h
    cases h
  | some b =>
    rw [hbuf] at h
    simp only [Bool.and_eq_true, decide_eq_true_eq, Bool.not_eq_true', Bool.and_eq_false_iff,
      decide_eq_false_iff_not] at h
    obtain ⟨⟨hb, hmax⟩, hram⟩ := h
    refine ⟨b, rfl, hb, hmax, ?_⟩
    rintro ⟨hr, hle⟩
    rcases hram with hram | hram
    · rw [hr] at hram
      cases hram
    · exact hram hle

theorem SinkCore.serve_eq_blocking {c : SinkCore} {b : Bytes} (hbuf : c.buf = some b)
    (hb : b.length ≠ 0) (hmax : c.body.len + b.length ≤ c.tune.image.maxBody)
    (hram : ¬ (c.body.isRam = true ∧ c.body.len + b.length ≤ c.tune.image.maxBodyRam)) :
    c.serve = c.serveBlocking b := by
  unfold SinkCore.serve
  rw [hbuf]
  dsimp only
  rw [if_neg hb, if_neg (Nat.not_lt.mpr hmax), if_neg hram]

/-- A poll that need not block. -/
theorem pollFlushImpl_now {s : AsyncBodySink BA} (hwants : s.core.wants = false) :
    AsyncBodySink.pollFlushImpl s =
      (s.core.serve.1.polled, { s with core := s.core.serve.2 }) := by
  obtain ⟨⟨body, tune, buf, script⟩, arbiter, marks⟩ := s
  cases buf with
  | none => rfl
  | some b =>
    unfold SinkCore.serve
    dsimp only
    by_cases hb : b.length = 0
    · rw [if_pos hb]
      refine pollFlushImpl_of_ok rfl ?_
      unfold AsyncBodySink.pollSend
      rw [if_pos hb]
      rfl
    rw [if_neg hb]
    by_cases hmax : tune.image.maxBody < body.len + b.length
    · rw [if_pos hmax]
      refine pollFlushImpl_of_err rfl ?_
      unfold AsyncBodySink.pollSend
      rw [if_neg hb, Prog.get_bind]
      dsimp only
      rw [if_pos hmax]
      rfl
    rw [if_neg hmax]
    by_cases hram : body.isRam = true ∧ body.len + b.length ≤ tune.image.maxBodyRam
    · rw [if_pos hram]
      refine pollFlushImpl_of_ok rfl ?_
      unfold AsyncBodySink.pollSend
      rw [if_neg hb, Prog.get_bind]
      dsimp only
      rw [if_neg hmax, if_pos hram]
      obtain ⟨body', hpush⟩ := push_ram hram.1 .done b
      have hon : (Adaptor.onCore (SinkCore.onBody (BodySink.push .done b)) :
          Prog (AsyncBodySink BA) IoError Unit) ⟨⟨body, tune, none, script⟩, arbiter, marks⟩ =
            (.ok (), ⟨⟨body', tune, none, script⟩, arbiter, marks⟩) := by
        simp only [Adaptor.onCore, SinkCore.onBody, hpush]
      rw [Prog.bind_of_ok (Prog.mapErr_of_ok hon), hpush]
      rfl
    · -- What is left would have to be written.
      exfalso
      unfold SinkCore.wants at hwants
      simp only [Bool.and_eq_false_iff, decide_eq_false_iff_not, Bool.not_eq_false',
        Bool.and_eq_true, decide_eq_true_eq] at hwants
      rcases hwants with (hwants | hwants) | hwants
      · exact hwants hb
      · omega
      · exact hram hwants

/-- **The poll routine of the sinks** blocks where its service wants to, and once for a buffer. -/
theorem sinkRoutine_meets {good : SinkCore → List Mark → Prop}
    (hgood : ∀ {c ms}, good c ms → c.Uninterrupted)
    (hnow : ∀ {c ms}, good c ms → c.wants = false → good c.serve.2 ms)
    (hblock : ∀ {c ms}, good c ms → c.wants = true → good c.serve.2 (ms ++ span c.operations)) :
    sinkRoutine.Meets sinkService good where
  now _ hwants := pollFlushImpl_now hwants
  wait := by
    intro BA _ s a hwants hcan
    obtain ⟨b, hbuf, hb, hmax, hram⟩ := SinkCore.wants_eq_true hwants
    have hsend := @pollSend_blocking BA _ { s with core := { s.core with buf := none } } b hb hmax hram
    rw [hcan] at hsend
    have hback := pollFlushImpl_of_back hbuf hsend
    show AsyncBodySink.pollFlushImpl s = _
    rw [hback, ← hbuf]
  block := by
    intro BA _ s a ms hg hwants hcan
    obtain ⟨b, hbuf, hb, hmax, hram⟩ := SinkCore.wants_eq_true hwants
    have hsend := @pollSend_blocking BA _ { s with core := { s.core with buf := none } } b hb hmax hram
    rw [hcan] at hsend
    show AsyncBodySink.pollFlushImpl s = ((s.core.serve).1.polled,
      ⟨(s.core.serve).2, a, s.marks ++ s.core.operations.map .operation⟩)
    rw [SinkCore.serve_eq_blocking hbuf hb hmax hram]
    have hio := hgood hg
    rcases @sendBlocking_run BA ⟨{ s.core with buf := none }, a, s.marks⟩ rfl hio b with
      ⟨c', hserve, hrun⟩ | ⟨e, c', hserve, hrun⟩
    · have hpoll := pollFlushImpl_of_ok hbuf (hsend.trans hrun)
      have hserve' : s.core.serveBlocking b = (.ok (.ok ()), c') := hserve
      rw [hpoll, hserve']
      rfl
    · have hpoll := pollFlushImpl_of_err hbuf (hsend.trans hrun)
      have hserve' : s.core.serveBlocking b = (.ok (.error e), c') := hserve
      rw [hpoll, hserve']
      rfl
  good_now := hnow
  good_block := hblock

end Meets

end BodyArchive
