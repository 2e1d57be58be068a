import BodyArchive.Futio.Sink

/-!
# Sessions with a sink

A session is what a caller does with a sink under the `Sink` protocol: polls of any kind, with
whatever answers the futures give, and buffers, each after a `poll_ready` that returned `Ready`. All
three sinks end a session in the same way (`sinks_lose_nothing`): they hold what they started with
and the buffers after it, or the error is of the first buffer that is too much.
-/

namespace BodyArchive

/-- `SinkWrapper`, with the methods of `Sink`, and the work that is done on other threads. -/
structure SinkWrapper (S : Type) where
  new : SinkCore → S
  pollReady : Context → Prog S Empty (Poll (Except FutioError Unit))
  pollFlush : Context → Prog S Empty (Poll (Except FutioError Unit))
  pollClose : Context → Prog S Empty (Poll (Except FutioError Unit))
  startSend : Bytes → Prog S Empty (Except FutioError Unit)
  intoInner : S → Res Empty BodySink
  work : S → S

def asyncBodySink : SinkWrapper (AsyncBodySink LenientArbiter) where
  new := Adaptor.new
  pollReady := AsyncBodySink.pollReady
  pollFlush := AsyncBodySink.pollFlush
  pollClose := AsyncBodySink.pollClose
  startSend := AsyncBodySink.send
  intoInner s := .ok s.intoInner
  work := id

def permitBodySink : SinkWrapper PermitBodySink where
  new := PermitBodySink.new
  pollReady := PermitBodySink.pollReady
  pollFlush := PermitBodySink.pollFlush
  pollClose := PermitBodySink.pollClose
  startSend := PermitBodySink.startSend
  intoInner s := .ok s.intoInner
  work := id

def dispatchBodySink : SinkWrapper DispatchBodySink where
  new := DispatchBodySink.new
  pollReady := DispatchBodySink.pollReady
  pollFlush := DispatchBodySink.pollFlush
  pollClose := DispatchBodySink.pollClose
  startSend := DispatchBodySink.startSend
  intoInner := DispatchBodySink.intoInner
  work := Dispatching.work sinkRoutine

/-- The calls that poll a sink. -/
inductive SinkCall where
  | ready
  | flush
  | close
  deriving DecidableEq, Repr

namespace SinkWrapper

variable {S : Type} (w : SinkWrapper S)

def poll : SinkCall → Context → Prog S Empty (Poll (Except FutioError Unit))
  | .ready => w.pollReady
  | .flush => w.pollFlush
  | .close => w.pollClose

/-- A session so far: whether a buffer may be sent now, the buffers sent, and the sink. No call has
returned an error. -/
inductive Session (s₀ : S) : Bool → List Bytes → S → Prop
  | new : Session s₀ false [] s₀
  | poll {clear : Bool} {sent : List Bytes} {s s' : S} {p : Poll (Except FutioError Unit)}
      (h : Session s₀ clear sent s) (call : SinkCall) (cx : Context) (hcx : cx.Allowed)
      (hpoll : w.poll call cx s = (.ok p, s')) (hp : p = .pending ∨ p = .ready (.ok ())) :
      Session s₀ (if call = .ready then p = .ready (.ok ()) else clear) sent s'
  | send {sent : List Bytes} {s s' : S} (h : Session s₀ true sent s) (b : Bytes)
      (hsend : w.startSend b s = (.ok (.ok ()), s')) : Session s₀ false (sent ++ [b]) s'
  | work {clear : Bool} {sent : List Bytes} {s : S} (h : Session s₀ clear sent s) :
      Session s₀ clear sent (w.work s)

end SinkWrapper

/-- All blocking operations go well. -/
def FutioTunables.Calm (tune : FutioTunables) (script : List SendAttempt) : Prop :=
  tune.image.TempOk ∧ script = []

namespace BodySink

/-- A sink that is within the limits. -/
def Within (s : BodySink) (tune : Tunables) : Prop :=
  s.len ≤ tune.maxBody ∧ (s.isRam = true → s.len ≤ tune.maxBodyRam)

/-- The sink holds what it held at the start, and then some buffers; one that was in RAM still is
exactly if its length allows it. -/
structure Extends (s : BodySink) (tune : Tunables) (start : BodySink) (bufs : List Bytes) : Prop where
  held_eq : s.held = start.held ++ bufs.flatten
  len_eq : s.len = start.len + bufs.flatten.length
  ram_iff : start.isRam = true → (s.isRam = true ↔ s.len ≤ tune.maxBodyRam)
  file : start.isRam = false → s.isRam = false

theorem extends_start {tune : Tunables} {start : BodySink} (h : start.Within tune) :
    start.Extends tune start [] where
  held_eq := by rw [List.flatten_nil, List.append_nil]
  len_eq := rfl
  ram_iff hram := ⟨fun _ => h.2 hram, fun _ => hram⟩
  file h := h

/-- A successful push adds the buffer, and stays where the sink is. -/
theorem push_held {s s' : BodySink} {b : Bytes} (h : push .done b s = (.ok (), s')) :
    s'.held = s.held ++ b ∧ s'.len = s.len + b.length ∧ s'.isRam = s.isRam := by
  obtain ⟨state, len⟩ := s
  unfold push at h
  by_cases hb : 0 < b.length
  · cases state <;> simp only [if_pos hb] at h <;> cases h
    · exact ⟨by simp [held], rfl, rfl⟩
    · exact ⟨rfl, rfl, rfl⟩
  · have hnil : b = [] := List.eq_nil_of_length_eq_zero (by omega)
    cases state <;> simp only [if_neg hb] at h <;> cases h <;>
      exact ⟨by rw [hnil, List.append_nil], by rw [hnil]; rfl, rfl⟩

theorem writeAll_held {s s' : BodySink} {io : OpResult} {b : Bytes} (hs : s.isRam = false)
    (h : writeAll io b s = (.ok (), s')) :
    s'.held = s.held ++ b ∧ s'.len = s.len + b.length ∧ s'.isRam = s.isRam := by
  rw [writeAll_eq_push] at h
  cases io with
  | done => exact push_held h
  | failed k e =>
    obtain ⟨state, len⟩ := s
    cases state with
    | ram v => cases hs
    | fsWrite f =>
      unfold push at h
      by_cases hb : 0 < b.length
      · simp only [if_pos hb] at h
        cases h
      · simp only [if_neg hb] at h
        cases h
        have hnil : b = [] := List.eq_nil_of_length_eq_zero (by omega)
        exact ⟨by rw [hnil, List.append_nil], by rw [hnil]; rfl, rfl⟩

/-- A successful write-back moves what is held to a file. -/
theorem writeBack_held {s s' : BodySink} {dir : TempDir} {writes : List OpResult}
    (h : writeBack dir writes s = (.ok (), s')) :
    s'.held = s.held ∧ s'.len = s.len ∧ s'.isRam = false := by
  obtain ⟨state, len⟩ := s
  cases state with
  | fsWrite f =>
    cases h
    exact ⟨rfl, rfl, rfl⟩
  | ram v =>
    unfold writeBack at h
    dsimp only at h
    cases hd : tempfileIn dir with
    | error e =>
      rw [hd] at h
      cases h
    | ok f =>
      rw [hd] at h
      dsimp only at h
      cases hw : writeBuffers writes v f with
      | error e =>
        rw [hw] at h
        cases h
      | ok g =>
        rw [hw] at h
        cases h
        refine ⟨?_, rfl, rfl⟩
        show g.content = v.flatten
        rw [writeBuffers_ok hw, File.extend, (tempfileIn_own hd).2, List.nil_append]

end BodySink

namespace SinkCore

variable {tune : FutioTunables} {script : List SendAttempt} {start : BodySink}

/-- What a session leaves: the buffers before the one that is put aside are in the body. -/
structure Holds (start : BodySink) (tune : FutioTunables) (script : List SendAttempt) (clear : Bool)
    (sent : List Bytes) (c : SinkCore) : Prop where
  tune_eq : c.tune = tune
  calm : tune.Calm script → c.script = []
  uninterrupted : c.Uninterrupted
  empty : clear = true → c.buf = none
  all : c.buf = none → c.body.Extends tune.image start sent ∧ c.body.len ≤ tune.image.maxBody
  before : ∀ b, c.buf = some b → ∃ pre, sent = pre ++ [b] ∧
    c.body.Extends tune.image start pre ∧ c.body.len ≤ tune.image.maxBody

/-- Only what a script starts with is used up, and the tunables stay. -/
theorem serve_keeps (c : SinkCore) : c.serve.2.tune = c.tune ∧
    (c.serve.2.script = c.script ∨ c.serve.2.script = c.script.tail) := by
  obtain ⟨body, tune, buf, script⟩ := c
  cases buf with
  | none => exact ⟨rfl, .inl rfl⟩
  | some b =>
    unfold serve
    dsimp only
    split
    · exact ⟨rfl, .inl rfl⟩
    split
    · exact ⟨rfl, .inl rfl⟩
    split
    · exact ⟨rfl, .inl rfl⟩
    unfold serveBlocking
    dsimp only
    split
    · split <;> exact ⟨rfl, .inr rfl⟩
    · exact ⟨rfl, .inr rfl⟩
    · exact ⟨rfl, .inr rfl⟩

theorem serve_uninterrupted {c : SinkCore} (h : c.Uninterrupted) : c.serve.2.Uninterrupted := by
  intro io hio
  rcases (serve_keeps c).2 with hs | hs <;> rw [hs] at hio
  · exact h io hio
  · exact h io (List.mem_of_mem_tail hio)

/-- A sink grows by a buffer that was added to it. -/
theorem extends_snoc {s s' : BodySink} {tune : Tunables} {pre : List Bytes} {b : Bytes}
    (h : s.Extends tune start pre) (hheld : s'.held = s.held ++ b)
    (hlen : s'.len = s.len + b.length)
    (hram : start.isRam = true → (s'.isRam = true ↔ s'.len ≤ tune.maxBodyRam))
    (hfile : start.isRam = false → s'.isRam = false) : s'.Extends tune start (pre ++ [b]) where
  held_eq := by
    rw [hheld, h.held_eq, List.flatten_append, List.flatten_singleton, List.append_assoc]
  len_eq := by
    rw [hlen, h.len_eq, List.flatten_append, List.flatten_singleton, List.length_append,
      Nat.add_assoc]
  ram_iff := hram
  file := hfile

/-- A buffer that is written, from RAM only if there is no room for it there. -/
theorem serveBlocking_cases {c : SinkCore} {pre : List Bytes} {b : Bytes}
    (h : c.body.Extends c.tune.image start pre)
    (hroom : ¬ (c.body.isRam = true ∧ c.body.len + b.length ≤ c.tune.image.maxBodyRam)) :
    (∃ c', c.serveBlocking b = (.ok (.ok ()), c') ∧ c'.buf = none ∧
      c'.body.len = c.body.len + b.length ∧ c'.body.Extends c.tune.image start (pre ++ [b])) ∨
    ∃ e c', c.serveBlocking b = (.ok (.error (.body (.io e))), c') ∧ ¬ c.tune.Calm c.script := by
  obtain ⟨body, tune, buf, script⟩ := c
  simp only at h hroom
  unfold serveBlocking
  dsimp only
  rcases writeBack_ends tune.image.tempDir (script.headD .done).back body with
    ⟨body₁, hback⟩ | ⟨e, body₁, hback⟩
  · obtain ⟨hheld, hlen, hfile⟩ := BodySink.writeBack_held hback
    rw [hback]
    dsimp only
    rcases writeAll_cases (script.headD .done).write b body₁ with ⟨body₂, hw⟩ | ⟨k, e, body₂, hk, hw⟩
    · obtain ⟨hheld₂, hlen₂, hram₂⟩ := BodySink.writeAll_held hfile hw
      rw [hw]
      refine .inl ⟨_, rfl, rfl, by rw [hlen₂, hlen], ?_⟩
      rw [hheld] at hheld₂
      rw [hlen] at hlen₂
      rw [hfile] at hram₂
      refine extends_snoc h hheld₂ hlen₂ (fun hstart => ?_) fun _ => hram₂
      -- The body is in a file now, and is too long for RAM.
      have hiff := h.ram_iff hstart
      rw [hram₂]
      simp only [Bool.false_eq_true, false_iff, Nat.not_le]
      by_cases hr : body.isRam = true
      · have hnot : ¬ body.len + b.length ≤ tune.image.maxBodyRam := fun hle => hroom ⟨hr, hle⟩
        omega
      · have hnot : ¬ body.len ≤ tune.image.maxBodyRam := fun hle => hr (hiff.mpr hle)
        omega
    · rw [hw]
      refine .inr ⟨e, _, rfl, ?_⟩
      rintro ⟨-, hs⟩
      rw [hs] at hk
      cases hk
  · rw [hback]
    obtain ⟨state, len⟩ := body
    cases state with
    | fsWrite f => cases hback
    | ram v =>
      unfold BodySink.writeBack at hback
      dsimp only at hback
      cases hd : tempfileIn tune.image.tempDir with
      | error e' =>
        rw [hd] at hback
        cases hback
        refine .inr ⟨e', _, rfl, ?_⟩
        rintro ⟨⟨env, henv⟩, -⟩
        rw [henv] at hd
        cases hd
      | ok f =>
        rw [hd] at hback
        dsimp only at hback
        cases hw : BodySink.writeBuffers (script.headD .done).back v f with
        | error e' =>
          rw [hw] at hback
          cases hback
          refine .inr ⟨e', _, rfl, ?_⟩
          rintro ⟨-, hs⟩
          obtain ⟨g, hg⟩ := BodySink.writeBuffers_done v f
          rw [hs] at hw
          rw [show (([] : List SendAttempt).headD .done).back = [] from rfl, hg] at hw
          cases hw
        | ok g =>
          rw [hw] at hback
          cases hback

/-- The service takes a buffer that is within the limits, unless a file fails. -/
theorem serve_fits {c : SinkCore} {clear : Bool} {sent : List Bytes}
    (h : c.Holds start tune script clear sent)
    (hfits : start.len + sent.flatten.length ≤ tune.image.maxBody) :
    (∃ c', c.serve = (.ok (.ok ()), c') ∧ c'.buf = none ∧ c'.Holds start tune script true sent) ∨
    ∃ e c', c.serve = (.ok (.error (.body (.io e))), c') ∧ ¬ tune.Calm script := by
  have hkeeps := c.serve_keeps
  have hio := serve_uninterrupted h.uninterrupted
  have hcalm : tune.Calm script → c.serve.2.script = [] := by
    intro hc
    have hnil := h.calm hc
    rcases hkeeps.2 with hs | hs <;> rw [hs, hnil]
    rfl
  cases hbuf : c.buf with
  | none =>
    have hserve : c.serve = (.ok (.ok ()), c) := by
      unfold serve
      rw [hbuf]
    exact .inl ⟨c, hserve, hbuf, h.tune_eq, h.calm, h.uninterrupted, fun _ => hbuf, h.all, h.before⟩
  | some b =>
    obtain ⟨pre, rfl, hext, hmax⟩ := h.before b hbuf
    have htune := h.tune_eq
    have hlen : c.body.len + b.length = start.len + (pre ++ [b]).flatten.length := by
      rw [hext.len_eq, List.flatten_append, List.flatten_singleton, List.length_append,
        Nat.add_assoc]
    -- Whatever becomes of the buffer, this is what is left.
    have hdone {c' : SinkCore} (hserve : c.serve = (.ok (.ok ()), c')) (hnone : c'.buf = none)
        (hbody : c'.body.Extends tune.image start (pre ++ [b]))
        (hle : c'.body.len ≤ tune.image.maxBody) :
        ∃ c', c.serve = (.ok (.ok ()), c') ∧ c'.buf = none ∧
          c'.Holds start tune script true (pre ++ [b]) := by
      rw [hserve] at hkeeps hio hcalm
      refine ⟨c', hserve, hnone, hkeeps.1.trans htune, hcalm, hio, fun _ => hnone,
        fun _ => ⟨hbody, hle⟩, ?_⟩
      intro b' hb'
      rw [hnone] at hb'
      cases hb'
    have hfit : ¬ c.tune.image.maxBody < c.body.len + b.length := by
      rw [htune]
      omega
    unfold serve at hdone ⊢
    rw [hbuf] at hdone ⊢
    dsimp only at hdone ⊢
    by_cases hb : b.length = 0
    · have hnil : b = [] := List.eq_nil_of_length_eq_zero hb
      rw [if_pos hb] at hdone ⊢
      refine .inl (hdone rfl rfl ?_ hmax)
      exact extends_snoc hext (by rw [hnil, List.append_nil]) (by rw [hb]; rfl) hext.ram_iff hext.file
    rw [if_neg hb, if_neg hfit] at hdone ⊢
    by_cases hram : c.body.isRam = true ∧ c.body.len + b.length ≤ c.tune.image.maxBodyRam
    · rw [if_pos hram] at hdone ⊢
      obtain ⟨body', hpush⟩ := push_ram hram.1 .done b
      obtain ⟨hheld, hlen', hram'⟩ := BodySink.push_held hpush
      rw [hpush] at hdone ⊢
      refine .inl (hdone rfl rfl ?_ ?_)
      · refine extends_snoc hext hheld hlen' (fun _ => ?_) fun hstart => ?_
        · rw [hram', hlen']
          rw [htune] at hram
          exact ⟨fun _ => hram.2, fun _ => hram.1⟩
        · rw [hram']
          exact hext.file hstart
      · show body'.len ≤ tune.image.maxBody
        omega
    · rw [if_neg hram] at hdone ⊢
      have hext' : c.body.Extends c.tune.image start pre := by
        rw [htune]
        exact hext
      rcases serveBlocking_cases hext' hram with ⟨c', hserve, hnone, hlen', hbody⟩ | ⟨e, c', hserve, hbad⟩
      · rw [htune] at hbody
        exact .inl (hdone hserve hnone hbody (by omega))
      · refine .inr ⟨e, c', hserve, ?_⟩
        intro hc
        rw [htune, h.calm hc] at hbad
        exact hbad ⟨hc.1, rfl⟩

/-- The service refuses a buffer that is too much, and the body stays as it was. -/
theorem serve_exceeds {c : SinkCore} {clear : Bool} {sent : List Bytes}
    (h : c.Holds start tune script clear sent)
    (hover : tune.image.maxBody < start.len + sent.flatten.length) :
    c.wants = false ∧ ∃ pre b, sent = pre ++ [b] ∧
      start.len + pre.flatten.length ≤ tune.image.maxBody ∧
      c.body.Extends tune.image start pre ∧
      c.serve = (.ok (.error (.body (.bodyTooLong (start.len + sent.flatten.length)))),
        { c with buf := none }) := by
  cases hbuf : c.buf with
  | none =>
    obtain ⟨hext, hmax⟩ := h.all hbuf
    have hlen := hext.len_eq
    omega
  | some b =>
    obtain ⟨pre, rfl, hext, hmax⟩ := h.before b hbuf
    have hlen : c.body.len + b.length = start.len + (pre ++ [b]).flatten.length := by
      rw [hext.len_eq, List.flatten_append, List.flatten_singleton, List.length_append,
        Nat.add_assoc]
    have hlong : c.tune.image.maxBody < c.body.len + b.length := by
      rw [h.tune_eq]
      omega
    have hb : b.length ≠ 0 := by
      intro hz
      rw [h.tune_eq] at hlong
      omega
    refine ⟨?_, pre, b, rfl, by rw [← hext.len_eq]; exact hmax, hext, ?_⟩
    · unfold wants
      rw [hbuf]
      dsimp only
      rw [decide_eq_false (Nat.not_le.mpr hlong), Bool.and_false, Bool.false_and]
    · unfold serve
      rw [hbuf]
      dsimp only
      rw [if_neg hb, if_pos hlong, hlen]

/-- The service never panics. -/
theorem serve_no_panic (c : SinkCore) (msg : String) (c' : SinkCore) : c.serve ≠ (.panic msg, c') := by
  intro h
  unfold serve at h
  split at h
  · cases h
  · split at h
    · cases h
    split at h
    · cases h
    split at h
    · cases h
    unfold serveBlocking at h
    dsimp only at h
    rcases writeBack_ends c.tune.image.tempDir (c.script.headD .done).back c.body with
      ⟨body, hb⟩ | ⟨e, body, hb⟩ <;> rw [hb] at h <;> dsimp only at h
    · next b _ _ _ _ =>
      rcases writeAll_cases (c.script.headD .done).write b body with
        ⟨body', hw⟩ | ⟨k, e, body', -, hw⟩ <;> rw [hw] at h <;> cases h
    · cases h

/-- A service without a buffer that has to be written is left at one. -/
theorem serve_wants {c : SinkCore} (h : c.buf = none) : c.wants = false := by
  unfold wants
  rw [h]

end SinkCore

/-! ## The three sinks -/

namespace SinkWrapper

variable {S : Type}

/-- A sink makes the steps of the service, from the cores in `from_`. -/
structure Serves (w : SinkWrapper S) (init : SinkCore → Prop) (stands : S → SinkCore → Prop)
    (waits : S → Nat → Prop) : Prop where
  new : ∀ {c}, init c → c.Uninterrupted → stands (w.new c) c
  poll : ∀ {s c cx}, stands s c → cx.Allowed → ∀ call,
    Step sinkService stands waits (.error .opCanceled) cx c (w.poll call cx s)
  send : ∀ {s c}, stands s c → c.buf = none → ∀ b,
    ∃ s', w.startSend b s = (.ok (.ok ()), s') ∧ stands s' { c with buf := some b }
  inner : ∀ {s c}, stands s c → c.wants = false → w.intoInner s = .ok c.body
  work : ∀ {s c}, stands s c → stands (w.work s) c

end SinkWrapper

/-- What the poll routine relies on, whatever marks are left. -/
def sinkGood (init : SinkCore → Prop) (c : SinkCore) (_ : List Mark) : Prop :=
  c.Uninterrupted ∧ init c

/-- The sinks' routine meets its service from the cores of any tunables. -/
theorem sinkRoutine_good {init : SinkCore → Prop}
    (hinit : ∀ {c c' : SinkCore}, init c → c'.tune = c.tune → init c') :
    sinkRoutine.Meets sinkService (sinkGood init) :=
  sinkRoutine_meets (fun h => h.1)
    (fun {c} _ h _ => ⟨SinkCore.serve_uninterrupted h.1, hinit h.2 c.serve_keeps.1⟩)
    (fun {c} _ h _ => ⟨SinkCore.serve_uninterrupted h.1, hinit h.2 c.serve_keeps.1⟩)

theorem send_run {BA : Type} [BlockingArbiter BA] {s : AsyncBodySink BA} (h : s.core.buf = none)
    (b : Bytes) : AsyncBodySink.send b s =
      (.ok (.ok ()), { s with core := { s.core with buf := some b } }) := by
  unfold AsyncBodySink.send
  rw [Prog.get_bind, Prog.bind_of_ok (Prog.assert_true (by rw [h]; rfl) _ _)]
  rfl

theorem asyncBodySink_serves : asyncBodySink.Serves (fun _ => True)
    (Adaptor.Stands (sinkGood fun _ => True)) (fun _ _ => False) where
  new _ hio := ⟨rfl, [], hio, trivial⟩
  poll := by
    intro s c cx hs _ call
    have hstep := Adaptor.step (sinkRoutine_good (fun _ _ => trivial)) hs cx
    cases call <;> exact hstep
  send := by
    intro s c hs hbuf b
    obtain ⟨rfl, ms, hgood⟩ := hs
    exact ⟨_, send_run hbuf b, rfl, ms, hgood⟩
  inner := by
    intro s c hs _
    show Res.ok s.core.body = _
    rw [hs.core_eq]
  work hs := hs

variable {good : SinkCore → List Mark → Prop}

theorem permitBodySink_serves (hmeets : sinkRoutine.Meets sinkService good)
    (hsemaphore : ∀ {c ms}, good c ms → c.tune.blockingSemaphore = true)
    (hbuf : ∀ {c ms}, good c ms → ∀ b, good { c with buf := some b } ms) {init : SinkCore → Prop}
    (hnew : ∀ {c}, init c → c.Uninterrupted → good c []) :
    permitBodySink.Serves init (Permitted.Stands sinkService good) Permitted.Waits where
  new hinit hio := ⟨rfl, fun _ => rfl, fun hne => absurd rfl hne, hnew hinit hio⟩
  poll := by
    intro s c cx hs hcx call
    have hstep := Permitted.step hmeets hs (hsemaphore hs.is_good) hcx
    cases call <;> exact hstep
  send := by
    intro s c hs hempty b
    obtain ⟨inner, permit⟩ := s
    obtain ⟨hcore, hidle, hasked, hgood⟩ := hs
    simp only at hcore hidle hasked hgood
    subst hcore
    -- With a permit outstanding, there is a buffer already.
    have hnone : permit = none := by
      by_contra hne
      have hwants : SinkCore.wants inner.core = true := hasked hne
      rw [SinkCore.serve_wants hempty] at hwants
      cases hwants
    subst hnone
    have hsend : permitBodySink.startSend b ⟨inner, none⟩ =
        (.ok (.ok ()), ⟨{ inner with core := { inner.core with buf := some b } }, none⟩) := by
      show Permitted.onInner (AsyncBodySink.send b) _ = _
      rw [Permitted.onInner, send_run hempty b]
    exact ⟨_, hsend, rfl, fun _ => hidle rfl, fun hne => absurd rfl hne, hbuf hgood b⟩
  inner := by
    intro s c hs _
    show Res.ok s.inner.core.body = _
    rw [hs.core_eq]
  work hs := hs

theorem dispatchBodySink_serves (hmeets : sinkRoutine.Meets sinkService good)
    (hbuf : ∀ {c ms}, good c ms → ∀ b, good { c with buf := some b } ms) {init : SinkCore → Prop}
    (hnew : ∀ {c}, init c → c.Uninterrupted → good c []) :
    dispatchBodySink.Serves init (Dispatching.Stands sinkService good) Dispatching.Waits where
  new {c} hinit hio := @Dispatching.Stands.inner _ _ _ _ (Adaptor.new c) rfl (hnew hinit hio)
  poll := by
    intro s c cx hs hcx call
    have hstep := Dispatching.step hmeets hs hcx
    cases call <;> exact hstep
  send := by
    intro s c hs hempty b
    have hwants := SinkCore.serve_wants hempty
    cases hs with
    | @inner ob harb hgood =>
      have hsend : dispatchBodySink.startSend b (.inner (some ob)) =
          (.ok (.ok ()), .inner (some { ob with core := { ob.core with buf := some b } })) := by
        show DispatchBodySink.startSend b _ = _
        have hown : (Prog.onOwn (AsyncBodySink.send b) ob : Prog DispatchBodySink Empty _)
            (.inner (some ob)) = (.ok (.ok ()), .inner (some ob)) := by
          rw [Prog.onOwn_run, send_run hempty b]
        unfold DispatchBodySink.startSend
        rw [Prog.get_bind]
        dsimp only
        rw [Prog.bind_of_ok hown, send_run hempty b]
        rfl
      exact ⟨_, hsend, @Dispatching.Stands.inner _ _ _ _
        { ob with core := { ob.core with buf := some b } } harb (hbuf hgood b)⟩
    | queued _ hw _ =>
      rw [show sinkService.wants _ = _ from hwants] at hw
      cases hw
    | done _ hw _ _ =>
      rw [show sinkService.wants _ = _ from hwants] at hw
      cases hw
    | lost hw _ =>
      rw [show sinkService.wants _ = _ from hwants] at hw
      cases hw
  inner := by
    intro s c hs hwants
    cases hs with
    | inner harb hgood => rfl
    | queued _ hw _ =>
      rw [show sinkService.wants _ = _ from hwants] at hw
      cases hw
    | done _ hw _ _ =>
      rw [show sinkService.wants _ = _ from hwants] at hw
      cases hw
    | lost hw _ =>
      rw [show sinkService.wants _ = _ from hwants] at hw
      cases hw
  work hs := Dispatching.work_step hmeets hs

/-! ## What a session comes to -/

section Sessions

variable {S : Type} {w : SinkWrapper S} {init : SinkCore → Prop} {stands : S → SinkCore → Prop}
  {waits : S → Nat → Prop} {tune : FutioTunables} {script : List SendAttempt} {start : BodySink}

theorem SinkCore.Holds.mono {c : SinkCore} {clear clear' : Bool} {sent : List Bytes}
    (h : c.Holds start tune script clear sent) (hclear : clear' = true → clear = true) :
    c.Holds start tune script clear' sent :=
  ⟨h.tune_eq, h.calm, h.uninterrupted, fun hc => h.empty (hclear hc), h.all, h.before⟩

/-- **Where a session stands**: by induction on its calls, each of which is a step of the service. -/
theorem SinkWrapper.Session.holds (hw : w.Serves init stands waits)
    (hstart : start.Within tune.image) (hinit : init (SinkCore.new start tune script))
    (hio : (SinkCore.new start tune script).Uninterrupted) {clear : Bool} {sent : List Bytes} {s : S}
    (h : w.Session (w.new (SinkCore.new start tune script)) clear sent s) :
    ∃ c, stands s c ∧ c.Holds start tune script clear sent := by
  induction h with
  | new =>
    refine ⟨SinkCore.new start tune script, hw.new hinit hio, rfl, fun hc => hc.2, hio, ?_, ?_, ?_⟩
    · intro hc
      cases hc
    · intro _
      exact ⟨BodySink.extends_start hstart, hstart.1⟩
    · intro b hb
      cases hb
  | poll _ call cx hcx hpoll hp ih =>
    obtain ⟨c, hs, hc⟩ := ih
    have hstep := hw.poll hs hcx call
    rw [hpoll] at hstep
    cases hstep with
    | pending hwants hanswer hstands hwaits =>
      refine ⟨c, hstands, hc.mono ?_⟩
      intro hclear
      by_cases hcall : call = .ready
      · simp [hcall] at hclear
      · simpa [hcall] using hclear
    | @ready a c' _ hserve hstands =>
      have ha : a = .ok () := by
        rcases hp with hp | hp
        · cases hp
        · cases hp
          rfl
      subst ha
      have hserve' : c.serve = (.ok (.ok ()), c') := hserve
      rcases Nat.lt_or_ge tune.image.maxBody (start.len + List.length (List.flatten _)) with
        hover | hfits
      · obtain ⟨-, pre, b, -, -, -, hlong⟩ := SinkCore.serve_exceeds hc hover
        rw [hlong] at hserve'
        cases hserve'
      · rcases SinkCore.serve_fits hc hfits with ⟨c'', hok, -, hc''⟩ | ⟨e, c'', herr, -⟩
        · rw [hok] at hserve'
          cases hserve'
          exact ⟨c', hstands, hc''.mono fun _ => rfl⟩
        · rw [herr] at hserve'
          cases hserve'
    | panic hserve hx => exact absurd hserve (SinkCore.serve_no_panic _ _ _)
  | send _ b hsend ih =>
    obtain ⟨c, hs, hc⟩ := ih
    have hempty := hc.empty rfl
    obtain ⟨s'', hsend', hstands⟩ := hw.send hs hempty b
    rw [hsend'] at hsend
    cases hsend
    refine ⟨_, hstands, hc.tune_eq, hc.calm, hc.uninterrupted, ?_, ?_, ?_⟩
    · intro hclear
      cases hclear
    · intro hnone
      cases hnone
    · intro b' hb'
      cases hb'
      exact ⟨_, rfl, hc.all hempty⟩
  | work _ ih =>
    obtain ⟨c, hs, hc⟩ := ih
    exact ⟨c, hw.work hs, hc⟩

/-- What a sink guarantees at every point of a session:
* a buffer may be sent when the protocol allows it;
* if all that was sent is within `max_body`, a poll may be pending, as its future is; once it is
  `Ready(Ok)` the sink holds all of it, and there is an error only if a file operation failed;
* otherwise the next poll reports `BodyTooLong`, of the last buffer, and the sink holds what was sent
  before that. -/
structure LosesNothing (w : SinkWrapper S) (tune : FutioTunables) (script : List SendAttempt)
    (start : BodySink) : Prop where
  send : ∀ {sent s}, w.Session (w.new (SinkCore.new start tune script)) true sent s →
    ∀ b, ∃ s', w.startSend b s = (.ok (.ok ()), s')
  fits : ∀ {clear sent s}, w.Session (w.new (SinkCore.new start tune script)) clear sent s →
    start.len + sent.flatten.length ≤ tune.image.maxBody → ∀ call {cx}, cx.Allowed →
    ∃ p s', w.poll call cx s = (.ok p, s') ∧
      ((p = .pending ∧ cx.answer = .pending) ∨
       (p = .ready (.ok ()) ∧
        ∃ body, w.intoInner s' = .ok body ∧ body.Extends tune.image start sent) ∨
       ∃ e, p = .ready (.error (.body (.io e))) ∧ ¬ tune.Calm script)
  exceeds : ∀ {clear sent s}, w.Session (w.new (SinkCore.new start tune script)) clear sent s →
    tune.image.maxBody < start.len + sent.flatten.length → ∀ call {cx}, cx.Allowed →
    ∃ pre b s' body, sent = pre ++ [b] ∧ start.len + pre.flatten.length ≤ tune.image.maxBody ∧
      w.poll call cx s =
        (.ok (.ready (.error (.body (.bodyTooLong (start.len + sent.flatten.length))))), s') ∧
      w.intoInner s' = .ok body ∧ body.Extends tune.image start pre

theorem SinkWrapper.Serves.losesNothing (hw : w.Serves init stands waits)
    (hstart : start.Within tune.image) (hinit : init (SinkCore.new start tune script))
    (hio : (SinkCore.new start tune script).Uninterrupted) : LosesNothing w tune script start where
  send := by
    intro sent s h b
    obtain ⟨c, hs, hc⟩ := h.holds hw hstart hinit hio
    obtain ⟨s', hsend, -⟩ := hw.send hs (hc.empty rfl) b
    exact ⟨s', hsend⟩
  fits := by
    intro clear sent s h hfits call cx hcx
    obtain ⟨c, hs, hc⟩ := h.holds hw hstart hinit hio
    have hstep := hw.poll hs hcx call
    generalize w.poll call cx s = x at hstep
    cases hstep with
    | pending hwants hanswer hstands hwaits => exact ⟨_, _, rfl, .inl ⟨rfl, hanswer⟩⟩
    | @ready a c' s' hserve hstands =>
      have hserve' : c.serve = (.ok a, c') := hserve
      rcases SinkCore.serve_fits hc hfits with ⟨c'', hok, hnone, hc''⟩ | ⟨e, c'', herr, hbad⟩
      · rw [hok] at hserve'
        cases hserve'
        exact ⟨_, _, rfl, .inr (.inl ⟨rfl, _, hw.inner hstands (SinkCore.serve_wants hnone),
          (hc''.all hnone).1⟩)⟩
      · rw [herr] at hserve'
        cases hserve'
        exact ⟨_, _, rfl, .inr (.inr ⟨e, rfl, hbad⟩)⟩
    | panic hserve hx => exact absurd hserve (SinkCore.serve_no_panic _ _ _)
  exceeds := by
    intro clear sent s h hover call cx hcx
    obtain ⟨c, hs, hc⟩ := h.holds hw hstart hinit hio
    obtain ⟨hwants, pre, b, hsent, hpre, hext, hlong⟩ := SinkCore.serve_exceeds hc hover
    have hstep := hw.poll hs hcx call
    generalize w.poll call cx s = x at hstep
    cases hstep with
    | pending hwants' hanswer hstands hwaits =>
      rw [show sinkService.wants c = _ from hwants] at hwants'
      cases hwants'
    | @ready a c' s' hserve hstands =>
      have hserve' : c.serve = (.ok a, c') := hserve
      rw [hlong] at hserve'
      cases hserve'
      exact ⟨pre, b, _, _, hsent, hpre, rfl, hw.inner hstands (SinkCore.serve_wants rfl), hext⟩
    | panic hserve hx => exact absurd hserve (SinkCore.serve_no_panic _ _ _)

end Sessions

/-- **The three sinks end alike.** Whatever buffers are sent, and however polls, permits and
dispatched closures follow each other, none of them loses, repeats or reorders a buffer, and none
panics. -/
theorem sinks_lose_nothing {tune : FutioTunables} {script : List SendAttempt} {start : BodySink}
    (hstart : start.Within tune.image) (hio : (SinkCore.new start tune script).Uninterrupted) :
    LosesNothing asyncBodySink tune script start ∧
    (tune.blockingSemaphore = true → LosesNothing permitBodySink tune script start) ∧
    LosesNothing dispatchBodySink tune script start :=
  have hpermit := @sinkRoutine_good (fun c => c.tune.blockingSemaphore = true)
    (fun h ht => by rw [ht]; exact h)
  have hdispatch := @sinkRoutine_good (fun _ => True) (fun _ _ => trivial)
  ⟨asyncBodySink_serves.losesNothing hstart trivial hio,
    fun hsemaphore => (permitBodySink_serves hpermit (fun h => h.2) (fun h _ => h)
      (fun hinit hio => ⟨hio, hinit⟩)).losesNothing hstart hsemaphore hio,
    (dispatchBodySink_serves hdispatch (fun h _ => h)
      (fun hinit hio => ⟨hio, hinit⟩)).losesNothing hstart trivial hio⟩

namespace Sample

/-- Limits of two bytes in memory and eight in all. -/
def sinkTunables : FutioTunables := ⟨Tunables.sized 2 8 1 (by decide) Nat.zero_lt_one, .permit⟩

/-- A sink with a byte in memory. -/
def startedSink : BodySink := ⟨.ram [[1]], 1⟩

/-- A write that fails after no byte. -/
def failingScript : List SendAttempt := [⟨[], .failed 0 (.other 28)⟩]

/-- A poll with a pool, and a permit. -/
def readyContext : Context := ⟨0, .ready, true⟩

theorem readyContext_allowed : readyContext.Allowed := by decide

/-- The sink before any call. -/
def startedCore : SinkCore := .new startedSink sinkTunables failingScript

end Sample

/-- A byte goes to memory with another, and the next one is too much for it: the file that it would
go to fails, and so does the session. -/
theorem sinks_lose_nothing_failing :
    LosesNothing permitBodySink Sample.sinkTunables Sample.failingScript Sample.startedSink ∧
    LosesNothing dispatchBodySink Sample.sinkTunables Sample.failingScript Sample.startedSink ∧
    ∃ s s' body p s'', asyncBodySink.Session (asyncBodySink.new Sample.startedCore) true [[2]] s ∧
      asyncBodySink.intoInner s = .ok body ∧ body.held = [1, 2] ∧
      asyncBodySink.startSend [3] s = (.ok (.ok ()), s') ∧
      asyncBodySink.poll .flush Sample.readyContext s' = (.ok p, s'') ∧
      ∃ e, p = .ready (.error (.body (.io e))) := by
  have hstart : Sample.startedSink.Within Sample.sinkTunables.image := ⟨by decide, by decide⟩
  have hio : (SinkCore.new Sample.startedSink Sample.sinkTunables
      Sample.failingScript).Uninterrupted := by
    intro io hmem k
    cases List.mem_singleton.mp hmem
    simp
  obtain ⟨hasync, hpermit, hdispatch⟩ := sinks_lose_nothing hstart hio
  have hnew : asyncBodySink.Session (asyncBodySink.new Sample.startedCore) false [] _ := .new
  have hready := hnew.poll .ready Sample.readyContext Sample.readyContext_allowed rfl (.inr rfl)
  have hsent := hready.send [2] rfl
  have hpair := hsent.poll .ready Sample.readyContext Sample.readyContext_allowed rfl (.inr rfl)
  have hlast := hpair.send [3] rfl
  refine ⟨hpermit rfl, hdispatch, _, _, _, _, _, hpair, rfl, ?_, rfl, rfl, ?_⟩
  · obtain ⟨p, s, hpoll, ⟨-, hanswer⟩ | ⟨hp, body, hbody, hext⟩ | ⟨e, hp, -⟩⟩ :=
      hasync.fits hsent (by decide) .ready Sample.readyContext_allowed
    · cases hanswer
    · cases hpoll
      cases hbody
      exact hext.held_eq
    · cases hpoll
      cases hp
  · obtain ⟨p, s, hpoll, ⟨-, hanswer⟩ | ⟨hp, -⟩ | ⟨e, hp, -⟩⟩ :=
      hasync.fits hlast (by decide) .flush Sample.readyContext_allowed
    · cases hanswer
    · cases hpoll
      cases hp
    · cases hpoll
      exact ⟨e, hp⟩

end BodyArchive
