import BodyArchive.Futio.SinkRun
import BodyArchive.Futio.StreamRun

/-!
# Blocking discipline

What the marks of a wrapper say: every operation that blocks lies within the span of a permit or of a
dispatched closure, and a span has one operation in it. The exception is a stream whose memory map has
been handed out and was shorter than the recorded length: it asks to block for what is missing, and
then does nothing. `blocking_discipline` says so of both sinks and both streams, together with what
keeps a wrapper from being polled in vain.
-/

namespace BodyArchive

/-! ## Spans -/

/-- Spans one after the other, each of operations that `unit` allows after the marks before it. -/
inductive Spans (unit : List Mark → List Operation → Prop) : List Mark → Prop
  | nil : Spans unit []
  | snoc {ms : List Mark} {ops : List Operation} (h : Spans unit ms) (hunit : unit ms ops) :
      Spans unit (ms ++ span ops)

/-- The one operation of a sink: a write, with the write-back before it that it may need, or a
write-back that failed. -/
def sinkUnit (_ : List Mark) (ops : List Operation) : Prop :=
  ops = [.write] ∨ ops = [.writeBack, .write] ∨ ops = [.writeBack]

/-- The one operation of a stream: a read, or the access to a memory map. -/
def imageUnit (_ : List Mark) (ops : List Operation) : Prop := ops = [.read] ∨ ops = [.mapAccess]

/-- One operation, or none after the memory map has been taken. -/
def imageUnitOrNone (ms : List Mark) (ops : List Operation) : Prop :=
  imageUnit ms ops ∨ (ops = [] ∧ .operation .mapAccess ∈ ms)

/-- What a wrapper keeps to in the states it reaches:
* all operations are in spans that `unit` allows;
* a poll that is pending leaves a future outstanding that will call the waker of this poll;
* the assertion that a grant has been used does not fail. -/
structure Disciplined {W K α : Type} (reached : W → Prop) (poll : K → Context → Prog W Empty (Poll α))
    (marks : W → Option (List Mark)) (waits : W → Nat → Prop)
    (unit : List Mark → List Operation → Prop) : Prop where
  spans : ∀ {w}, reached w → ∀ ms ∈ marks w, Spans unit ms
  pending : ∀ {w w' k} {cx : Context}, reached w → cx.Allowed → poll k cx w = (.ok .pending, w') →
    waits w' cx.waker
  assertion : ∀ {w w' k} {cx : Context}, reached w → cx.Allowed →
    poll k cx w ≠ (.panic arbiterAssertion, w')

section Steps

variable {C α : Type} {sv : Service C α} {good : C → List Mark → Prop}

/-- The marks that a dispatching wrapper has, wherever its body is. A closure that panicked has taken
them with it. -/
def Dispatching.marks (w : Dispatching C α) : Option (List Mark) :=
  match w with
  | .inner obo => obo.map Adaptor.marks
  | .dispatch ⟨.queued ob, _⟩ => some ob.marks
  | .dispatch ⟨.done _ ob, _⟩ => some ob.marks
  | .dispatch ⟨.lost, _⟩ => none

theorem Dispatching.Stands.marks_good {w : Dispatching C α} {c : C}
    (h : Dispatching.Stands sv good w c) {ms : List Mark} (hms : ms ∈ w.marks) : ∃ c', good c' ms := by
  cases h with
  | inner harb hgood =>
    cases hms
    exact ⟨_, hgood⟩
  | queued harb hwants hgood =>
    cases hms
    exact ⟨_, hgood⟩
  | done harb hwants hserve hgood =>
    cases hms
    exact ⟨_, hgood⟩
  | lost hwants hserve => cases hms

/-- **A wrapper that makes the steps of a service** is disciplined, if its marks are. -/
theorem disciplined_of_steps {W K : Type} {reached : W → Prop}
    {poll : K → Context → Prog W Empty (Poll α)} {marks : W → Option (List Mark)}
    {stands : W → C → Prop} {waits : W → Nat → Prop} {canceled : α}
    {unit : List Mark → List Operation → Prop} (hreached : ∀ {w}, reached w → ∃ c, stands w c)
    (hmarks : ∀ {w c}, stands w c → ∀ ms ∈ marks w, Spans unit ms)
    (hstep : ∀ {w c k cx}, stands w c → cx.Allowed → Step sv stands waits canceled cx c (poll k cx w))
    (hserve : ∀ {c c'}, sv.serve c ≠ (.panic arbiterAssertion, c')) :
    Disciplined reached poll marks waits unit where
  spans := by
    intro w hw
    obtain ⟨c, hs⟩ := hreached hw
    exact hmarks hs
  pending := by
    intro w w' k cx hw hcx hpoll
    obtain ⟨c, hs⟩ := hreached hw
    have hstep' := @hstep w c k cx hs hcx
    rw [hpoll] at hstep'
    cases hstep' with
    | pending hwants hanswer hstands hwaits => exact hwaits
    | panic hpanic hx =>
      rcases hx with hx | ⟨hx, -⟩
      · cases hx
      · cases hx
  assertion := by
    intro w w' k cx hw hcx hpoll
    obtain ⟨c, hs⟩ := hreached hw
    have hstep' := @hstep w c k cx hs hcx
    rw [hpoll] at hstep'
    cases hstep' with
    | panic hpanic hx =>
      rcases hx with hx | ⟨hx, -⟩
      · cases hx
        exact hserve hpanic
      · cases hx

end Steps

/-! ## The sinks -/

/-- The states of a sink under the protocol of `Sink`, and whether a buffer may be sent now. Polls may
also have returned errors. -/
inductive SinkWrapper.Reached {S : Type} (w : SinkWrapper S) (s₀ : S) : Bool → S → Prop
  | new : Reached w s₀ false s₀
  | poll {clear : Bool} {s s' : S} {p : Poll (Except FutioError Unit)} (h : Reached w s₀ clear s)
      (call : SinkCall) (cx : Context) (hcx : cx.Allowed) (hpoll : w.poll call cx s = (.ok p, s')) :
      Reached w s₀ (if call = .ready then p = .ready (.ok ()) else clear) s'
  | send {s s' : S} (h : Reached w s₀ true s) (b : Bytes)
      (hsend : w.startSend b s = (.ok (.ok ()), s')) : Reached w s₀ false s'
  | work {clear : Bool} {s : S} (h : Reached w s₀ clear s) : Reached w s₀ clear (w.work s)

namespace SinkCore

/-- The buffer is gone in any case. -/
theorem serve_buf (c : SinkCore) : c.serve.2.buf = none := by
  unfold serve
  cases hbuf : c.buf with
  | none => exact hbuf
  | some b =>
    dsimp only
    split
    · rfl
    split
    · rfl
    split
    · rfl
    unfold serveBlocking
    dsimp only
    split
    · split <;> rfl
    · rfl
    · rfl

theorem operations_unit (c : SinkCore) (ms : List Mark) : sinkUnit ms c.operations := by
  unfold operations
  split
  · split
    · exact .inr (.inl rfl)
    · exact .inr (.inr rfl)
  · exact .inl rfl

end SinkCore

/-- What the marks of a sink come to. -/
def sinkSpans (init : SinkCore → Prop) (c : SinkCore) (ms : List Mark) : Prop :=
  sinkGood init c ms ∧ Spans sinkUnit ms

theorem sinkRoutine_spans {init : SinkCore → Prop}
    (hinit : ∀ {c c' : SinkCore}, init c → c'.tune = c.tune → init c') :
    sinkRoutine.Meets sinkService (sinkSpans init) :=
  have hmeets := sinkRoutine_good hinit
  sinkRoutine_meets (fun h => h.1.1) (fun h hwants => ⟨hmeets.good_now h.1 hwants, h.2⟩)
    (fun {c ms} h hwants => ⟨hmeets.good_block h.1 hwants, .snoc h.2 (c.operations_unit ms)⟩)

section Sinks

variable {S : Type} {w : SinkWrapper S} {init : SinkCore → Prop} {stands : S → SinkCore → Prop}
  {waits : S → Nat → Prop}

theorem SinkWrapper.Reached.at_core (hw : w.Serves init stands waits) {core : SinkCore}
    (hinit : init core) (hio : core.Uninterrupted) {clear : Bool} {s : S}
    (h : w.Reached (w.new core) clear s) : ∃ c, stands s c ∧ (clear = true → c.buf = none) := by
  induction h with
  | new => exact ⟨core, hw.new hinit hio, fun hclear => by cases hclear⟩
  | @poll clear s s' p _ call cx hcx hpoll ih =>
    obtain ⟨c, hs, hclear⟩ := ih
    have hstep := hw.poll hs hcx call
    rw [hpoll] at hstep
    cases hstep with
    | pending hwants hanswer hstands hwaits =>
      refine ⟨c, hstands, ?_⟩
      intro hnow
      by_cases hcall : call = .ready
      · simp [hcall] at hnow
      · simp only [if_neg hcall] at hnow
        exact hclear hnow
    | @ready a c' _ hserve hstands =>
      have hbuf := c.serve_buf
      rw [show c.serve = _ from hserve] at hbuf
      exact ⟨c', hstands, fun _ => hbuf⟩
    | panic hserve hx => exact absurd hserve (SinkCore.serve_no_panic _ _ _)
  | send _ b hsend ih =>
    obtain ⟨c, hs, hclear⟩ := ih
    obtain ⟨s'', hsend', hstands⟩ := hw.send hs (hclear rfl) b
    rw [hsend'] at hsend
    cases hsend
    exact ⟨_, hstands, fun hfalse => by cases hfalse⟩
  | work _ ih =>
    obtain ⟨c, hs, hclear⟩ := ih
    exact ⟨c, hw.work hs, hclear⟩

theorem SinkWrapper.Serves.disciplined (hw : w.Serves init stands waits) {core : SinkCore}
    (hinit : init core) (hio : core.Uninterrupted) {marks : S → Option (List Mark)}
    (hmarks : ∀ {s c}, stands s c → ∀ ms ∈ marks s, Spans sinkUnit ms) :
    Disciplined (fun s => ∃ clear, w.Reached (w.new core) clear s) w.poll marks waits sinkUnit :=
  disciplined_of_steps
    (fun h => by
      obtain ⟨clear, hreached⟩ := h
      obtain ⟨c, hs, -⟩ := hreached.at_core hw hinit hio
      exact ⟨c, hs⟩)
    hmarks (fun hs hcx => hw.poll hs hcx _) (SinkCore.serve_no_panic _ _ _)

end Sinks

/-! ## The streams -/

section Streams

variable {B : Type} [OutputBuf B]

theorem readChunk_safe (rlen : Nat) (rs : ReadSlice) : (readChunk rlen rs).1.Safe := by
  refine Prog.loop_safe (readChunkStep_decreasing rlen) (fun _ _ => True) ?_ trivial
  intro u rs _
  refine ⟨?_, fun _ _ _ => trivial⟩
  rw [readChunkStep]
  rcases hr : Read.read rs rlen with ⟨e | bs, rs'⟩ <;> rw [Prog.bind_of_ok (tryRead_of hr)]
  · cases e <;> trivial
  · cases bs <;> trivial

theorem takeMap_own {c c' : ImageCore} (mb : Bytes) :
    ImageCore.takeMap B mb c ≠ (.panic arbiterAssertion, c') := by
  unfold ImageCore.takeMap
  cases hmap : (OutputBuf.fromMmap c.advice mb : Res IoError B) with
  | ok b =>
    dsimp only
    cases hremaining : OutputBuf.remaining b with
    | ok n =>
      intro h
      cases h
    | err e => exact e.elim
    | panic msg =>
      intro h
      cases h
      exact OutputBuf.remaining_own b hremaining
  | err e =>
    intro h
    cases h
  | panic msg =>
    intro h
    cases h
    exact OutputBuf.fromMmap_own _ _ hmap

/-- A stream asserts nothing of its arbiter itself. -/
theorem serve_own {c c' : ImageCore} : c.serve B ≠ (.panic arbiterAssertion, c') := by
  unfold ImageCore.serve
  split
  · exact fun h => absurd (Res.panic.inj (congrArg Prod.fst h)) (by decide)
  split
  · intro h
    cases h
  unfold ImageCore.next
  split
  · next iter _ =>
    cases iter <;>
      · intro h
        cases h
  · next rs _ =>
    have hsafe := readChunk_safe (min c.tune.image.bufferSizeFs (c.len - c.consumed)) rs
    unfold ImageCore.readFile
    dsimp only
    split
    · intro h
      cases h
    · intro h
      cases h
    · intro h
      cases h
    · next msg rs' hread =>
      rw [hread] at hsafe
      exact hsafe.elim
  · exact takeMap_own _
  · intro h
    cases h

/-- The map of an image is taken by an access to it. -/
theorem serve_taken {c : ImageCore} (h : (c.serve B).2.state = .memMap none) :
    c.state = .memMap none ∨ (c.wants = true ∧ c.operations = [.mapAccess]) := by
  obtain ⟨state, len, consumed, tune, advice⟩ := c
  unfold ImageCore.serve at h
  split at h
  · exact .inl h
  next hover =>
  split at h
  · exact .inl h
  next hend =>
  cases state with
  | ram iter => cases iter <;> cases h
  | file rs =>
    have h' : (ImageCore.readFile B rs ⟨.file rs, len, consumed, tune, advice⟩).2.state =
      .memMap none := h
    unfold ImageCore.readFile at h'
    dsimp only at h'
    split at h' <;> cases h'
  | memMap map =>
    cases map with
    | none => exact .inl rfl
    | some mb =>
      have hleft : consumed < len := by
        simp only at hover hend
        omega
      exact .inr ⟨by simp [ImageCore.wants, ImageCore.isRam, hleft], rfl⟩

theorem new_not_taken (im : BodyImage) (tune : FutioTunables) (advice : Except IoError Unit) :
    (ImageCore.new im tune advice).state ≠ .memMap none := by
  obtain ⟨state, len⟩ := im
  intro h
  cases state <;> cases h

/-- What the marks of a stream come to. -/
structure ImageSpans (init : FutioTunables → Prop) (c : ImageCore) (ms : List Mark) : Prop where
  init : init c.tune
  spans : Spans imageUnitOrNone ms
  taken : c.state = .memMap none → .operation .mapAccess ∈ ms

theorem operations_unit {init : FutioTunables → Prop} {c : ImageCore} {ms : List Mark}
    (h : ImageSpans init c ms) (hwants : c.wants = true) : imageUnitOrNone ms c.operations := by
  obtain ⟨state, len, consumed, tune, advice⟩ := c
  cases state with
  | ram iter => simp [ImageCore.wants, ImageCore.isRam] at hwants
  | file rs => exact .inl (.inl rfl)
  | memMap map =>
    cases map with
    | none => exact .inr ⟨rfl, h.taken rfl⟩
    | some mb => exact .inl (.inr rfl)

theorem streamRoutine_spans (init : FutioTunables → Prop) :
    (streamRoutine B).Meets (imageService B) (ImageSpans init) := by
  apply streamRoutine_meets
  · intro c ms h hwants
    refine ⟨by rw [serve_tune]; exact h.init, h.spans, ?_⟩
    intro htaken
    rcases serve_taken htaken with hstate | ⟨hwants', -⟩
    · exact h.taken hstate
    · rw [hwants] at hwants'
      cases hwants'
  · intro c ms h hwants
    refine ⟨by rw [serve_tune]; exact h.init, .snoc h.spans (operations_unit h hwants), ?_⟩
    intro htaken
    rcases serve_taken htaken with hstate | ⟨-, hops⟩
    · exact List.mem_append_left _ (h.taken hstate)
    · rw [hops]
      exact List.mem_append_right _ (by decide)

variable {S : Type} {w : StreamWrapper S B} {init : ImageCore → Prop} {stands : S → ImageCore → Prop}
  {waits : S → Nat → Prop}

theorem StreamWrapper.Polled.at_core (hw : w.Serves init stands waits) {core : ImageCore}
    (hinit : init core) {rs : List (Poll (StreamItem B))} {s : S} (h : w.Polled (w.new core) rs s) :
    ∃ c, stands s c := by
  induction h with
  | new => exact ⟨core, hw.new hinit⟩
  | poll _ cx hcx hpoll ih =>
    obtain ⟨c, hs⟩ := ih
    have hstep := hw.poll hs hcx
    rw [hpoll] at hstep
    cases hstep with
    | pending hwants hanswer hstands hwaits => exact ⟨c, hstands⟩
    | ready hserve hstands => exact ⟨_, hstands⟩
    | panic hserve hx =>
      rcases hx with hx | ⟨-, hstands⟩
      · cases hx
      · exact ⟨c, hstands⟩
  | work _ ih =>
    obtain ⟨c, hs⟩ := ih
    exact ⟨c, hw.work hs⟩

theorem StreamWrapper.Serves.disciplined (hw : w.Serves init stands waits) {core : ImageCore}
    (hinit : init core) {marks : S → Option (List Mark)}
    (hmarks : ∀ {s c}, stands s c → ∀ ms ∈ marks s, Spans imageUnitOrNone ms) :
    Disciplined (fun s => ∃ rs, w.Polled (w.new core) rs s) (fun _ : Unit => w.pollNext) marks waits
      imageUnitOrNone :=
  disciplined_of_steps
    (fun h => by
      obtain ⟨rs, hpolled⟩ := h
      exact hpolled.at_core hw hinit)
    hmarks (fun hs hcx => hw.poll hs hcx) serve_own

end Streams

/-! ## All four wrappers -/

/-- **Blocking discipline.** Nothing blocks but under a grant, and a grant is used for one operation,
or for none where the memory map of a stream has been taken; the arbiter's assertion holds; and no
poll is left waiting without a future that will wake it. -/
theorem blocking_discipline (B : Type) [OutputBuf B] {tune : FutioTunables} {script : List SendAttempt}
    {start : BodySink} (hio : (SinkCore.new start tune script).Uninterrupted) (im : BodyImage)
    (advice : Except IoError Unit) :
    (tune.blockingSemaphore = true →
      Disciplined
        (fun s => ∃ clear, permitBodySink.Reached (PermitBodySink.new (.new start tune script)) clear s)
        permitBodySink.poll (fun s => some s.inner.marks) Permitted.Waits sinkUnit ∧
      Disciplined
        (fun s => ∃ rs, (permitBodyImage B).Polled (PermitBodyImage.new (.new im tune advice)) rs s)
        (fun _ : Unit => (permitBodyImage B).pollNext) (fun s => some s.inner.marks) Permitted.Waits
        imageUnitOrNone) ∧
    Disciplined
      (fun s => ∃ clear,
        dispatchBodySink.Reached (DispatchBodySink.new (.new start tune script)) clear s)
      dispatchBodySink.poll Dispatching.marks Dispatching.Waits sinkUnit ∧
    Disciplined
      (fun s => ∃ rs, (dispatchBodyImage B).Polled (DispatchBodyImage.new (.new im tune advice)) rs s)
      (fun _ : Unit => (dispatchBodyImage B).pollNext) (fun s => s.state.marks)
      (fun s => Dispatching.Waits s.state) imageUnitOrNone := by
  have hsinks := @sinkRoutine_spans (fun c => c.tune.blockingSemaphore = true)
    (fun h ht => by rw [ht]; exact h)
  have hsinks' := @sinkRoutine_spans (fun _ => True) (fun _ _ => trivial)
  have hstreams := @streamRoutine_spans B _ fun tune => tune.blockingSemaphore = true
  have hstreams' := @streamRoutine_spans B _ fun _ => True
  refine ⟨fun hsemaphore => ⟨?_, ?_⟩, ?_, ?_⟩
  · have hserves := permitBodySink_serves hsinks (fun h => h.1.2) (fun h _ => h)
      (fun {c} (hinit : c.tune.blockingSemaphore = true) hio => ⟨⟨hio, hinit⟩, Spans.nil⟩)
    refine hserves.disciplined hsemaphore hio ?_
    intro s c hs ms hms
    cases hms
    exact hs.is_good.2
  · have hserves := permitBodyImage_serves hstreams (fun h => h.init)
    refine hserves.disciplined
      ⟨hsemaphore, .nil, fun htaken => absurd htaken (new_not_taken im tune advice)⟩ ?_
    intro s c hs ms hms
    cases hms
    exact hs.is_good.spans
  · have hserves := dispatchBodySink_serves hsinks' (fun h _ => h)
      (fun {c} (hinit : True) hio => ⟨⟨hio, hinit⟩, Spans.nil⟩)
    refine hserves.disciplined trivial hio ?_
    intro s c hs ms hms
    obtain ⟨c', hgood⟩ := hs.marks_good hms
    exact hgood.2
  · have hserves := dispatchBodyImage_serves hstreams'
    refine hserves.disciplined
      ⟨trivial, .nil, fun htaken => absurd htaken (new_not_taken im tune advice)⟩ ?_
    intro s c hs ms hms
    obtain ⟨c', hgood⟩ := hs.marks_good hms
    exact hgood.spans

/-! ## A grant that is not used -/

/-- Adaptors with the default limits, that wait for permits. -/
def permitTunables : FutioTunables := ⟨Tunables.new Tunables.calmDir, .permit⟩

/-- A file of one byte, recorded as two, and mapped. -/
def shortMap : BodyImage := (BodyImage.memMap MapSys.plain (BodyImage.fromFile (File.quiet [65]) 2)).2

theorem permitTunables_disciplined :
    (SinkCore.new BodySink.empty permitTunables []).Uninterrupted ∧
    (permitTunables.blockingSemaphore = true →
      Disciplined
        (fun s => ∃ clear,
          permitBodySink.Reached (PermitBodySink.new (.new BodySink.empty permitTunables [])) clear s)
        permitBodySink.poll (fun s => some s.inner.marks) Permitted.Waits sinkUnit ∧
      Disciplined
        (fun s => ∃ rs, (permitBodyImage Bytes).Polled
          (PermitBodyImage.new (.new shortMap permitTunables (.ok ()))) rs s)
        (fun _ : Unit => (permitBodyImage Bytes).pollNext) (fun s => some s.inner.marks)
        Permitted.Waits imageUnitOrNone) ∧
    Disciplined
      (fun s => ∃ clear,
        dispatchBodySink.Reached (DispatchBodySink.new (.new BodySink.empty permitTunables [])) clear s)
      dispatchBodySink.poll Dispatching.marks Dispatching.Waits sinkUnit ∧
    Disciplined
      (fun s => ∃ rs, (dispatchBodyImage Bytes).Polled
        (DispatchBodyImage.new (.new shortMap permitTunables (.ok ()))) rs s)
      (fun _ : Unit => (dispatchBodyImage Bytes).pollNext) (fun s => s.state.marks)
      (fun s => Dispatching.Waits s.state) imageUnitOrNone :=
  have hio : (SinkCore.new BodySink.empty permitTunables []).Uninterrupted :=
    fun _ hio => absurd hio List.not_mem_nil
  ⟨hio, blocking_discipline Bytes hio shortMap (.ok ())⟩

/-- The last span of a stream that uses each grant for one operation. -/
theorem spans_last {ms : List Mark} (h : Spans imageUnit ms) (hne : ms ≠ []) :
    ∃ pre op, ms = pre ++ [.enter, .operation op, .leave] := by
  cases h with
  | nil => exact absurd rfl hne
  | @snoc ms ops h hunit =>
    rcases hunit with rfl | rfl
    · exact ⟨ms, .read, rfl⟩
    · exact ⟨ms, .mapAccess, rfl⟩

/-- The second permit of a stream whose map is shorter than recorded is granted for nothing. -/
theorem second_grant_idle :
    ∃ rs s, (permitBodyImage Bytes).Polled
        (PermitBodyImage.new (.new shortMap permitTunables (.ok ()))) rs s ∧
      s.inner.marks = span [.mapAccess] ++ span [] ∧ ¬ Spans imageUnit s.inner.marks := by
  have hgrant : Context.Allowed ⟨0, .ready, true⟩ := by decide
  refine ⟨_, _, .poll (.poll .new ⟨0, .ready, true⟩ hgrant rfl) ⟨0, .ready, true⟩ hgrant rfl, rfl, ?_⟩
  intro h
  obtain ⟨pre, op, hlast⟩ := spans_last h (by decide)
  have hsplit : [.enter, .operation .mapAccess] ++ [.leave, .enter, .leave] =
    pre ++ [.enter, .operation op, .leave] := hlast
  cases (List.append_inj' hsplit rfl).2

end BodyArchive
