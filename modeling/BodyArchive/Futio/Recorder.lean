import BodyArchive.Futio.Forward
import BodyArchive.Barc.Sample

/-!
# Recording requests

A `RequestRecorder` finishes the builder of a request, and keeps the request in a prolog for the dialog
to come. The body is there twice: once as an image in the prolog, and once as what is sent, which is
either a `hyper::Body` or a stream of an image. `recorded_is_sent` says that they have the same bytes,
however the body is given and however it is polled.

The builder (*http*) and hyper's bodies (*hyper*) are parameters, `HttpBuilder` and `Hyper`. Of the
bodies it is assumed that they hand out what they were made of (`Hyper.Lawful`).

The tunables for an empty body or one in RAM are defaults, also for the stream that waits for permits,
although the defaults have no semaphore: it never asks for one (`permitBodyImage_serves_ram`).
-/

namespace BodyArchive

/-! ## Requests -/

section Requests

variable (http : HttpTypes)

/-- The head of an `http::Request`. -/
structure RequestHead where
  method : http.Method
  uri : http.Uri
  headers : HeaderMap

/-- `http::request::Builder`, that is given the parts of a request. An `http::Error` has a code. -/
structure HttpBuilder where
  Builder : Type
  /-- `Request::builder`. -/
  new : Builder
  method : Bytes → Builder → Builder
  uri : Bytes → Builder → Builder
  header : HeaderName → Bytes → Builder → Builder
  /-- What `body` puts before a body, if all parts are valid. -/
  head : Builder → Except Nat (RequestHead http)

/-- An HTTP request and its recording. -/
structure RequestRecord (B : Type) where
  head : RequestHead http
  body : B
  prolog : Prolog http

variable {http} (builder : HttpBuilder http)

/-- Finish a builder with a body, and with the image of it for the prolog. -/
def HttpBuilder.finish {B : Type} (b : builder.Builder) (body : B) (reqBody : BodyImage) :
    Except Nat (RequestRecord http B) := do
  let head ← builder.head b
  return ⟨head, body, ⟨head.method, head.uri, head.headers, reqBody⟩⟩

/-- `RequestRecorder`, for a type of request bodies. -/
structure RequestRecorder (B : Type) where
  record : builder.Builder → Except Nat (RequestRecord http B)
  recordBody : Bytes → builder.Builder → Except Nat (RequestRecord http B)
  recordBodyImage : BodyImage → FutioTunables → builder.Builder → Except Nat (RequestRecord http B)

end Requests

/-- The image of bytes that are recorded. -/
def imageOf (buf : Bytes) : BodyImage := if buf = [] then .empty else .fromSlice buf

/-! ## The bodies that hyper has -/

/-- `hyper::Body`, as far as requests are recorded with it, with its methods of `Stream` and
`http_body::Body`. -/
structure Hyper where
  Body : Type
  empty : Body
  /-- `From<Bytes>`. -/
  ofBytes : Bytes → Body
  wrapStream : AsyncBodyImage LenientArbiter → Body
  pollNext : Context → Prog Body Empty (Poll (StreamItem Bytes))
  isEndStream : Body → Res Empty Bool

/-- What is in a body of hyper. -/
inductive HyperContent where
  | empty
  | once (buf : Bytes)
  | wrapped (stream : AsyncBodyImage LenientArbiter)

/-- The contents for some bytes: none, or one chunk. -/
def HyperContent.ofBytes (buf : Bytes) : HyperContent := if buf = [] then .empty else .once buf

/-- Bodies have contents, and a poll takes from them: an empty body ends each time, a chunk is handed
out whole, and a stream is polled. A body that says that it is at its end is empty. -/
structure Hyper.Lawful (hyper : Hyper) (has : hyper.Body → HyperContent → Prop) : Prop where
  empty : has hyper.empty .empty
  ofBytes : ∀ buf, has (hyper.ofBytes buf) (.ofBytes buf)
  wrapStream : ∀ s, has (hyper.wrapStream s) (.wrapped s)
  pollEmpty : ∀ {b cx}, has b .empty →
    ∃ b', hyper.pollNext cx b = (.ok (.ready none), b') ∧ has b' .empty
  pollOnce : ∀ {b cx buf}, has b (.once buf) →
    ∃ b', hyper.pollNext cx b = (.ok (.ready (some (.ok buf))), b') ∧ has b' .empty
  pollWrapped : ∀ {b cx s}, has b (.wrapped s) →
    ∃ b', hyper.pollNext cx b = ((AsyncBodyImage.pollNext Bytes cx s).1, b') ∧
      has b' (.wrapped (AsyncBodyImage.pollNext Bytes cx s).2)
  isEndStream : ∀ {b c}, has b c → ∃ e, hyper.isEndStream b = .ok e ∧ (e = true → c = .empty)

/-- The stream that an image is wrapped in, unless it is empty. -/
def Hyper.stream (hyper : Hyper) : StreamWrapper hyper.Body Bytes where
  new core := if core.len = 0 then hyper.empty else hyper.wrapStream (Adaptor.new core)
  pollNext := hyper.pollNext
  isEndStream := hyper.isEndStream
  image _ := none
  work := id

/-! ## The recorders -/

section Recorders

variable {http : HttpTypes} (builder : HttpBuilder http)

/-- `RequestRecorder<hyper::Body>`. `advice` is how the system call on a memory map goes, for a body
that is in one. -/
def hyperRecorder (hyper : Hyper) (advice : Except IoError Unit) :
    RequestRecorder builder hyper.Body where
  record b := builder.finish b hyper.empty .empty
  recordBody buf b := builder.finish b (hyper.ofBytes buf) (imageOf buf)
  recordBodyImage body tune b :=
    if body.len ≠ 0 then
      builder.finish b (hyper.wrapStream (Adaptor.new (ImageCore.new body tune advice))) body
    else builder.finish b hyper.empty body

/-- `RequestRecorder<SW>`, for a stream wrapper. The default tunables have this directory. -/
def streamRecorder {S B : Type} (w : StreamWrapper S B) (tempDir : TempDir)
    (advice : Except IoError Unit) : RequestRecorder builder S where
  record b :=
    builder.finish b (w.new (ImageCore.new .empty ⟨.new tempDir, .direct⟩ advice)) .empty
  recordBody buf b :=
    builder.finish b (w.new (ImageCore.new (imageOf buf) ⟨.new tempDir, .direct⟩ advice))
      (imageOf buf)
  recordBodyImage body tune b := builder.finish b (w.new (ImageCore.new body tune advice)) body

end Recorders

/-- The three ways to record a request. -/
inductive RecordCall where
  | record
  | recordBody (buf : Bytes)
  | recordBodyImage (body : BodyImage) (tune : FutioTunables)

namespace RecordCall

variable {http : HttpTypes} {builder : HttpBuilder http} {B : Type}

def run (r : RequestRecorder builder B) :
    RecordCall → builder.Builder → Except Nat (RequestRecord http B)
  | .record => r.record
  | .recordBody buf => r.recordBody buf
  | .recordBodyImage body tune => r.recordBodyImage body tune

/-- The image that is recorded. -/
def image : RecordCall → BodyImage
  | .record => .empty
  | .recordBody buf => imageOf buf
  | .recordBodyImage body _ => body

/-- The bytes that are given. -/
def Gives : RecordCall → Bytes → Prop
  | .record, bs => bs = []
  | .recordBody buf, bs => bs = buf
  | .recordBodyImage body _, bs => body.Backs bs

/-- The stream of permits has a semaphore if the call has tunables, unless the body is in RAM. -/
def Permits : RecordCall → Prop
  | .recordBodyImage body tune => body.isRam = true ∨ tune.blockingSemaphore = true
  | _ => True

end RecordCall

/-! ## What is sent -/

section Sends

variable {S B : Type} [OutputBuf B]

/-- From here on, a stream hands out these bytes: it does not panic, is pending only as its future is,
and returns no error; what it has returned are chunks that are not empty, a part of the bytes from
their start, and all of them when it has ended or says so. -/
structure SendsBody (w : StreamWrapper S B) (s₀ : S) (body : Bytes) : Prop where
  polls : ∀ {rs s}, w.Polled s₀ rs s → ∀ {cx : Context}, cx.Allowed →
    ∃ r s', w.pollNext cx s = (.ok r, s') ∧ (r = .pending → cx.answer = .pending)
  items : ∀ {rs s}, w.Polled s₀ rs s → ∃ bss, Handed rs bss ∧ bss.flatten <+: body ∧ ∀ bs ∈ bss, bs ≠ []
  clean : ∀ {rs s}, w.Polled s₀ rs s → Clean rs
  ends : ∀ {rs s}, w.Polled s₀ rs s → EndsWith body rs
  endStream : ∀ {rs s}, w.Polled s₀ rs s → ∃ b, w.isEndStream s = .ok b ∧
    (b = true → ∃ bss, Handed rs bss ∧ bss.flatten = body)

theorem DeliversBody.sends {w : StreamWrapper S B} {core : ImageCore} {body : Bytes}
    (h : DeliversBody w core body) : SendsBody w (w.new core) body where
  polls := h.polls
  items := by
    intro rs s hrs
    obtain ⟨bss, hbss, hpre, hsizes⟩ := h.items hrs
    exact ⟨bss, hbss, hpre, fun bs hbs => (hsizes bs hbs).1⟩
  clean := h.clean
  ends := h.ends
  endStream := h.endStream

end Sends

/-! ### Bodies in RAM, without permits -/

section Ram

variable {B : Type} [OutputBuf B]

theorem ImageCore.serve_isRam {c : ImageCore} (h : c.isRam = true) : (c.serve B).2.isRam = true := by
  obtain ⟨state, len, consumed, tune, advice⟩ := c
  cases state with
  | ram iter =>
    unfold ImageCore.serve
    split
    · rfl
    split
    · rfl
    cases iter <;> rfl
  | file rs => cases h
  | memMap map => cases h

/-- **An image in RAM is never waited for**, so its stream needs no semaphore. -/
theorem permitBodyImage_serves_ram : (permitBodyImage B).Serves (fun c => c.isRam = true)
    (fun s c => s = ⟨⟨c, ⟨.void⟩, []⟩, none⟩ ∧ c.isRam = true) (fun _ _ => False) where
  new h := ⟨rfl, h⟩
  poll := by
    rintro s c cx ⟨rfl, hram⟩ hcx
    have hwants : (imageService B).wants c = false := by
      show (decide (c.consumed < c.len) && !c.isRam) = false
      rw [hram]
      exact Bool.and_false _
    have hnow := @Routine.Meets.now _ _ _ _ _ (@streamRoutine_tunables B _ fun _ => True)
      StatefulArbiter _ ⟨c, ⟨.void⟩, []⟩ [] trivial hwants
    have hinner : Permitted.onInner (streamRoutine B).poll (⟨⟨c, ⟨.void⟩, []⟩, none⟩ : Permitted _) =
        ((c.serve B).1.polled, ⟨⟨(c.serve B).2, ⟨.void⟩, []⟩, none⟩) := by
      rw [Permitted.onInner, hnow]
      rfl
    have hkept := @ImageCore.serve_isRam B _ c hram
    show Step _ _ _ _ _ _ (Permitted.poll (streamRoutine B) cx _)
    unfold Permitted.poll
    rw [Prog.get_bind]
    dsimp only
    rcases hserve : c.serve B with ⟨a | e | msg, c'⟩ <;> rw [hserve] at hinner hkept
    · simp only [Res.polled] at hinner
      rw [Prog.bind_of_ok hinner]
      exact .ready hserve ⟨rfl, hkept⟩
    · exact e.elim
    · simp only [Res.polled] at hinner
      rw [Prog.bind_of_panic hinner]
      exact .panic hserve (.inl rfl)
  ended := by
    rintro s c ⟨rfl, -⟩
    exact ⟨_, rfl, id⟩
  image := by
    rintro s c c' ⟨rfl, -⟩ himage
    cases himage
    exact .inl rfl
  work hs := hs

end Ram

/-! ### Bodies of hyper -/

namespace HyperContent

/-- What contents without a stream still have. -/
def left : HyperContent → Bytes
  | .empty => []
  | .once buf => buf
  | .wrapped _ => []

/-- Contents without a stream: there is nothing, or one chunk. -/
def Plain : HyperContent → Prop
  | .empty => True
  | .once buf => buf ≠ []
  | .wrapped _ => False

theorem ofBytes_plain (buf : Bytes) :
    (HyperContent.ofBytes buf).Plain ∧ (HyperContent.ofBytes buf).left = buf := by
  unfold HyperContent.ofBytes
  split
  · next h => exact ⟨trivial, h.symm⟩
  · next h => exact ⟨h, rfl⟩

end HyperContent

section HyperBodies

variable {hyper : Hyper} {has : hyper.Body → HyperContent → Prop}

/-- **Where the polls of a body without a stream have got to.** -/
theorem plain_run (hlaw : hyper.Lawful has) {b₀ : hyper.Body} {c₀ : HyperContent} (h₀ : has b₀ c₀)
    (hplain₀ : c₀.Plain) {rs : List (Poll (StreamItem Bytes))} {b : hyper.Body}
    (h : hyper.stream.Polled b₀ rs b) :
    ∃ c, has b c ∧ c.Plain ∧ Clean rs ∧ EndsWith c₀.left rs ∧
      ∃ bss, Handed rs bss ∧ bss.flatten ++ c.left = c₀.left ∧ (∀ bs ∈ bss, bs ≠ []) ∧
        (.ready none ∈ rs → c = .empty) := by
  induction h with
  | new =>
    refine ⟨c₀, h₀, hplain₀, fun _ => List.not_mem_nil, ?_, [], rfl, rfl, fun _ h => (by cases h),
      fun hmem => absurd hmem List.not_mem_nil⟩
    intro pre post hsplit
    exact absurd hsplit.symm (by simp)
  | @poll rs b b' r _ cx hcx hpoll ih =>
    obtain ⟨c, hc, hplain, hclean, hends, bss, hbss, hleft, hsizes, hnone⟩ := ih
    have hpoll' : hyper.pollNext cx b = (.ok r, b') := hpoll
    cases c with
    | empty =>
      obtain ⟨b₁, hb₁, hc₁⟩ := hlaw.pollEmpty hc
      rw [hb₁] at hpoll'
      cases hpoll'
      have hall : bss.flatten = c₀.left := by rwa [HyperContent.left, List.append_nil] at hleft
      refine ⟨.empty, hc₁, hplain, clean_snoc hclean ?_, endsWith_snoc hends (fun _ => rfl) fun _ =>
        ⟨bss, hbss, hall⟩, bss, handed_snoc hbss rfl, hleft, hsizes, fun _ => rfl⟩
      intro e he
      cases he
    | once buf =>
      obtain ⟨b₁, hb₁, hc₁⟩ := hlaw.pollOnce hc
      rw [hb₁] at hpoll'
      cases hpoll'
      have hopen : (.ready none : Poll (StreamItem Bytes)) ∉ rs := by
        intro hmem
        cases hnone hmem
      refine ⟨.empty, hc₁, trivial, clean_snoc hclean ?_,
        endsWith_snoc hends (fun hmem => absurd hmem hopen) ?_,
        bss ++ [buf], handed_item hbss rfl, ?_, ?_, fun _ => rfl⟩
      · intro e he
        cases he
      · intro he
        cases he
      · rw [List.flatten_append, List.flatten_singleton]
        exact (List.append_nil _).trans hleft
      · intro bs hbs
        rcases List.mem_append.mp hbs with hbs | hbs
        · exact hsizes bs hbs
        · rw [List.mem_singleton.mp hbs]
          exact hplain
    | wrapped s => exact hplain.elim
  | work _ ih => exact ih

theorem plain_sends (hlaw : hyper.Lawful has) {b₀ : hyper.Body} {c₀ : HyperContent} (h₀ : has b₀ c₀)
    (hplain₀ : c₀.Plain) : SendsBody hyper.stream b₀ c₀.left where
  polls := by
    intro rs b hrs cx hcx
    obtain ⟨c, hc, hplain, -⟩ := plain_run hlaw h₀ hplain₀ hrs
    cases c with
    | empty =>
      obtain ⟨b', hb', -⟩ := hlaw.pollEmpty hc
      exact ⟨_, b', hb', fun h => by cases h⟩
    | once buf =>
      obtain ⟨b', hb', -⟩ := hlaw.pollOnce hc
      exact ⟨_, b', hb', fun h => by cases h⟩
    | wrapped s => exact hplain.elim
  items := by
    intro rs b hrs
    obtain ⟨c, -, -, -, -, bss, hbss, hleft, hsizes, -⟩ := plain_run hlaw h₀ hplain₀ hrs
    exact ⟨bss, hbss, ⟨c.left, hleft⟩, hsizes⟩
  clean hrs := by
    obtain ⟨c, -, -, hclean, -⟩ := plain_run hlaw h₀ hplain₀ hrs
    exact hclean
  ends hrs := by
    obtain ⟨c, -, -, -, hends, -⟩ := plain_run hlaw h₀ hplain₀ hrs
    exact hends
  endStream := by
    intro rs b hrs
    obtain ⟨c, hc, -, -, -, bss, hbss, hleft, -⟩ := plain_run hlaw h₀ hplain₀ hrs
    obtain ⟨e, he, hempty⟩ := hlaw.isEndStream hc
    refine ⟨e, he, fun htrue => ⟨bss, hbss, ?_⟩⟩
    rwa [hempty htrue, HyperContent.left, List.append_nil] at hleft

/-- A body with a stream is polled as the stream is. -/
theorem wrapped_run (hlaw : hyper.Lawful has) {b₀ : hyper.Body} {s₀ : AsyncBodyImage LenientArbiter}
    (h₀ : has b₀ (.wrapped s₀)) {rs : List (Poll (StreamItem Bytes))} {b : hyper.Body}
    (h : hyper.stream.Polled b₀ rs b) :
    ∃ s, has b (.wrapped s) ∧ (asyncBodyImage Bytes).Polled s₀ rs s := by
  induction h with
  | new => exact ⟨s₀, h₀, .new⟩
  | @poll rs b b' r _ cx hcx hpoll ih =>
    obtain ⟨s, hs, hrs⟩ := ih
    obtain ⟨b₁, hb₁, hs₁⟩ := hlaw.pollWrapped hs
    obtain ⟨hr, rfl⟩ := Prod.mk.inj (hb₁.symm.trans hpoll)
    exact ⟨_, hs₁, .poll hrs cx hcx (Prod.ext hr rfl)⟩
  | work _ ih => exact ih

theorem wrapped_sends (hlaw : hyper.Lawful has) {b₀ : hyper.Body} {s₀ : AsyncBodyImage LenientArbiter}
    (h₀ : has b₀ (.wrapped s₀)) {body : Bytes} (h : SendsBody (asyncBodyImage Bytes) s₀ body) :
    SendsBody hyper.stream b₀ body where
  polls := by
    intro rs b hrs cx hcx
    obtain ⟨s, hb, hs⟩ := wrapped_run hlaw h₀ hrs
    obtain ⟨r, s', hpoll, hwaits⟩ := h.polls hs hcx
    have hpoll' : AsyncBodyImage.pollNext Bytes cx s = (.ok r, s') := hpoll
    obtain ⟨b', hb', -⟩ := hlaw.pollWrapped hb
    rw [hpoll'] at hb'
    exact ⟨r, b', hb', hwaits⟩
  items hrs := by
    obtain ⟨s, -, hs⟩ := wrapped_run hlaw h₀ hrs
    exact h.items hs
  clean hrs := by
    obtain ⟨s, -, hs⟩ := wrapped_run hlaw h₀ hrs
    exact h.clean hs
  ends hrs := by
    obtain ⟨s, -, hs⟩ := wrapped_run hlaw h₀ hrs
    exact h.ends hs
  endStream hrs := by
    obtain ⟨s, hb, hs⟩ := wrapped_run hlaw h₀ hrs
    obtain ⟨e, he, hempty⟩ := hlaw.isEndStream hb
    refine ⟨e, he, fun htrue => ?_⟩
    cases hempty htrue

end HyperBodies

/-! ## What is recorded -/

/-- A recorder for a call, with the stream that its bodies are: hyper's own, or any of an image. -/
inductive Records {http : HttpTypes} (builder : HttpBuilder http) (call : RecordCall) :
    (S B : Type) → [OutputBuf B] → StreamWrapper S B → RequestRecorder builder S → Prop
  | hyper (hyper : Hyper) {has : hyper.Body → HyperContent → Prop} (hlaw : hyper.Lawful has) :
      Records builder call hyper.Body Bytes hyper.stream (hyperRecorder builder hyper (.ok ()))
  | direct (B : Type) [OutputBuf B] (tempDir : TempDir) : Records builder call _ B (asyncBodyImage B)
      (streamRecorder builder (asyncBodyImage B) tempDir (.ok ()))
  | permit (B : Type) [OutputBuf B] (tempDir : TempDir) (h : call.Permits) :
      Records builder call _ B (permitBodyImage B)
        (streamRecorder builder (permitBodyImage B) tempDir (.ok ()))
  | dispatch (B : Type) [OutputBuf B] (tempDir : TempDir) :
      Records builder call _ B (dispatchBodyImage B)
        (streamRecorder builder (dispatchBodyImage B) tempDir (.ok ()))

theorem imageOf_backs (buf : Bytes) : (imageOf buf).Backs buf ∧ (imageOf buf).isRam = true := by
  unfold imageOf
  split
  · next h =>
    subst h
    exact ⟨⟨rfl, rfl, by simp⟩, rfl⟩
  · refine ⟨BodyImage.fromSlice_backs buf, ?_⟩
    unfold BodyImage.fromSlice
    split <;> rfl

/-- What is given is what the image that is recorded has. -/
theorem RecordCall.Gives.backs {call : RecordCall} {body : Bytes} (h : call.Gives body) :
    call.image.Backs body := by
  cases call with
  | record =>
    cases h
    exact ⟨rfl, rfl, by simp⟩
  | recordBody buf =>
    rw [show body = buf from h]
    exact (imageOf_backs buf).1
  | recordBodyImage im tune => exact h

/-- The stream of permits delivers an image in RAM, or any image with a semaphore. -/
theorem permit_delivers {B : Type} [OutputBuf B] {im : BodyImage} {body : Bytes} (him : im.Backs body)
    {tune : FutioTunables} (h : im.isRam = true ∨ tune.blockingSemaphore = true) :
    DeliversBody (permitBodyImage B) (ImageCore.new im tune (.ok ())) body := by
  rcases h with hram | hsemaphore
  · refine permitBodyImage_serves_ram.delivers ?_ (ImageCore.new_left him tune (.ok ())) rfl
    obtain ⟨state, len⟩ := im
    cases state with
    | ram v => rfl
    | _ => cases hram
  · exact (IsBodyStream.permit hsemaphore).delivers him

section Recorded

variable {http : HttpTypes} {builder : HttpBuilder http} {call : RecordCall} {S B : Type}
  [OutputBuf B] {w : StreamWrapper S B} {recorder : RequestRecorder builder S}

theorem finish_eq_ok {T : Type} {b : builder.Builder} {body : T} {im : BodyImage}
    {r : RequestRecord http T} (h : builder.finish b body im = .ok r) :
    ∃ head, builder.head b = .ok head ∧
      r = ⟨head, body, ⟨head.method, head.uri, head.headers, im⟩⟩ := by
  obtain ⟨head, hb, hr⟩ := except_bind_eq_ok.mp h
  cases hr
  exact ⟨head, hb, rfl⟩

/-- A recorder of streams finishes the builder with the stream of the image that it records. -/
theorem streamRecorder_sends {tempDir : TempDir} {b : builder.Builder} {r : RequestRecord http S}
    {body : Bytes} (hrun : call.run (streamRecorder builder w tempDir (.ok ())) b = .ok r)
    (him : call.image.Backs body)
    (hw : ∀ tune : FutioTunables,
      (call.Permits → call.image.isRam = true ∨ tune.blockingSemaphore = true) →
      DeliversBody w (ImageCore.new call.image tune (.ok ())) body) :
    builder.head b = .ok r.head ∧
      r.prolog = ⟨r.head.method, r.head.uri, r.head.headers, call.image⟩ ∧
      call.image.Backs body ∧ SendsBody w r.body body := by
  have hfinish : ∃ tune : FutioTunables,
      (call.Permits → call.image.isRam = true ∨ tune.blockingSemaphore = true) ∧
      builder.finish b (w.new (ImageCore.new call.image tune (.ok ()))) call.image = .ok r := by
    cases call with
    | record => exact ⟨_, fun _ => .inl rfl, hrun⟩
    | recordBody buf => exact ⟨_, fun _ => .inl (imageOf_backs buf).2, hrun⟩
    | recordBodyImage im tune => exact ⟨tune, id, hrun⟩
  obtain ⟨tune, htune, hfinish⟩ := hfinish
  obtain ⟨head, hb, rfl⟩ := finish_eq_ok hfinish
  exact ⟨hb, rfl, him, (hw tune htune).sends⟩

/-- The recorder of hyper's bodies makes a stream only of an image that has a byte. -/
theorem hyperRecorder_sends {hyper : Hyper} {has : hyper.Body → HyperContent → Prop}
    (hlaw : hyper.Lawful has) {b : builder.Builder} {r : RequestRecord http hyper.Body} {body : Bytes}
    (hrun : call.run (hyperRecorder builder hyper (.ok ())) b = .ok r) (hbody : call.Gives body) :
    builder.head b = .ok r.head ∧
      r.prolog = ⟨r.head.method, r.head.uri, r.head.headers, call.image⟩ ∧
      call.image.Backs body ∧ SendsBody hyper.stream r.body body := by
  have him := hbody.backs
  have hempty : SendsBody hyper.stream hyper.empty [] := plain_sends hlaw hlaw.empty trivial
  cases call with
  | record =>
    obtain ⟨head, hb, rfl⟩ := finish_eq_ok hrun
    rw [show body = [] from hbody] at him ⊢
    exact ⟨hb, rfl, him, hempty⟩
  | recordBody buf =>
    obtain ⟨head, hb, rfl⟩ := finish_eq_ok hrun
    rw [show body = buf from hbody] at him ⊢
    obtain ⟨hplain, hleft⟩ := HyperContent.ofBytes_plain buf
    have hsends := plain_sends hlaw (hlaw.ofBytes buf) hplain
    rw [hleft] at hsends
    exact ⟨hb, rfl, him, hsends⟩
  | recordBodyImage im tune =>
    have hrun' : (if im.len ≠ 0 then
        builder.finish b (hyper.wrapStream (Adaptor.new (ImageCore.new im tune (.ok ())))) im
      else builder.finish b hyper.empty im) = .ok r := hrun
    split at hrun'
    · obtain ⟨head, hb, rfl⟩ := finish_eq_ok hrun'
      exact ⟨hb, rfl, him,
        wrapped_sends hlaw (hlaw.wrapStream _) (IsBodyStream.direct.delivers him).sends⟩
    · next hlen =>
      obtain ⟨head, hb, rfl⟩ := finish_eq_ok hrun'
      have hnil : body = [] := by
        have hlength := him.1
        exact List.length_eq_zero_iff.mp (hlength.symm.trans (not_not.mp hlen))
      subst hnil
      exact ⟨hb, rfl, him, hempty⟩

/-- **What is recorded is what is sent.** For every recorder and every way to give it a body: the
prolog has the head of the request and an image of the body, and the body that is sent hands out the
same bytes. -/
theorem recorded_is_sent (hrecords : Records builder call S B w recorder) {b : builder.Builder}
    {r : RequestRecord http S} (hrun : call.run recorder b = .ok r) {body : Bytes}
    (hbody : call.Gives body) :
    builder.head b = .ok r.head ∧
      r.prolog = ⟨r.head.method, r.head.uri, r.head.headers, call.image⟩ ∧
      call.image.Backs body ∧ SendsBody w r.body body := by
  have him := hbody.backs
  cases hrecords with
  | hyper hyper hlaw => exact hyperRecorder_sends hlaw hrun hbody
  | direct B tempDir =>
    exact streamRecorder_sends hrun him fun tune _ => IsBodyStream.direct.delivers him
  | permit B tempDir h =>
    exact streamRecorder_sends hrun him fun tune htune => permit_delivers him (htune h)
  | dispatch B tempDir =>
    exact streamRecorder_sends hrun him fun tune _ => IsBodyStream.dispatch.delivers him

end Recorded

namespace Sample

/-- A builder of heads, with the first error of a part. -/
def httpBuilder (http : HttpTypes) : HttpBuilder http where
  Builder := Except Nat (RequestHead http)
  new := do
    let method ← http.method (ascii "GET")
    let uri ← http.uri (ascii "/")
    return ⟨method, uri, .empty⟩
  method text b := do
    let head ← b
    let method ← http.method text
    return { head with method := method }
  uri text b := do
    let head ← b
    let uri ← http.uri text
    return { head with uri := uri }
  header name text b := do
    let head ← b
    match http.valueOfStr text with
    | some value => return { head with headers := head.headers.append name value }
    | none => throw 0
  head b := b

/-- Bodies that are their contents. -/
def hyper : Hyper where
  Body := HyperContent
  empty := .empty
  ofBytes := .ofBytes
  wrapStream := .wrapped
  pollNext cx := fun b =>
    match b with
    | .empty => (.ok (.ready none), .empty)
    | .once buf => (.ok (.ready (some (.ok buf))), .empty)
    | .wrapped s =>
      ((AsyncBodyImage.pollNext Bytes cx s).1, .wrapped (AsyncBodyImage.pollNext Bytes cx s).2)
  isEndStream b :=
    match b with
    | .empty => .ok true
    | _ => .ok false

theorem hyper_lawful : hyper.Lawful fun b c => b = c where
  empty := rfl
  ofBytes _ := rfl
  wrapStream _ := rfl
  pollEmpty := by
    rintro b cx rfl
    exact ⟨_, rfl, rfl⟩
  pollOnce := by
    rintro b cx buf rfl
    exact ⟨_, rfl, rfl⟩
  pollWrapped := by
    rintro b cx s rfl
    exact ⟨_, rfl, rfl⟩
  isEndStream := by
    rintro b c rfl
    cases b with
    | empty => exact ⟨true, rfl, fun _ => rfl⟩
    | once buf => exact ⟨false, rfl, fun h => by cases h⟩
    | wrapped s => exact ⟨false, rfl, fun h => by cases h⟩

/-- The head of a request that is posted. -/
def postedHead : RequestHead sampleHttp :=
  ⟨(Sample.dialog .http11 []).pro.method, (Sample.dialog .http11 []).pro.url, .empty⟩

end Sample

/-- Two bytes, recorded with a body of hyper, and with the stream that waits for permits and the
default tunables. -/
theorem posted_recorded :
    (∃ r : RequestRecord sampleHttp HyperContent,
      RecordCall.run (hyperRecorder (Sample.httpBuilder sampleHttp) Sample.hyper (.ok ()))
        (.recordBody [65, 66]) (.ok Sample.postedHead) = .ok r ∧
      r.prolog.reqBody = .fromSlice [65, 66] ∧ SendsBody Sample.hyper.stream r.body [65, 66]) ∧
    ∃ r : RequestRecord sampleHttp PermitBodyImage,
      RecordCall.run (streamRecorder (Sample.httpBuilder sampleHttp) (permitBodyImage Bytes)
        Tunables.calmDir (.ok ())) (.recordBody [65, 66]) (.ok Sample.postedHead) = .ok r ∧
      r.prolog.reqBody = .fromSlice [65, 66] ∧ SendsBody (permitBodyImage Bytes) r.body [65, 66] := by
  have hgives : (RecordCall.recordBody [65, 66]).Gives [65, 66] := rfl
  constructor
  · have hrecords : Records (Sample.httpBuilder sampleHttp) (.recordBody [65, 66]) _ Bytes
        Sample.hyper.stream _ := .hyper Sample.hyper Sample.hyper_lawful
    have hrun : RecordCall.run (hyperRecorder (Sample.httpBuilder sampleHttp) Sample.hyper (.ok ()))
        (.recordBody [65, 66]) (.ok Sample.postedHead) = .ok _ := rfl
    obtain ⟨-, -, -, hsends⟩ := recorded_is_sent hrecords hrun hgives
    exact ⟨_, hrun, rfl, hsends⟩
  · have hrecords : Records (Sample.httpBuilder sampleHttp) (.recordBody [65, 66]) _ Bytes
        (permitBodyImage Bytes) _ := .permit Bytes Tunables.calmDir trivial
    have hrun : RecordCall.run (streamRecorder (Sample.httpBuilder sampleHttp) (permitBodyImage Bytes)
        Tunables.calmDir (.ok ())) (.recordBody [65, 66]) (.ok Sample.postedHead) = .ok _ := rfl
    obtain ⟨-, -, -, hsends⟩ := recorded_is_sent hrecords hrun hgives
    exact ⟨_, hrun, rfl, hsends⟩

end BodyArchive
