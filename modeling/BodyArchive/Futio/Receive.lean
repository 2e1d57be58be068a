import BodyArchive.Futio.Forward
import BodyArchive.Futio.Decode

/-!
# Receiving a response

`request_dialog` sends a request and collects the response to it in a dialog: it looks at the
Content-Length of the response for where the body is to go, forwards the body to a sink of the
blocking policy, and prepares the sink. What *hyper* does is a parameter: whether there is a
response, the chunks its body comes in, and the error that may end it. A timeout may end the request
at any point, if there is one.

However it goes, there is a dialog with the whole of the body, or an error that says what was wrong
(`request_dialog_whole`).
-/

namespace BodyArchive

/-! ## From a request to a dialog -/

/-- The errors of a request: `FutioError`, and those of its variants that only requests have. -/
inductive RequestError where
  | futio (e : FutioError)
  | responseTimeout (after : Nat)
  | bodyTimeout (after : Nat)
  | contentLengthTooLong (len : Nat)
  | hyper (code : Nat)
  | other (code : Nat)
  deriving DecidableEq, Repr

/-- `hyper::Body`: the chunks to come, and the error it ends with, if it does. -/
structure Incoming where
  chunks : List Bytes
  fault : Option Nat
  deriving DecidableEq, Repr

/-- A poll of a body returns the next chunk, whenever it is there. -/
inductive Incoming.PollNext :
    Incoming → Poll (Option (Except RequestError Bytes)) → Incoming → Prop
  | pending (b : Incoming) : PollNext b .pending b
  | chunk (c : Bytes) (cs : List Bytes) (fault : Option Nat) :
      PollNext ⟨c :: cs, fault⟩ (.ready (some (.ok c))) ⟨cs, fault⟩
  | done : PollNext ⟨[], none⟩ (.ready none) ⟨[], none⟩
  | broken (code : Nat) :
      PollNext ⟨[], some code⟩ (.ready (some (.error (.hyper code)))) ⟨[], some code⟩

def Incoming.supply : Supply Incoming RequestError where
  poll := PollNext
  idle b b' := b' = b

variable (http : HttpTypes)

/-- `http::Response`. -/
structure Response where
  version : Version
  status : http.StatusCode
  headers : HeaderMap
  body : Incoming

/-- An HTTP request with response in progress of being received. -/
structure InDialog where
  prolog : Prolog http
  version : Version
  status : http.StatusCode
  resHeaders : HeaderMap
  resBody : BodySink

/-- `FutioTunables`, with the timeouts. -/
structure RequestTunables extends FutioTunables where
  resTimeout : Option Nat
  bodyTimeout : Option Nat

/-- The sink that the Content-Length of a response asks for, which *hyperx* has parsed. -/
def bodySinkFor (tune : Tunables) (contentLength : Option (Except Nat Nat)) :
    Except RequestError BodySink :=
  match contentLength with
  | some (.ok l) =>
    if tune.maxBody < l then .error (.contentLengthTooLong l)
    else if tune.maxBodyRam < l then
      (BodySink.withFs tune.tempDir).mapError fun e => .futio (.body (.io e))
    else .ok (BodySink.withRam l)
  | some (.error e) => .error (.other e)
  | none => .ok (BodySink.withRam tune.maxBodyRam)

/-- The sink of a policy. -/
inductive SinkOf : BlockingPolicy → {K : Type} → SinkWrapper K → Prop
  | direct : SinkOf .direct asyncBodySink
  | permit : SinkOf .permit permitBodySink
  | dispatch : SinkOf .dispatch dispatchBodySink

section Request

variable {http} (dec : Decoders) (contentLength : HeaderMap → Option (Except Nat Nat))
  (tune : RequestTunables) (script : List SendAttempt) (fault : Option IoError)

/-- `InDialog::prepare`. -/
def InDialog.prepare (d : InDialog http) : Except RequestError (Dialog http) := do
  let resDecoded := if findChunked dec d.resHeaders then [.chunked] else []
  let resBody ← (d.resBody.prepare fault).mapError fun e => .futio (.body e)
  return ⟨d.prolog, ⟨d.version, d.status, d.resHeaders, resBody, resDecoded⟩⟩

/-- How `resp_future` can end: by forwarding the body to the sink of the policy. -/
inductive RespFuture (pro : Prolog http) (res : Response http) :
    Res RequestError (InDialog http) → Prop
  | refused {e : RequestError} (h : bodySinkFor tune.image (contentLength res.headers) = .error e) :
      RespFuture pro res (.err e)
  | received {bsink body : BodySink} {K : Type} {w : SinkWrapper K} {sent : List Bytes}
      {clear : Bool} {s : Incoming} {k k' : K} {cx : Context}
      (hsink : bodySinkFor tune.image (contentLength res.headers) = .ok bsink)
      (hw : SinkOf tune.blockingPolicy w)
      (h : Forwards Incoming.supply w res.body (w.new (SinkCore.new bsink tune.toFutioTunables script))
        sent true sent clear s k)
      (hcx : cx.Allowed) (hclose : w.poll .close cx k = (.ok (.ready (.ok ())), k'))
      (hinner : w.intoInner k' = .ok body) :
      RespFuture pro res (.ok ⟨pro, res.version, res.status, res.headers, body⟩)
  | broken {bsink : BodySink} {K : Type} {w : SinkWrapper K} {got sent : List Bytes}
      {ended clear : Bool} {s s' : Incoming} {k : K} {e : RequestError}
      (hsink : bodySinkFor tune.image (contentLength res.headers) = .ok bsink)
      (hw : SinkOf tune.blockingPolicy w)
      (h : Forwards Incoming.supply w res.body (w.new (SinkCore.new bsink tune.toFutioTunables script))
        got ended sent clear s k)
      (hpoll : s.PollNext (.ready (some (.error e))) s') :
      RespFuture pro res (.err e)
  | rejected {bsink : BodySink} {K : Type} {w : SinkWrapper K} {got sent : List Bytes}
      {ended clear : Bool} {s : Incoming} {k k' : K} {call : SinkCall} {cx : Context} {e : FutioError}
      (hsink : bodySinkFor tune.image (contentLength res.headers) = .ok bsink)
      (hw : SinkOf tune.blockingPolicy w)
      (h : Forwards Incoming.supply w res.body (w.new (SinkCore.new bsink tune.toFutioTunables script))
        got ended sent clear s k)
      (hcx : cx.Allowed) (hpoll : w.poll call cx k = (.ok (.ready (.error e)), k') ∨
        (clear = true ∧ ∃ b, w.startSend b k = (.ok (.error e), k'))) :
      RespFuture pro res (.err (.futio e))
  | panicked {bsink : BodySink} {K : Type} {w : SinkWrapper K} {got sent : List Bytes}
      {ended clear : Bool} {s : Incoming} {k k' : K} {call : SinkCall} {cx : Context} {msg : String}
      (hsink : bodySinkFor tune.image (contentLength res.headers) = .ok bsink)
      (hw : SinkOf tune.blockingPolicy w)
      (h : Forwards Incoming.supply w res.body (w.new (SinkCore.new bsink tune.toFutioTunables script))
        got ended sent clear s k)
      (hcx : cx.Allowed) (hpoll : w.poll call cx k = (.panic msg, k') ∨
        (clear = true ∧ ∃ b, w.startSend b k = (.panic msg, k')) ∨
        (ended = true ∧ sent = got ∧ w.poll .close cx k = (.ok (.ready (.ok ())), k') ∧
          w.intoInner k' = .panic msg)) :
      RespFuture pro res (.panic msg)

/-- How `request_dialog` can end, when the request is answered by a response or an error. -/
inductive RequestDialog (pro : Prolog http) (answer : Except Nat (Response http)) :
    Res RequestError (Dialog http) → Prop
  | failed {code : Nat} (h : answer = .error code) : RequestDialog pro answer (.err (.hyper code))
  | responseTimeout {t : Nat} (h : tune.resTimeout = some t) :
      RequestDialog pro answer (.err (.responseTimeout t))
  | bodyTimeout {res : Response http} {t : Nat} (hres : answer = .ok res)
      (h : tune.bodyTimeout = some t) : RequestDialog pro answer (.err (.bodyTimeout t))
  | unanswered {res : Response http} {e : RequestError} (hres : answer = .ok res)
      (h : RespFuture contentLength tune script pro res (.err e)) : RequestDialog pro answer (.err e)
  | panicked {res : Response http} {msg : String} (hres : answer = .ok res)
      (h : RespFuture contentLength tune script pro res (.panic msg)) :
      RequestDialog pro answer (.panic msg)
  | prepared {res : Response http} {d : InDialog http} (hres : answer = .ok res)
      (h : RespFuture contentLength tune script pro res (.ok d)) :
      RequestDialog pro answer (.ofExcept (d.prepare dec fault))

end Request

/-! ## The body on its way -/

/-- The length that a response declares. -/
def declared (contentLength : Option (Except Nat Nat)) : Nat :=
  match contentLength with
  | some (.ok l) => l
  | _ => 0

theorem sound_withRam (n : Nat) : (BodySink.withRam n).Sound := by
  rw [BodySink.withRam_eq]
  exact BodySink.sound_ram_nil

/-- The sink is empty, and in RAM if what is declared is within the limit. -/
theorem bodySinkFor_ok {tune : Tunables} {cl : Option (Except Nat Nat)} {bsink : BodySink}
    (h : bodySinkFor tune cl = .ok bsink) :
    bsink.Sound ∧ bsink.held = [] ∧ (bsink.isRam = true ↔ declared cl ≤ tune.maxBodyRam) := by
  have hram (n : Nat) : (BodySink.withRam n).Sound ∧ (BodySink.withRam n).held = [] ∧
      (BodySink.withRam n).isRam = true := by
    refine ⟨sound_withRam n, ?_⟩
    rw [BodySink.withRam_eq]
    exact ⟨rfl, rfl⟩
  unfold bodySinkFor at h
  split at h
  · next l =>
    split at h
    · cases h
    split at h
    · next hlong =>
      cases hfs : BodySink.withFs tune.tempDir with
      | error e =>
        rw [hfs] at h
        cases h
      | ok s =>
        rw [hfs] at h
        cases h
        obtain ⟨hsound, hheld⟩ := BodySink.sound_withFs hfs
        refine ⟨hsound, hheld, fun hfile => ?_, fun hle => absurd hlong (Nat.not_lt.mpr hle)⟩
        unfold BodySink.withFs at hfs
        split at hfs <;> cases hfs
        cases hfile
    · next hshort =>
      cases h
      obtain ⟨hsound, hheld, hisRam⟩ := hram l
      exact ⟨hsound, hheld, fun _ => Nat.not_lt.mp hshort, fun _ => hisRam⟩
  · cases h
  · cases h
    obtain ⟨hsound, hheld, hisRam⟩ := hram tune.maxBodyRam
    exact ⟨hsound, hheld, fun _ => Nat.zero_le _, fun _ => hisRam⟩

theorem bodySinkFor_len {tune : Tunables} {cl : Option (Except Nat Nat)} {bsink : BodySink}
    (h : bodySinkFor tune cl = .ok bsink) : bsink.len = 0 := by
  obtain ⟨hsound, hheld, -⟩ := bodySinkFor_ok h
  rw [hsound.len_eq, hheld]
  rfl

/-- Only the rewind of a file can fail. -/
theorem prepare_error {s : BodySink} {fault : Option IoError} {e : BodyError}
    (h : s.prepare fault = .error e) : ∃ e', fault = some e' ∧ e = .io e' := by
  obtain ⟨state, len⟩ := s
  unfold BodySink.prepare at h
  cases state with
  | ram v => cases h
  | fsWrite f =>
    by_cases hz : len = 0
    · simp only [if_pos hz] at h
      cases h
    · simp only [if_neg hz] at h
      cases fault with
      | some e' =>
        cases h
        exact ⟨e', rfl, rfl⟩
      | none => cases h

/-- An image is in RAM if its sink was, or if it is empty. -/
theorem prepare_isRam {s : BodySink} {fault : Option IoError} {im : BodyImage}
    (h : s.prepare fault = .ok im) : im.isRam = true ↔ s.isRam = true ∨ s.len = 0 := by
  obtain ⟨state, len⟩ := s
  unfold BodySink.prepare at h
  cases state with
  | ram v =>
    cases h
    exact ⟨fun _ => .inl rfl, fun _ => rfl⟩
  | fsWrite f =>
    by_cases hz : len = 0
    · simp only [if_pos hz] at h
      cases h
      exact ⟨fun _ => .inr hz, fun _ => rfl⟩
    · simp only [if_neg hz] at h
      cases fault with
      | some e => cases h
      | none =>
        cases h
        refine ⟨fun hram => ?_, fun hor => ?_⟩
        · cases hram
        · rcases hor with hram | hlen
          · cases hram
          · exact absurd hlen hz

/-- The chunks that have been returned come before those to come. -/
theorem Forwards.incoming {K : Type} {w : SinkWrapper K} {b s : Incoming} {k₀ k : K}
    {got sent : List Bytes} {ended clear : Bool}
    (h : Forwards Incoming.supply w b k₀ got ended sent clear s k) :
    b.chunks = got ++ s.chunks ∧ s.fault = b.fault ∧
      (ended = true → s.chunks = [] ∧ b.fault = none) := by
  induction h with
  | start => exact ⟨rfl, rfl, fun hended => by cases hended⟩
  | item _ b hpoll ih =>
    obtain ⟨hchunks, hfault, -⟩ := ih
    cases hpoll
    exact ⟨by rw [hchunks]; simp, hfault, fun hended => by cases hended⟩
  | ends _ hpoll ih =>
    obtain ⟨hchunks, hfault, -⟩ := ih
    cases hpoll
    exact ⟨hchunks, hfault, fun _ => ⟨rfl, hfault.symm⟩⟩
  | waits _ hpoll ih =>
    cases hpoll
    exact ih
  | idle _ hidle ih =>
    cases hidle
    exact ih
  | poll _ call cx hcx hpoll hp ih => exact ih
  | send _ _ ih => exact ih
  | work _ ih => exact ih

/-- The sink of the policy of some tunables is one that a body can be forwarded to. -/
theorem SinkOf.isBodySink {tune : FutioTunables} {K : Type} {w : SinkWrapper K}
    (h : SinkOf tune.blockingPolicy w) : IsBodySink tune w := by
  obtain ⟨image, policy⟩ := tune
  cases h with
  | direct => exact .direct
  | permit => exact .permit rfl
  | dispatch => exact .dispatch

/-! ## What a request comes to -/

section Whole

variable {http} {dec : Decoders} {contentLength : HeaderMap → Option (Except Nat Nat)}
  {tune : RequestTunables} {script : List SendAttempt} {fault : Option IoError}

/-- The dialog has the whole response, with its body in RAM or in a file as the limits and the
declared length have it. -/
structure Whole (dec : Decoders) (contentLength : HeaderMap → Option (Except Nat Nat))
    (tune : Tunables) (pro : Prolog http) (res : Response http) (d : Dialog http) : Prop where
  complete : res.body.fault = none
  pro_eq : d.pro = pro
  version_eq : d.epi.version = res.version
  status_eq : d.epi.status = res.status
  headers_eq : d.epi.resHeaders = res.headers
  body : d.epi.resBody.Backs res.body.chunks.flatten
  body_le : res.body.chunks.flatten.length ≤ tune.maxBody
  isRam_iff : d.epi.resBody.isRam = true ↔ res.body.chunks.flatten.length ≤
    if tune.maxBodyRam < declared (contentLength res.headers) then 0 else tune.maxBodyRam
  decoded_eq : d.epi.resDecoded = if findChunked dec res.headers then [.chunked] else []

/-- What was wrong when a request has failed. -/
def Caused (contentLength : HeaderMap → Option (Except Nat Nat)) (tune : RequestTunables)
    (script : List SendAttempt) (fault : Option IoError) (answer : Except Nat (Response http)) :
    RequestError → Prop
  | .responseTimeout t => tune.resTimeout = some t
  | .bodyTimeout t => tune.bodyTimeout = some t
  | .hyper code => answer = .error code ∨ ∃ res, answer = .ok res ∧ res.body.fault = some code
  | .contentLengthTooLong l => ∃ res, answer = .ok res ∧
      contentLength res.headers = some (.ok l) ∧ tune.image.maxBody < l
  | .other code => ∃ res, answer = .ok res ∧ contentLength res.headers = some (.error code)
  | .futio (.body (.bodyTooLong n)) => ∃ res k, answer = .ok res ∧
      n = (res.body.chunks.take k).flatten.length ∧ tune.image.maxBody < n
  | .futio (.body (.io e)) => ¬ tune.toFutioTunables.Calm script ∨ fault = some e
  | .futio _ => False

/-- A sink that was not made has its cause. -/
theorem bodySinkFor_error {res : Response http} {e : RequestError}
    (h : bodySinkFor tune.image (contentLength res.headers) = .error e) :
    Caused contentLength tune script fault (.ok res) e := by
  unfold bodySinkFor at h
  split at h
  · next l hl =>
    split at h
    · next hlong =>
      cases h
      exact ⟨res, rfl, hl, hlong⟩
    split at h
    · unfold BodySink.withFs at h
      cases hd : tempfileIn tune.image.tempDir with
      | error e' =>
        rw [hd] at h
        cases h
        refine .inl ?_
        rintro ⟨⟨env, henv⟩, -⟩
        rw [henv] at hd
        cases hd
      | ok f =>
        rw [hd] at h
        cases h
    · cases h
  · next e' he =>
    cases h
    exact ⟨res, rfl, he⟩
  · cases h

/-- The sink that a response is received in starts empty. -/
theorem bodySinkFor_takesAll {cl : Option (Except Nat Nat)} {bsink : BodySink}
    (hsink : bodySinkFor tune.image cl = .ok bsink) {K : Type} {w : SinkWrapper K}
    (hw : SinkOf tune.blockingPolicy w)
    (hio : (SinkCore.new .empty tune.toFutioTunables script).Uninterrupted) :
    TakesAll w tune.toFutioTunables script bsink := by
  have hlen := bodySinkFor_len hsink
  have hwithin : bsink.Within tune.image :=
    ⟨hlen ▸ Nat.zero_le _, fun _ => hlen ▸ Nat.zero_le _⟩
  exact hw.isBodySink.takesAll hwithin (bodySinkFor_ok hsink).1 hio

/-- **How receiving a response ends.** -/
theorem respFuture_ends (hio : (SinkCore.new .empty tune.toFutioTunables script).Uninterrupted)
    {pro : Prolog http} {res : Response http} {x : Res RequestError (InDialog http)}
    (h : RespFuture contentLength tune script pro res x) :
    (∃ bsink body, bodySinkFor tune.image (contentLength res.headers) = .ok bsink ∧
      x = .ok ⟨pro, res.version, res.status, res.headers, body⟩ ∧ res.body.fault = none ∧
      res.body.chunks.flatten.length ≤ tune.image.maxBody ∧ body.Sound ∧
      body.Extends tune.image bsink res.body.chunks) ∨
    ∃ e, x = .err e ∧ Caused contentLength tune script fault (.ok res) e := by
  cases h with
  | refused h => exact .inr ⟨_, rfl, bodySinkFor_error h⟩
  | received hsink hw h hcx hclose hinner =>
    have hlen := bodySinkFor_len hsink
    have hk := bodySinkFor_takesAll hsink hw hio
    obtain ⟨hchunks, -, hend⟩ := h.incoming
    obtain ⟨hnil, hfault⟩ := hend rfl
    rw [hnil, List.append_nil] at hchunks
    obtain ⟨hfits, sink, -, hinner', hext, -⟩ := hk.ready h.session hcx hclose
    obtain ⟨sink', hinner'', hsound⟩ := hk.sound h.session hcx hclose
    rw [hinner] at hinner' hinner''
    cases hinner'
    cases hinner''
    rw [hlen, Nat.zero_add, ← hchunks] at hfits
    rw [← hchunks] at hext
    exact .inl ⟨_, _, hsink, rfl, hfault, hfits, hsound, hext⟩
  | broken hsink hw h hpoll =>
    obtain ⟨-, hfault, -⟩ := h.incoming
    cases hpoll
    exact .inr ⟨_, rfl, .inr ⟨res, rfl, hfault.symm⟩⟩
  | @rejected _ _ _ got sent _ _ _ _ _ call cx e hsink hw h hcx hpoll =>
    have hlen := bodySinkFor_len hsink
    have hk := bodySinkFor_takesAll hsink hw hio
    refine .inr ⟨_, rfl, ?_⟩
    rcases hpoll with hpoll | ⟨rfl, b, hsend⟩
    swap
    · obtain ⟨k₁, hk₁⟩ := hk.send h.session b
      rw [hsend] at hk₁
      cases hk₁
    rcases Nat.lt_or_ge tune.image.maxBody (_ + sent.flatten.length) with hover | hfits
    · -- Too much has been sent, and it is the chunks so far.
      obtain ⟨-, -, _, _, -, -, hlong, -⟩ := hk.exceeds h.session hover call hcx
      rw [hpoll] at hlong
      cases hlong
      obtain ⟨hchunks, -, -⟩ := h.incoming
      obtain ⟨rest, hgot⟩ := h.prefix_got
      refine ⟨res, sent.length, rfl, ?_, hover⟩
      rw [hchunks, ← hgot, List.append_assoc, List.take_left, hlen, Nat.zero_add]
    · obtain ⟨p, k₁, hp, hcases⟩ := hk.fits h.session hfits call hcx
      rw [hpoll] at hp
      cases hp
      rcases hcases with ⟨hpending, -⟩ | ⟨hready, -⟩ | ⟨e', he, hbad⟩
      · cases hpending
      · cases hready
      · cases he
        exact .inl hbad
  | @panicked _ _ _ got sent _ _ _ _ _ call cx msg hsink hw h hcx hpoll =>
    have hlen := bodySinkFor_len hsink
    have hk := bodySinkFor_takesAll hsink hw hio
    rcases hpoll with hpoll | ⟨rfl, b, hsend⟩ | ⟨-, -, hclose, hinner⟩
    · rcases Nat.lt_or_ge tune.image.maxBody (_ + sent.flatten.length) with hover | hfits
      · obtain ⟨-, -, _, _, -, -, hlong, -⟩ := hk.exceeds h.session hover call hcx
        rw [hpoll] at hlong
        cases hlong
      · obtain ⟨p, k₁, hp, -⟩ := hk.fits h.session hfits call hcx
        rw [hpoll] at hp
        cases hp
    · obtain ⟨k₁, hk₁⟩ := hk.send h.session b
      rw [hsend] at hk₁
      cases hk₁
    · obtain ⟨-, sink, -, hsink', -⟩ := hk.ready h.session hcx hclose
      rw [hinner] at hsink'
      cases hsink'

/-- **How a request ends**, after any polls, permits and dispatched closures. -/
theorem requestDialog_ends
    (hio : (SinkCore.new .empty tune.toFutioTunables script).Uninterrupted) {pro : Prolog http}
    {answer : Except Nat (Response http)} {x : Res RequestError (Dialog http)}
    (h : RequestDialog dec contentLength tune script fault pro answer x) :
    (∃ res d, answer = .ok res ∧ x = .ok d ∧ Whole dec contentLength tune.image pro res d) ∨
    ∃ e, x = .err e ∧ Caused contentLength tune script fault answer e := by
  cases h with
  | failed h => exact .inr ⟨_, rfl, .inl h⟩
  | responseTimeout h => exact .inr ⟨_, rfl, h⟩
  | bodyTimeout hres h => exact .inr ⟨_, rfl, h⟩
  | unanswered hres h =>
    rcases @respFuture_ends _ _ _ _ fault hio _ _ _ h with ⟨_, _, -, hx, -⟩ | ⟨e, hx, hcaused⟩
    · cases hx
    · cases hx
      exact .inr ⟨_, rfl, hres ▸ hcaused⟩
  | panicked hres h =>
    rcases @respFuture_ends _ _ _ _ fault hio _ _ _ h with ⟨_, _, -, hx, -⟩ | ⟨e, hx, -⟩ <;> cases hx
  | @prepared res d hres h =>
    rcases @respFuture_ends _ _ _ _ fault hio _ _ _ h with
      ⟨bsink, body, hsink, hx, hfault, hle, hsound, hext⟩ | ⟨e, hx, -⟩
    swap
    · cases hx
    cases hx
    obtain ⟨-, hheld, hram⟩ := bodySinkFor_ok hsink
    have hlen := hext.len_eq
    rw [bodySinkFor_len hsink, Nat.zero_add] at hlen
    cases hp : body.prepare fault with
    | error e =>
      obtain ⟨e', hfault', rfl⟩ := prepare_error hp
      refine .inr ⟨.futio (.body (.io e')), ?_, .inr hfault'⟩
      simp [InDialog.prepare, hp, Except.mapError, bind, Except.bind, Res.ofExcept]
    | ok im =>
      obtain ⟨hbacks, -⟩ := BodyImage.prepare_backs hsound hp
      rw [hext.held_eq, hheld, List.nil_append] at hbacks
      have hd : InDialog.prepare dec fault ⟨pro, res.version, res.status, res.headers, body⟩ =
          .ok ⟨pro, ⟨res.version, res.status, res.headers, im,
            if findChunked dec res.headers then [.chunked] else []⟩⟩ := by
        simp [InDialog.prepare, hp, Except.mapError, bind, Except.bind, pure, Except.pure]
      refine .inl ⟨res, _, hres, congrArg Res.ofExcept hd, hfault, rfl, rfl, rfl, rfl, hbacks, hle, ?_, rfl⟩
      show im.isRam = true ↔ _
      rw [prepare_isRam hp, hlen]
      by_cases hshort : declared (contentLength res.headers) ≤ tune.image.maxBodyRam
      · rw [if_neg (Nat.not_lt.mpr hshort), hext.ram_iff (hram.mpr hshort), hlen]
        omega
      · have hfile : body.isRam = false :=
          hext.file (Bool.eq_false_iff.mpr fun h => hshort (hram.mp h))
        rw [if_pos (Nat.not_le.mp hshort), hfile]
        simp

/-! ### A request that goes well -/

/-- A sink within the limits is ready when nothing is waited for. -/
theorem TakesAll.poll_ready {K : Type} {w : SinkWrapper K} {tune : FutioTunables} {start : BodySink}
    (hk : TakesAll w tune script start) (hcalm : tune.Calm script) {clear : Bool} {sent : List Bytes}
    {k : K} (h : w.Session (w.new (SinkCore.new start tune script)) clear sent k)
    (hfits : start.len + sent.flatten.length ≤ tune.image.maxBody) (call : SinkCall) {cx : Context}
    (hcx : cx.Allowed) (hanswer : cx.answer ≠ .pending) :
    ∃ k', w.poll call cx k = (.ok (.ready (.ok ())), k') := by
  obtain ⟨p, k', hp, hcases⟩ := hk.fits h hfits call hcx
  rcases hcases with ⟨-, hpending⟩ | ⟨rfl, -⟩ | ⟨e, -, hbad⟩
  · exact absurd hpending hanswer
  · exact ⟨k', hp⟩
  · exact absurd hcalm hbad

/-- The chunks to come can be forwarded, and then there is the end. -/
theorem Forwards.exists_ended {K : Type} {w : SinkWrapper K} {tune : FutioTunables} {start : BodySink}
    (hk : TakesAll w tune script start) (hcalm : tune.Calm script) {b : Incoming}
    (hfits : start.len + b.chunks.flatten.length ≤ tune.image.maxBody)
    {sent todo : List Bytes} {clear : Bool} {k : K}
    (h : Forwards Incoming.supply w b (w.new (SinkCore.new start tune script)) sent false sent clear
      ⟨todo, none⟩ k) :
    ∃ clear' s k', Forwards Incoming.supply w b (w.new (SinkCore.new start tune script)) b.chunks true
      b.chunks clear' s k' := by
  have hcx : (⟨0, .ready, true⟩ : Context).Allowed := by decide
  induction todo generalizing sent clear k with
  | nil =>
    obtain ⟨hchunks, -, -⟩ := h.incoming
    rw [List.append_nil] at hchunks
    exact ⟨_, _, _, hchunks ▸ h.ends .done⟩
  | cons c todo ih =>
    have hitem := h.item c (.chunk c todo none)
    obtain ⟨hchunks, -, -⟩ := hitem.incoming
    have hle : start.len + sent.flatten.length ≤ tune.image.maxBody := by
      rw [hchunks, List.flatten_append, List.flatten_append, List.length_append,
        List.length_append] at hfits
      omega
    obtain ⟨k₁, hready⟩ := hk.poll_ready hcalm hitem.session hle .ready hcx (by decide)
    have hclear := hitem.poll .ready ⟨0, .ready, true⟩ hcx hready (.inr rfl)
    obtain ⟨k₂, hsend⟩ := hk.send hclear.session c
    exact ih (hclear.send hsend)

/-- The length that is declared is no reason to refuse the response. -/
def Acceptable (tune : Tunables) : Option (Except Nat Nat) → Prop
  | some (.ok l) => l ≤ tune.maxBody
  | some (.error _) => False
  | none => True

theorem bodySinkFor_acceptable {tune : Tunables} (htemp : tune.TempOk) {cl : Option (Except Nat Nat)}
    (h : Acceptable tune cl) : ∃ bsink, bodySinkFor tune cl = .ok bsink := by
  unfold bodySinkFor
  split
  · next l =>
    rw [if_neg (Nat.not_lt.mpr h)]
    split
    · obtain ⟨env, henv⟩ := htemp
      exact ⟨⟨.fsWrite ⟨[], env.val⟩, 0⟩, by rw [BodySink.withFs, henv]; rfl⟩
    · exact ⟨_, rfl⟩
  · exact h.elim
  · exact ⟨_, rfl⟩

/-- A whole response within the limits can be received. -/
theorem requestDialog_exists {pro : Prolog http} {res : Response http}
    (hcalm : tune.toFutioTunables.Calm script) (hfault : res.body.fault = none)
    (hdeclared : Acceptable tune.image (contentLength res.headers))
    (hlen : res.body.chunks.flatten.length ≤ tune.image.maxBody) :
    ∃ d, RequestDialog dec contentLength tune script none pro (.ok res) (.ok d) := by
  have hcx : (⟨0, .ready, true⟩ : Context).Allowed := by decide
  obtain ⟨K, w, hw⟩ : ∃ (K : Type) (w : SinkWrapper K), SinkOf tune.blockingPolicy w := by
    cases tune.blockingPolicy with
    | direct => exact ⟨_, _, .direct⟩
    | permit => exact ⟨_, _, .permit⟩
    | dispatch => exact ⟨_, _, .dispatch⟩
  obtain ⟨bsink, hsink⟩ := bodySinkFor_acceptable hcalm.1 hdeclared
  have hio : (SinkCore.new .empty tune.toFutioTunables script).Uninterrupted := by
    rw [hcalm.2]
    exact fun _ hio => absurd hio List.not_mem_nil
  have hk := bodySinkFor_takesAll hsink hw hio
  rw [← Nat.zero_add (List.length _), ← bodySinkFor_len hsink] at hlen
  have hbody : res.body = ⟨res.body.chunks, none⟩ := by rw [← hfault]
  have hstart : Forwards Incoming.supply w res.body
      (w.new (SinkCore.new bsink tune.toFutioTunables script)) [] false [] false
      ⟨res.body.chunks, none⟩ (w.new (SinkCore.new bsink tune.toFutioTunables script)) := by
    rw [← hbody]
    exact .start
  obtain ⟨clear, s, k, h⟩ := hstart.exists_ended hk hcalm hlen
  obtain ⟨k', hclose⟩ := hk.poll_ready hcalm h.session hlen .close hcx (by decide)
  obtain ⟨-, sink, im, hinner, -, him, -⟩ := hk.ready h.session hcx hclose
  have hprepare : InDialog.prepare dec none ⟨pro, res.version, res.status, res.headers, sink⟩ =
      .ok ⟨pro, ⟨res.version, res.status, res.headers, im,
        if findChunked dec res.headers then [.chunked] else []⟩⟩ := by
    simp [InDialog.prepare, him, Except.mapError, bind, Except.bind, pure, Except.pure]
  have hended := @RequestDialog.prepared http dec contentLength tune script none pro (.ok res) res _
    rfl (.received hsink hw h hcx hclose hinner)
  rw [hprepare] at hended
  exact ⟨_, hended⟩

/-- **A request is answered whole, or not at all.** However polls, permits and dispatched closures
follow each other, a request ends in a dialog with the whole response, or in an error that has its
cause; it does not panic. And a whole response within the limits can be received. -/
theorem request_dialog_whole
    (hio : (SinkCore.new .empty tune.toFutioTunables script).Uninterrupted) (pro : Prolog http)
    (answer : Except Nat (Response http)) :
    (∀ x, RequestDialog dec contentLength tune script fault pro answer x →
      (∃ res d, answer = .ok res ∧ x = .ok d ∧ Whole dec contentLength tune.image pro res d) ∨
      ∃ e, x = .err e ∧ Caused contentLength tune script fault answer e) ∧
    ∀ res, answer = .ok res → res.body.fault = none → tune.toFutioTunables.Calm script →
      fault = none → Acceptable tune.image (contentLength res.headers) →
      res.body.chunks.flatten.length ≤ tune.image.maxBody →
      ∃ d, RequestDialog dec contentLength tune script fault pro answer (.ok d) := by
  refine ⟨fun x h => requestDialog_ends hio h, ?_⟩
  rintro res rfl hfault hcalm rfl hdeclared hlen
  exact requestDialog_exists hcalm hfault hdeclared hlen

end Whole

namespace Sample

/-- A response whose body comes in one chunk. -/
def chunkResponse : Response sampleHttp :=
  ⟨.http11, (dialog .http11 []).epi.status, .ofList [], ⟨[[65, 66]], none⟩⟩

def directTunables : RequestTunables :=
  ⟨⟨.new Tunables.calmDir, .direct⟩, none, none⟩

end Sample

/-- A response in one chunk can be received, and is a dialog with the bytes of the chunk. -/
theorem chunk_whole : ∃ d, RequestDialog Sample.decoders (fun _ => none) Sample.directTunables []
      none (Sample.dialog .http11 []).pro (.ok Sample.chunkResponse) (.ok d) ∧
    Whole Sample.decoders (fun _ => none) Sample.directTunables.image (Sample.dialog .http11 []).pro
      Sample.chunkResponse d := by
  obtain ⟨hends, hexists⟩ := @request_dialog_whole sampleHttp Sample.decoders (fun _ => none)
    Sample.directTunables [] none (fun _ hio => absurd hio List.not_mem_nil)
    (Sample.dialog .http11 []).pro (.ok Sample.chunkResponse)
  obtain ⟨d, hd⟩ := hexists _ rfl rfl ⟨⟨_, rfl⟩, rfl⟩ rfl trivial (by decide)
  refine ⟨d, hd, ?_⟩
  rcases hends _ hd with ⟨res, d', hres, hx, hwhole⟩ | ⟨e, hx, -⟩
  · cases hres
    cases hx
    exact hwhole
  · cases hx

end BodyArchive
