import BodyArchive.Futio.Discipline

/-!
# Forwarding a stream to a sink

`forward`, of the *futures* crate, polls a stream for buffers, sends each of them to a sink, and
closes the sink when the stream has ended. It is not part of this repository, and what is taken of it
is the protocol that it keeps: `Forwards` are all the ways to go through it, with polls in any number
and in any order, and whatever the futures answer.

Any of the three streams of an image can be forwarded to any of the three sinks (`forward_delivers`):
what arrives is the body of the image, in RAM or in a file as the limits have it.
-/

namespace BodyArchive

/-! ## The protocol -/

/-- A stream of buffers, as a driver sees it: what a poll may return, with the stream after it, and
what may happen to the stream between polls. -/
structure Supply (S E : Type) where
  poll : S → Poll (Option (Except E Bytes)) → S → Prop
  idle : S → S → Prop

/-- Forwarding so far: the buffers that the stream has returned, whether it has ended, the buffers
sent, whether one may be sent now, the stream and the sink. No call has returned an error. -/
inductive Forwards {S E K : Type} (up : Supply S E) (w : SinkWrapper K) (s₀ : S) (k₀ : K) :
    List Bytes → Bool → List Bytes → Bool → S → K → Prop
  | start : Forwards up w s₀ k₀ [] false [] false s₀ k₀
  | item {sent : List Bytes} {clear : Bool} {s s' : S} {k : K}
      (h : Forwards up w s₀ k₀ sent false sent clear s k) (b : Bytes)
      (hpoll : up.poll s (.ready (some (.ok b))) s') :
      Forwards up w s₀ k₀ (sent ++ [b]) false sent clear s' k
  | ends {sent : List Bytes} {clear : Bool} {s s' : S} {k : K}
      (h : Forwards up w s₀ k₀ sent false sent clear s k) (hpoll : up.poll s (.ready none) s') :
      Forwards up w s₀ k₀ sent true sent clear s' k
  | waits {got sent : List Bytes} {ended clear : Bool} {s s' : S} {k : K}
      (h : Forwards up w s₀ k₀ got ended sent clear s k) (hpoll : up.poll s .pending s') :
      Forwards up w s₀ k₀ got ended sent clear s' k
  | idle {got sent : List Bytes} {ended clear : Bool} {s s' : S} {k : K}
      (h : Forwards up w s₀ k₀ got ended sent clear s k) (hidle : up.idle s s') :
      Forwards up w s₀ k₀ got ended sent clear s' k
  | poll {got sent : List Bytes} {ended clear : Bool} {s : S} {k k' : K}
      {p : Poll (Except FutioError Unit)} (h : Forwards up w s₀ k₀ got ended sent clear s k)
      (call : SinkCall) (cx : Context) (hcx : cx.Allowed) (hpoll : w.poll call cx k = (.ok p, k'))
      (hp : p = .pending ∨ p = .ready (.ok ())) :
      Forwards up w s₀ k₀ got ended sent
        (if call = .ready then p = .ready (.ok ()) else clear) s k'
  | send {sent : List Bytes} {ended : Bool} {b : Bytes} {s : S} {k k' : K}
      (h : Forwards up w s₀ k₀ (sent ++ [b]) ended sent true s k)
      (hsend : w.startSend b k = (.ok (.ok ()), k')) :
      Forwards up w s₀ k₀ (sent ++ [b]) ended (sent ++ [b]) false s k'
  | work {got sent : List Bytes} {ended clear : Bool} {s : S} {k : K}
      (h : Forwards up w s₀ k₀ got ended sent clear s k) :
      Forwards up w s₀ k₀ got ended sent clear s (w.work k)

section Sides

variable {S E K : Type} {up : Supply S E} {w : SinkWrapper K} {s₀ s : S} {k₀ k : K}
  {got sent : List Bytes} {ended clear : Bool}

/-- The sink's side of forwarding is a session. -/
theorem Forwards.session (h : Forwards up w s₀ k₀ got ended sent clear s k) :
    w.Session k₀ clear sent k := by
  induction h with
  | start => exact .new
  | item _ b _ ih => exact ih
  | ends _ _ ih => exact ih
  | waits _ _ ih => exact ih
  | idle _ _ ih => exact ih
  | poll _ call cx hcx hpoll hp ih => exact .poll ih call cx hcx hpoll hp
  | send _ hsend ih => exact .send ih _ hsend
  | work _ ih => exact .work ih

/-- At most one buffer has been returned and not been sent. -/
theorem Forwards.prefix_got (h : Forwards up w s₀ k₀ got ended sent clear s k) : sent <+: got := by
  induction h with
  | start => exact List.prefix_refl _
  | item _ b _ _ => exact List.prefix_append _ _
  | ends _ _ ih => exact ih
  | waits _ _ ih => exact ih
  | idle _ _ ih => exact ih
  | poll _ call cx hcx hpoll hp ih => exact ih
  | send _ _ _ => exact List.prefix_refl _
  | work _ ih => exact ih

/-- What has been sent is no longer than what has been returned. -/
theorem Forwards.sent_length (h : Forwards up w s₀ k₀ got ended sent clear s k) :
    sent.flatten.length ≤ got.flatten.length := by
  obtain ⟨rest, rfl⟩ := h.prefix_got
  rw [List.flatten_append, List.length_append]
  omega

end Sides

/-! ## The sinks -/

/-- The sinks that a body can be forwarded to. The one that waits for permits needs a semaphore. -/
inductive IsBodySink (tune : FutioTunables) : {K : Type} → SinkWrapper K → Prop
  | direct : IsBodySink tune asyncBodySink
  | permit (h : tune.blockingSemaphore = true) : IsBodySink tune permitBodySink
  | dispatch : IsBodySink tune dispatchBodySink

section Sinks

variable {K : Type} {w : SinkWrapper K} {tune : FutioTunables} {script : List SendAttempt}
  {start : BodySink}

/-- A write that went well is one that nothing was wrong with. -/
theorem BodySink.writeAll_done {s s' : BodySink} {io : OpResult} {b : Bytes}
    (h : writeAll io b s = (.ok (), s')) : push .done b s = (.ok (), s') := by
  rw [writeAll_eq_push] at h
  obtain ⟨state, len⟩ := s
  unfold push at h ⊢
  cases state with
  | ram v => exact h
  | fsWrite f =>
    cases io with
    | done => exact h
    | failed k e =>
      by_cases hb : 0 < b.length
      · simp only [if_pos hb] at h
        cases h
      · simp only [if_neg hb] at h ⊢
        exact h

/-- A buffer that is taken leaves a sound sink. -/
theorem SinkCore.serve_sound {c c' : SinkCore} (h : c.body.Sound) {u : Unit}
    (hserve : c.serve = (.ok (.ok u), c')) : c'.body.Sound := by
  obtain ⟨body, tune, buf, script⟩ := c
  cases buf with
  | none =>
    cases hserve
    exact h
  | some b =>
    unfold SinkCore.serve at hserve
    dsimp only at hserve h
    split at hserve
    · cases hserve
      exact h
    split at hserve
    · cases hserve
    split at hserve
    · obtain ⟨body', hpush, hsound, -⟩ := BodySink.push_done h b
      rw [hpush] at hserve
      cases hserve
      exact hsound
    unfold SinkCore.serveBlocking at hserve
    dsimp only at hserve
    rcases BodySink.writeBack_cases h tune.image.tempDir (script.headD .done).back with
      ⟨body₁, hback, hsound₁, -⟩ | ⟨e, hback⟩
    · rw [hback] at hserve
      dsimp only at hserve
      rcases writeAll_cases (script.headD .done).write b body₁ with
        ⟨body₂, hw⟩ | ⟨k, e, body₂, -, hw⟩
      · rw [hw] at hserve
        cases hserve
        obtain ⟨body', hpush, hsound, -⟩ := BodySink.push_done hsound₁ b
        rw [BodySink.writeAll_done hw] at hpush
        cases hpush
        exact hsound
      · rw [hw] at hserve
        cases hserve
    · rw [hback] at hserve
      cases hserve

/-- A session leaves a sound sink behind every buffer that is taken. -/
theorem SinkWrapper.Session.sound {init : SinkCore → Prop} {stands : K → SinkCore → Prop}
    {waits : K → Nat → Prop} (hw : w.Serves init stands waits)
    (hinit : init (SinkCore.new start tune script))
    (hio : (SinkCore.new start tune script).Uninterrupted) (hstart : start.Sound) {clear : Bool}
    {sent : List Bytes} {k : K}
    (h : w.Session (w.new (SinkCore.new start tune script)) clear sent k) :
    ∃ c, stands k c ∧ (clear = true → c.buf = none) ∧ c.body.Sound := by
  induction h with
  | new =>
    refine ⟨_, hw.new hinit hio, ?_, hstart⟩
    intro hclear
    cases hclear
  | poll _ call cx hcx hpoll hp ih =>
    obtain ⟨c, hs, hbuf, hsound⟩ := ih
    have hstep := hw.poll hs hcx call
    rw [hpoll] at hstep
    cases hstep with
    | pending hwants hanswer hstands hwaits =>
      refine ⟨c, hstands, ?_, hsound⟩
      intro hclear
      by_cases hcall : call = .ready
      · simp [hcall] at hclear
      · exact hbuf (by simpa [hcall] using hclear)
    | @ready a c' _ hserve hstands =>
      have ha : a = .ok () := by
        rcases hp with hp | hp <;> cases hp
        rfl
      subst ha
      have hserve' : c.serve = (.ok (.ok ()), c') := hserve
      have hnone := c.serve_buf
      rw [hserve'] at hnone
      exact ⟨c', hstands, fun _ => hnone, SinkCore.serve_sound hsound hserve'⟩
    | panic hserve hx => exact absurd hserve (SinkCore.serve_no_panic _ _ _)
  | send _ b hsend ih =>
    obtain ⟨c, hs, hbuf, hsound⟩ := ih
    obtain ⟨k', hsend', hstands⟩ := hw.send hs (hbuf rfl) b
    rw [hsend'] at hsend
    cases hsend
    refine ⟨_, hstands, ?_, hsound⟩
    intro hclear
    cases hclear
  | work _ ih =>
    obtain ⟨c, hs, hbuf, hsound⟩ := ih
    exact ⟨c, hw.work hs, hbuf, hsound⟩

/-- A sink that loses nothing, and can be prepared once it has taken all. -/
structure TakesAll (w : SinkWrapper K) (tune : FutioTunables) (script : List SendAttempt)
    (start : BodySink) : Prop extends LosesNothing w tune script start where
  sound : ∀ {clear sent k call cx k'},
    w.Session (w.new (SinkCore.new start tune script)) clear sent k → cx.Allowed →
    w.poll call cx k = (.ok (.ready (.ok ())), k') →
    ∃ body, w.intoInner k' = .ok body ∧ body.Sound

theorem SinkWrapper.Serves.takesAll {init : SinkCore → Prop} {stands : K → SinkCore → Prop}
    {waits : K → Nat → Prop} (hw : w.Serves init stands waits) (hwithin : start.Within tune.image)
    (hsound : start.Sound) (hinit : init (SinkCore.new start tune script))
    (hio : (SinkCore.new start tune script).Uninterrupted) : TakesAll w tune script start where
  toLosesNothing := hw.losesNothing hwithin hinit hio
  sound := by
    intro clear sent k call cx k' h hcx hpoll
    obtain ⟨c, hs, -, hc⟩ := h.sound hw hinit hio hsound
    have hstep := hw.poll hs hcx call
    rw [hpoll] at hstep
    cases hstep with
    | @ready a c' _ hserve hstands =>
      have hserve' : c.serve = (.ok (.ok ()), c') := hserve
      have hnone := c.serve_buf
      rw [hserve'] at hnone
      exact ⟨c'.body, hw.inner hstands (SinkCore.serve_wants hnone), SinkCore.serve_sound hc hserve'⟩
    | panic hserve hx => exact absurd hserve (SinkCore.serve_no_panic _ _ _)

theorem IsBodySink.takesAll (h : IsBodySink tune w) (hwithin : start.Within tune.image)
    (hsound : start.Sound) (hio : (SinkCore.new start tune script).Uninterrupted) :
    TakesAll w tune script start := by
  cases h with
  | direct => exact asyncBodySink_serves.takesAll hwithin hsound trivial hio
  | permit hsemaphore =>
    have hmeets := @sinkRoutine_good (fun c => c.tune.blockingSemaphore = true)
      (fun h ht => by rw [ht]; exact h)
    exact (permitBodySink_serves hmeets (fun h => h.2) (fun h _ => h)
      (fun hinit hio => ⟨hio, hinit⟩)).takesAll hwithin hsound hsemaphore hio
  | dispatch =>
    have hmeets := @sinkRoutine_good (fun _ => True) (fun _ _ => trivial)
    exact (dispatchBodySink_serves hmeets (fun h _ => h)
      (fun hinit hio => ⟨hio, hinit⟩)).takesAll hwithin hsound trivial hio

end Sinks

/-! ## The streams -/

/-- The bytes of what a poll returned. -/
inductive Poll.Shows {B : Type} [OutputBuf B] :
    Poll (StreamItem B) → Poll (Option (Except IoError Bytes)) → Prop
  | pending : Shows .pending .pending
  | done : Shows (.ready none) (.ready none)
  | item {b : B} {bs : Bytes} (h : OutputBuf.chunk b = .ok bs) :
      Shows (.ready (some (.ok b))) (.ready (some (.ok bs)))
  | error (e : IoError) : Shows (.ready (some (.error e))) (.ready (some (.error e)))

/-- A stream of an image, with the threads of the pool getting to its closures between polls. -/
def StreamWrapper.supply {S B : Type} [OutputBuf B] (w : StreamWrapper S B) : Supply S IoError where
  poll s r s' := ∃ cx p, cx.Allowed ∧ w.pollNext cx s = (.ok p, s') ∧ p.Shows r
  idle s s' := s' = w.work s

/-- The streams of an image. The one that waits for permits needs a semaphore. -/
inductive IsBodyStream (B : Type) [OutputBuf B] (tune : FutioTunables) :
    {S : Type} → StreamWrapper S B → Prop
  | direct : IsBodyStream B tune (asyncBodyImage B)
  | permit (h : tune.blockingSemaphore = true) : IsBodyStream B tune (permitBodyImage B)
  | dispatch : IsBodyStream B tune (dispatchBodyImage B)

section Streams

variable {S B : Type} [OutputBuf B] {w : StreamWrapper S B}

theorem IsBodyStream.delivers {tune : FutioTunables} (h : IsBodyStream B tune w) {im : BodyImage}
    {body : Bytes} (him : im.Backs body) : DeliversBody w (ImageCore.new im tune (.ok ())) body := by
  have hleft := ImageCore.new_left him tune (.ok ())
  cases h with
  | direct => exact asyncBodyImage_serves.delivers trivial hleft rfl
  | permit hsemaphore =>
    have hmeets := @streamRoutine_tunables B _ fun tune => tune.blockingSemaphore = true
    exact (permitBodyImage_serves hmeets id).delivers hsemaphore hleft rfl
  | dispatch =>
    exact (dispatchBodyImage_serves (streamRoutine_tunables fun _ => True)).delivers trivial hleft rfl

/-- The stream's side of forwarding: the polls, and what they have handed out. -/
theorem Forwards.polled {K : Type} {k : SinkWrapper K} {s₀ s : S} {k₀ t : K} {got sent : List Bytes}
    {ended clear : Bool} (h : Forwards w.supply k s₀ k₀ got ended sent clear s t) :
    ∃ rs, w.Polled s₀ rs s ∧ Handed rs got ∧ (ended = true → .ready none ∈ rs) := by
  induction h with
  | start =>
    refine ⟨[], .new, rfl, ?_⟩
    intro hended
    cases hended
  | item _ b hpoll ih =>
    obtain ⟨rs, hrs, hgot, -⟩ := ih
    obtain ⟨cx, p, hcx, hp, hshows⟩ := hpoll
    cases hshows with
    | item hb =>
      refine ⟨_, .poll hrs cx hcx hp, handed_item hgot hb, ?_⟩
      intro hended
      cases hended
  | ends _ hpoll ih =>
    obtain ⟨rs, hrs, hgot, -⟩ := ih
    obtain ⟨cx, p, hcx, hp, hshows⟩ := hpoll
    cases hshows
    exact ⟨_, .poll hrs cx hcx hp, handed_snoc hgot rfl, fun _ =>
      List.mem_append_right _ (List.mem_singleton.mpr rfl)⟩
  | waits _ hpoll ih =>
    obtain ⟨rs, hrs, hgot, hends⟩ := ih
    obtain ⟨cx, p, hcx, hp, hshows⟩ := hpoll
    cases hshows
    exact ⟨_, .poll hrs cx hcx hp, handed_snoc hgot rfl, fun hended =>
      List.mem_append_left _ (hends hended)⟩
  | idle _ hidle ih =>
    obtain ⟨rs, hrs, hgot, hends⟩ := ih
    cases hidle
    exact ⟨rs, .work hrs, hgot, hends⟩
  | poll _ call cx hcx hpoll hp ih => exact ih
  | send _ _ ih => exact ih
  | work _ ih => exact ih

theorem handed_unique {rs : List (Poll (StreamItem B))} {xs ys : List Bytes} (hx : Handed rs xs)
    (hy : Handed rs ys) : xs = ys := by
  have hsame : xs.map (Res.ok : Bytes → Res Empty Bytes) = ys.map .ok := hx.symm.trans hy
  refine (List.map_injective_iff.mpr ?_) hsame
  rintro a b ⟨⟩
  rfl

/-- Once a stream has ended, all that it has handed out is its body. -/
theorem EndsWith.handed {body : Bytes} {rs : List (Poll (StreamItem B))} {got : List Bytes}
    (h : EndsWith body rs) (hend : .ready none ∈ rs) (hgot : Handed rs got) : got.flatten = body := by
  obtain ⟨pre, post, rfl⟩ := List.append_of_mem hend
  obtain ⟨⟨bss, hpre, hbody⟩, hpost⟩ := h pre post rfl
  have hnone : (Poll.ready none :: post).filterMap (Poll.item : Poll (StreamItem B) → _) = [] := by
    rw [List.filterMap_eq_nil_iff]
    intro r hr
    rcases List.mem_cons.mp hr with rfl | hr
    · rfl
    · rw [hpost r hr]
      rfl
  have hall : Handed (pre ++ .ready none :: post) bss := by
    rw [Handed, List.filterMap_append, hnone, List.append_nil]
    exact hpre
  rw [handed_unique hgot hall, hbody]

end Streams

/-! ## What arrives -/

section Arrives

variable {S B K : Type} [OutputBuf B]

/-- What forwarding a body to a sink comes to, from any point that it has got to:
* what the stream has returned is a part of the body from its start, in no more buffers than there are
  bytes, and all of it after its end;
* a poll of the stream returns no error, and is pending only as its future is;
* a buffer can be sent when the protocol allows it;
* if the body is within `max_body`, a poll of the sink is pending only as its future is, and an error
  only of a file operation that failed;
* if it is not, the sink takes no more than a part of it, and then reports `BodyTooLong`;
* once all buffers have been sent and the sink is ready, it prepares into an image of the body, which
  is behind what the sink held at first. -/
structure ForwardsBody (w : StreamWrapper S B) (core : ImageCore) (k : SinkWrapper K)
    (tune : FutioTunables) (script : List SendAttempt) (start : BodySink) (body : Bytes) : Prop where
  returned : ∀ {got ended sent clear s t},
    Forwards w.supply k (w.new core) (k.new (SinkCore.new start tune script)) got ended sent clear s t →
    got.flatten <+: body ∧ got.length ≤ body.length ∧ (ended = true → got.flatten = body)
  stream : ∀ {got ended sent clear s t},
    Forwards w.supply k (w.new core) (k.new (SinkCore.new start tune script)) got ended sent clear s t →
    ∀ {cx : Context}, cx.Allowed → ∃ p s', w.pollNext cx s = (.ok p, s') ∧
      (p = .pending → cx.answer = .pending) ∧ ∀ e, p ≠ .ready (some (.error e))
  send : ∀ {got ended sent s t},
    Forwards w.supply k (w.new core) (k.new (SinkCore.new start tune script)) got ended sent true s t →
    ∀ b, ∃ t', k.startSend b t = (.ok (.ok ()), t')
  fits : start.len + body.length ≤ tune.image.maxBody → ∀ {got ended sent clear s t},
    Forwards w.supply k (w.new core) (k.new (SinkCore.new start tune script)) got ended sent clear s t →
    ∀ call {cx : Context}, cx.Allowed → ∃ p t', k.poll call cx t = (.ok p, t') ∧
      ((p = .pending ∧ cx.answer = .pending) ∨ p = .ready (.ok ()) ∨
        ∃ e, p = .ready (.error (.body (.io e))) ∧ ¬ tune.Calm script)
  exceeds : ∀ {got ended sent clear s t},
    Forwards w.supply k (w.new core) (k.new (SinkCore.new start tune script)) got ended sent clear s t →
    tune.image.maxBody < start.len + sent.flatten.length → ∀ call {cx : Context}, cx.Allowed →
    ∃ t', k.poll call cx t = (.ok (.ready (.error (.body
      (.bodyTooLong (start.len + sent.flatten.length))))), t')
  arrives : ∀ {sent clear s t call cx t'},
    Forwards w.supply k (w.new core) (k.new (SinkCore.new start tune script)) sent true sent clear s t →
    cx.Allowed → k.poll call cx t = (.ok (.ready (.ok ())), t') →
    start.len + body.length ≤ tune.image.maxBody ∧
    ∃ sink im, k.intoInner t' = .ok sink ∧ sink.prepare none = .ok im ∧
      im.Backs (start.held ++ body) ∧
      (start.isRam = true → (sink.isRam = true ↔ start.len + body.length ≤ tune.image.maxBodyRam)) ∧
      (start.isRam = false → sink.isRam = false)

theorem length_le_flatten {bss : List Bytes} (h : ∀ bs ∈ bss, bs ≠ []) :
    bss.length ≤ bss.flatten.length := by
  induction bss with
  | nil => exact Nat.le_refl _
  | cons bs bss ih =>
    have hpos := List.length_pos_iff.mpr (h bs List.mem_cons_self)
    have hrest := ih fun b hb => h b (List.mem_cons_of_mem _ hb)
    rw [List.flatten_cons, List.length_append, List.length_cons]
    omega

/-- A sink that has taken all that was sent, and is ready. -/
theorem TakesAll.ready {k : SinkWrapper K} {tune : FutioTunables} {script : List SendAttempt}
    {start : BodySink} (hk : TakesAll k tune script start) {clear : Bool} {sent : List Bytes} {t t' : K}
    {call : SinkCall} {cx : Context} (h : k.Session (k.new (SinkCore.new start tune script)) clear sent t)
    (hcx : cx.Allowed) (hpoll : k.poll call cx t = (.ok (.ready (.ok ())), t')) :
    start.len + sent.flatten.length ≤ tune.image.maxBody ∧
    ∃ sink im, k.intoInner t' = .ok sink ∧ sink.Extends tune.image start sent ∧
      sink.prepare none = .ok im ∧ im.Backs (start.held ++ sent.flatten) := by
  obtain ⟨sink, hinner, hsound⟩ := hk.sound h hcx hpoll
  rcases Nat.lt_or_ge tune.image.maxBody (start.len + sent.flatten.length) with hover | hfits
  · obtain ⟨-, -, _, _, -, -, hlong, -⟩ := hk.exceeds h hover call hcx
    rw [hpoll] at hlong
    cases hlong
  · refine ⟨hfits, ?_⟩
    obtain ⟨p, t₁, hp, hcases⟩ := hk.fits h hfits call hcx
    rw [hpoll] at hp
    cases hp
    rcases hcases with ⟨hpending, -⟩ | ⟨-, body, hbody, hext⟩ | ⟨e, herr, -⟩
    · cases hpending
    · rw [hinner] at hbody
      cases hbody
      obtain ⟨im, him⟩ := BodyImage.prepare_ok sink
      refine ⟨sink, im, hinner, hext, him, ?_⟩
      rw [← hext.held_eq]
      exact (BodyImage.prepare_backs hsound him).1
    · cases herr

theorem DeliversBody.forwards {w : StreamWrapper S B} {core : ImageCore} {body : Bytes}
    (hw : DeliversBody w core body) {k : SinkWrapper K} {tune : FutioTunables}
    {script : List SendAttempt} {start : BodySink} (hk : TakesAll k tune script start) :
    ForwardsBody w core k tune script start body := by
  have hreturned : ∀ {got ended sent clear s t},
      Forwards w.supply k (w.new core) (k.new (SinkCore.new start tune script)) got ended sent clear
        s t → got.flatten <+: body ∧ got.length ≤ body.length ∧ (ended = true → got.flatten = body) := by
    intro got ended sent clear s t h
    obtain ⟨rs, hrs, hgot, hends⟩ := h.polled
    obtain ⟨bss, hbss, hpre, hsizes⟩ := hw.items hrs
    rw [handed_unique hgot hbss]
    refine ⟨hpre, Nat.le_trans (length_le_flatten fun b hb => (hsizes b hb).1) hpre.length_le, ?_⟩
    intro hended
    exact (hw.ends hrs).handed (hends hended) hbss
  have hlength : ∀ {got ended sent clear s t},
      Forwards w.supply k (w.new core) (k.new (SinkCore.new start tune script)) got ended sent clear
        s t → sent.flatten.length ≤ body.length :=
    fun h => Nat.le_trans h.sent_length (hreturned h).1.length_le
  refine ⟨hreturned, ?_, ?_, ?_, ?_, ?_⟩
  · intro got ended sent clear s t h cx hcx
    obtain ⟨rs, hrs, -⟩ := h.polled
    obtain ⟨p, s', hp, hwaits⟩ := hw.polls hrs hcx
    refine ⟨p, s', hp, hwaits, ?_⟩
    rintro e rfl
    exact hw.clean (.poll hrs cx hcx hp) e (List.mem_append_right _ (List.mem_singleton.mpr rfl))
  · intro got ended sent s t h
    exact hk.send h.session
  · intro hfits got ended sent clear s t h call cx hcx
    have hsent := hlength h
    obtain ⟨p, t', hp, hcases⟩ := hk.fits h.session (by omega) call hcx
    refine ⟨p, t', hp, ?_⟩
    rcases hcases with hpending | ⟨hready, -⟩ | herr
    · exact .inl hpending
    · exact .inr (.inl hready)
    · exact .inr (.inr herr)
  · intro got ended sent clear s t h hover call cx hcx
    obtain ⟨-, -, t', -, -, -, hlong, -⟩ := hk.exceeds h.session hover call hcx
    exact ⟨t', hlong⟩
  · intro sent clear s t call cx t' h hcx hpoll
    have hall := (hreturned h).2.2 rfl
    obtain ⟨hfits, sink, im, hinner, hext, him, hbacks⟩ := hk.ready h.session hcx hpoll
    rw [hall] at hfits hbacks
    have hlen := hext.len_eq
    rw [hall] at hlen
    refine ⟨hfits, sink, im, hinner, him, hbacks, ?_, hext.file⟩
    rw [← hlen]
    exact hext.ram_iff

end Arrives

/-- **Any stream can be forwarded to any sink.** Whatever stream an image is wrapped in, and whatever
sink it is forwarded to, the body of the image arrives. -/
theorem forward_delivers {S B K : Type} [OutputBuf B] {w : StreamWrapper S B} {k : SinkWrapper K}
    {tune tune' : FutioTunables} (hw : IsBodyStream B tune w) (hk : IsBodySink tune' k)
    {im : BodyImage} {body : Bytes} (him : im.Backs body) {start : BodySink} (hsound : start.Sound)
    (hwithin : start.Within tune'.image) {script : List SendAttempt}
    (hio : (SinkCore.new start tune' script).Uninterrupted) :
    ForwardsBody w (ImageCore.new im tune (.ok ())) k tune' script start body :=
  (hw.delivers him).forwards (hk.takesAll hwithin hsound hio)

/-- A body of two bytes in RAM, and one way to forward it: a poll, a buffer, a poll, the end. -/
theorem pair_forwarded :
    (∃ s t, Forwards (asyncBodyImage Bytes).supply asyncBodySink
      ((asyncBodyImage Bytes).new (ImageCore.new (BodyImage.fromSlice [65, 66])
        ⟨Tunables.new Tunables.calmDir, .direct⟩ (.ok ())))
      (asyncBodySink.new (SinkCore.new BodySink.empty ⟨Tunables.new Tunables.calmDir, .direct⟩ []))
      [[65, 66]] true [[65, 66]] true s t) ∧
    ForwardsBody (asyncBodyImage Bytes) (ImageCore.new (BodyImage.fromSlice [65, 66])
        ⟨Tunables.new Tunables.calmDir, .direct⟩ (.ok ())) asyncBodySink
      ⟨Tunables.new Tunables.calmDir, .direct⟩ [] BodySink.empty [65, 66] := by
  have hcx : (⟨0, .ready, true⟩ : Context).Allowed := by decide
  refine ⟨?_, forward_delivers .direct .direct (BodyImage.fromSlice_backs [65, 66])
    BodySink.sound_ram_nil ⟨Nat.zero_le _, fun _ => Nat.zero_le _⟩ fun _ hio => absurd hio List.not_mem_nil⟩
  have hnew : Forwards (asyncBodyImage Bytes).supply asyncBodySink
      ((asyncBodyImage Bytes).new (ImageCore.new (BodyImage.fromSlice [65, 66])
        ⟨Tunables.new Tunables.calmDir, .direct⟩ (.ok ())))
      (asyncBodySink.new (SinkCore.new BodySink.empty ⟨Tunables.new Tunables.calmDir, .direct⟩ []))
      [] false [] false _ _ := .start
  have hready := Forwards.poll hnew .ready ⟨0, .ready, true⟩ hcx rfl (.inr rfl)
  have hitem := Forwards.item hready [65, 66] ⟨⟨0, .ready, true⟩, _, hcx, rfl, .item rfl⟩
  have hsent := Forwards.send hitem rfl
  have hdone := Forwards.poll hsent .ready ⟨0, .ready, true⟩ hcx rfl (.inr rfl)
  exact ⟨_, _, Forwards.ends hdone ⟨⟨0, .ready, true⟩, _, hcx, rfl, .done⟩⟩

end BodyArchive
