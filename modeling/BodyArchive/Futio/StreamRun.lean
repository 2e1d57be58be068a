import BodyArchive.Futio.Stream

/-!
# Polling a stream

A stream is polled with whatever answers the futures give, and threads of the pool get to its
closures at any time in between. All three streams of an image that is backed hand out its body
(`streams_deliver`): in order, without end before its end, and without a byte after it.
-/

namespace BodyArchive

/-- `StreamWrapper`, with the methods of `Stream` and `http_body::Body`, the image inside, and the
work that is done on other threads. -/
structure StreamWrapper (S B : Type) where
  new : ImageCore → S
  pollNext : Context → Prog S Empty (Poll (StreamItem B))
  isEndStream : S → Res Empty Bool
  image : S → Option ImageCore
  work : S → S

/-- The image a closure has. -/
def Closure.image {α : Type} : Closure ImageCore α → Option ImageCore
  | .queued ob => some ob.core
  | .done _ ob => some ob.core
  | .lost => none

section Wrappers

variable (B : Type) [OutputBuf B]

def asyncBodyImage : StreamWrapper (AsyncBodyImage LenientArbiter) B where
  new := Adaptor.new
  pollNext := AsyncBodyImage.pollNext B
  isEndStream s := .ok s.core.isEndStream
  image s := some s.core
  work := id

def permitBodyImage : StreamWrapper PermitBodyImage B where
  new := PermitBodyImage.new
  pollNext := PermitBodyImage.pollNext B
  isEndStream s := .ok s.isEndStream
  image s := some s.inner.core
  work := id

def dispatchBodyImage : StreamWrapper (DispatchBodyImage B) B where
  new := DispatchBodyImage.new
  pollNext := DispatchBodyImage.pollNext
  isEndStream := DispatchBodyImage.isEndStream
  image s :=
    match s.state with
    | .inner obo => obo.map Adaptor.core
    | .dispatch db => db.closure.image
  work := DispatchBodyImage.work

end Wrappers

/-- A stream polled so far: what the polls returned, and the stream. -/
inductive StreamWrapper.Polled {S B : Type} (w : StreamWrapper S B) (s₀ : S) :
    List (Poll (StreamItem B)) → S → Prop
  | new : Polled w s₀ [] s₀
  | poll {rs : List (Poll (StreamItem B))} {s s' : S} {r : Poll (StreamItem B)}
      (h : Polled w s₀ rs s) (cx : Context) (hcx : cx.Allowed) (hpoll : w.pollNext cx s = (.ok r, s')) :
      Polled w s₀ (rs ++ [r]) s'
  | work {rs : List (Poll (StreamItem B))} {s : S} (h : Polled w s₀ rs s) :
      Polled w s₀ rs (w.work s)

/-! ## The three streams -/

section Serves

variable {S B : Type} [OutputBuf B]

/-- A stream makes the steps of the service, from the cores in `init`. -/
structure StreamWrapper.Serves (w : StreamWrapper S B) (init : ImageCore → Prop)
    (stands : S → ImageCore → Prop) (waits : S → Nat → Prop) : Prop where
  new : ∀ {c}, init c → stands (w.new c) c
  poll : ∀ {s c cx}, stands s c → cx.Allowed →
    Step (imageService B) stands waits (some (.error ioCanceled)) cx c (w.pollNext cx s)
  ended : ∀ {s c}, stands s c →
    ∃ b, w.isEndStream s = .ok b ∧ (b = true → c.isEndStream = true)
  image : ∀ {s c c'}, stands s c → w.image s = some c' → c' = c ∨ ∃ a, c.serve B = (.ok a, c')
  work : ∀ {s c}, stands s c → stands (w.work s) c

theorem serve_tune (c : ImageCore) : (c.serve B).2.tune = c.tune := by
  obtain ⟨state, len, consumed, tune, advice⟩ := c
  unfold ImageCore.serve
  split
  · rfl
  split
  · rfl
  cases state with
  | ram iter => cases iter <;> rfl
  | file rs =>
    show (ImageCore.readFile B rs _).2.tune = tune
    rw [ImageCore.readFile]
    split <;> rfl
  | memMap map =>
    cases map with
    | none => rfl
    | some mb =>
      show (ImageCore.takeMap B mb _).2.tune = tune
      rw [ImageCore.takeMap]
      split
      · split <;> rfl
      · rfl
      · rfl

/-- What holds of the tunables goes on holding. -/
theorem streamRoutine_tunables (init : FutioTunables → Prop) :
    (streamRoutine B).Meets (imageService B) fun c _ => init c.tune :=
  streamRoutine_meets (fun {c} _ h _ => by rw [serve_tune]; exact h)
    (fun {c} _ h _ => by rw [serve_tune]; exact h)

theorem asyncBodyImage_serves : (asyncBodyImage B).Serves (fun _ => True)
    (Adaptor.Stands fun _ _ => True) (fun _ _ => False) where
  new _ := ⟨rfl, [], trivial⟩
  poll hs _ := Adaptor.step (streamRoutine_tunables fun _ => True) hs _
  ended := by
    intro s c hs
    obtain ⟨rfl, -⟩ := hs
    exact ⟨_, rfl, id⟩
  image := by
    intro s c c' hs himage
    obtain ⟨rfl, -⟩ := hs
    cases himage
    exact .inl rfl
  work hs := hs

variable {good : ImageCore → List Mark → Prop}

theorem permitBodyImage_serves (hmeets : (streamRoutine B).Meets (imageService B) good)
    (hsemaphore : ∀ {c ms}, good c ms → c.tune.blockingSemaphore = true) :
    (permitBodyImage B).Serves (fun c => good c []) (Permitted.Stands (imageService B) good)
      Permitted.Waits where
  new h := ⟨rfl, fun _ => rfl, fun hne => absurd rfl hne, h⟩
  poll hs hcx := Permitted.step hmeets hs (hsemaphore hs.is_good) hcx
  ended := by
    intro s c hs
    refine ⟨s.inner.core.isEndStream, rfl, ?_⟩
    rw [hs.core_eq]
    exact id
  image := by
    intro s c c' hs himage
    cases himage
    exact .inl hs.core_eq
  work hs := hs

theorem dispatchBodyImage_serves (hmeets : (streamRoutine B).Meets (imageService B) good) :
    (dispatchBodyImage B).Serves (fun c => good c [])
      (fun s => Dispatching.Stands (imageService B) good s.state)
      (fun s => Dispatching.Waits s.state) where
  new {c} h := @Dispatching.Stands.inner _ _ _ _ (Adaptor.new c) rfl h
  poll := by
    intro s c cx hs hcx
    have hstep := Dispatching.step hmeets hs hcx
    show Step _ _ _ _ _ _ (DispatchBodyImage.onState (Dispatching.poll (streamRoutine B) cx) s)
    unfold DispatchBodyImage.onState
    generalize Dispatching.poll (streamRoutine B) cx s.state = x at hstep
    cases hstep with
    | pending hwants hanswer hstands hwaits => exact .pending hwants hanswer hstands hwaits
    | ready hserve hstands => exact .ready hserve hstands
    | panic hserve hx => exact .panic hserve hx
  ended := by
    intro s c hs
    obtain ⟨state, len⟩ := s
    cases hs with
    | inner harb hgood => exact ⟨_, rfl, id⟩
    | queued harb hwants hgood => exact ⟨false, rfl, fun h => by cases h⟩
    | done harb hwants hserve hgood => exact ⟨false, rfl, fun h => by cases h⟩
    | lost hwants hserve => exact ⟨false, rfl, fun h => by cases h⟩
  image := by
    intro s c c' hs himage
    obtain ⟨state, len⟩ := s
    cases hs with
    | inner harb hgood =>
      cases himage
      exact .inl rfl
    | queued harb hwants hgood =>
      cases himage
      exact .inl rfl
    | done harb hwants hserve hgood =>
      -- The image in a closure that has been run is ahead of the stream.
      cases himage
      exact .inr ⟨_, hserve⟩
    | lost hwants hserve => cases himage
  work hs := Dispatching.work_step hmeets hs

end Serves

/-! ## What has been handed out -/

section Items

variable {B : Type} [OutputBuf B]

/-- The buffer that a poll returns. -/
def Poll.item : Poll (StreamItem B) → Option B
  | .ready (some (.ok b)) => some b
  | _ => none

/-- The polls have returned buffers of these bytes. -/
def Handed (rs : List (Poll (StreamItem B))) (bss : List Bytes) : Prop :=
  (rs.filterMap Poll.item).map OutputBuf.chunk = bss.map .ok

/-- No poll has returned an error. -/
def Clean (rs : List (Poll (StreamItem B))) : Prop := ∀ e, .ready (some (.error e)) ∉ rs

/-- The polls have returned the body before the first end, and nothing after it. -/
def EndsWith (body : Bytes) (rs : List (Poll (StreamItem B))) : Prop :=
  ∀ pre post, rs = pre ++ .ready none :: post →
    (∃ bss, Handed pre bss ∧ bss.flatten = body) ∧ ∀ r ∈ post, r = .ready none

theorem handed_snoc {rs : List (Poll (StreamItem B))} {bss : List Bytes} (h : Handed rs bss)
    {r : Poll (StreamItem B)} (hr : r.item = none) : Handed (rs ++ [r]) bss := by
  rw [Handed, List.filterMap_append, List.filterMap_cons_none hr, List.filterMap_nil,
    List.append_nil]
  exact h

theorem handed_item {rs : List (Poll (StreamItem B))} {bss : List Bytes} (h : Handed rs bss) {b : B}
    {bs : Bytes} (hb : OutputBuf.chunk b = .ok bs) :
    Handed (rs ++ [.ready (some (.ok b))]) (bss ++ [bs]) := by
  have hitem : Poll.item (.ready (some (.ok b)) : Poll (StreamItem B)) = some b := rfl
  rw [Handed, List.filterMap_append, List.filterMap_cons_some hitem, List.filterMap_nil,
    List.map_append, List.map_append, h, List.map_cons, List.map_cons, hb]
  rfl

omit [OutputBuf B] in
theorem clean_snoc {rs : List (Poll (StreamItem B))} (h : Clean rs) {r : Poll (StreamItem B)}
    (hr : ∀ e, r ≠ .ready (some (.error e))) : Clean (rs ++ [r]) := by
  intro e he
  rcases List.mem_append.mp he with he | he
  · exact h e he
  · exact hr e (List.mem_singleton.mp he).symm

/-- Something in a list with one more element is the last one, or was there before. -/
theorem snoc_split {α : Type} {xs pre post : List α} {x y : α} (h : xs ++ [x] = pre ++ y :: post) :
    (xs = pre ∧ x = y ∧ post = []) ∨ ∃ post', xs = pre ++ y :: post' ∧ post = post' ++ [x] := by
  rcases List.eq_nil_or_concat post with rfl | ⟨post', z, rfl⟩
  · obtain ⟨hpre, hlast⟩ := List.append_inj' h rfl
    exact .inl ⟨hpre, List.head_eq_of_cons_eq hlast, rfl⟩
  · have hassoc : pre ++ y :: post'.concat z = (pre ++ y :: post') ++ [z] := by
      simp
    rw [hassoc] at h
    obtain ⟨hpre, hlast⟩ := List.append_inj' h rfl
    rw [List.head_eq_of_cons_eq hlast]
    exact .inr ⟨post', hpre, List.concat_eq_append⟩

/-- After the end there are only ends. -/
theorem endsWith_snoc {body : Bytes} {rs : List (Poll (StreamItem B))} (h : EndsWith body rs)
    {r : Poll (StreamItem B)} (hlast : .ready none ∈ rs → r = .ready none)
    (hend : r = .ready none → ∃ bss, Handed rs bss ∧ bss.flatten = body) :
    EndsWith body (rs ++ [r]) := by
  intro pre post hsplit
  rcases snoc_split hsplit with ⟨rfl, hr, rfl⟩ | ⟨post', rfl, rfl⟩
  · exact ⟨hend hr, fun x hx => absurd hx List.not_mem_nil⟩
  · obtain ⟨hbody, hpost⟩ := h pre post' rfl
    refine ⟨hbody, ?_⟩
    intro x hx
    rcases List.mem_append.mp hx with hx | hx
    · exact hpost x hx
    · rw [List.mem_singleton.mp hx]
      exact hlast (List.mem_append_right _ List.mem_cons_self)

/-- **Where a stream is**: what has been handed out, and what the image still has. -/
structure Midway (core : ImageCore) (body : Bytes) (rs : List (Poll (StreamItem B))) (c : ImageCore) :
    Prop where
  same : core.Same c
  clean : Clean rs
  handed : ∃ bss left, Handed rs bss ∧ bss.flatten ++ left = body ∧ c.Left left ∧
    (∀ bs ∈ bss, bs ≠ [] ∧ (core.isFile = true → bs.length ≤ core.tune.image.bufferSizeFs)) ∧
    (.ready none ∈ rs → left = [])
  ends : EndsWith body rs

theorem midway_new {core : ImageCore} {body : Bytes} (h : core.Left body) :
    Midway core body ([] : List (Poll (StreamItem B))) core where
  same := ⟨rfl, rfl, rfl, rfl⟩
  clean _ := List.not_mem_nil
  handed := by
    refine ⟨[], body, rfl, rfl, h, ?_, ?_⟩
    · intro bs hbs
      cases hbs
    · intro hmem
      cases hmem
  ends := by
    intro pre post hsplit
    exact absurd hsplit.symm (by simp)

variable {core c : ImageCore} {body : Bytes} {rs : List (Poll (StreamItem B))}

/-- A poll that waits. -/
theorem Midway.pending (h : Midway core body rs c) (hwants : c.wants = true) :
    Midway core body (rs ++ [.pending]) c := by
  obtain ⟨hsame, hclean, ⟨bss, left, hhanded, hbody, hleft, hsizes, hnone⟩, hends⟩ := h
  -- A stream that waits has something left, so it has not ended.
  have hopen : (.ready none : Poll (StreamItem B)) ∉ rs := by
    intro hmem
    have hlen := hleft.1
    rw [hnone hmem] at hlen
    simp only [ImageCore.wants, Bool.and_eq_true, decide_eq_true_eq, List.length_nil] at hwants hlen
    omega
  refine ⟨hsame, clean_snoc hclean ?_, ⟨bss, left, handed_snoc hhanded rfl, hbody, hleft, hsizes, ?_⟩,
    endsWith_snoc hends (fun hmem => absurd hmem hopen) ?_⟩
  · intro e he
    cases he
  · intro hmem
    rcases List.mem_append.mp hmem with hmem | hmem
    · exact hnone hmem
    · cases List.mem_singleton.mp hmem
  · intro he
    cases he

/-- **A poll that is ready** hands out the next of the body, or says that this was all. -/
theorem Midway.ready (h : Midway core body rs c) (hadvice : core.advice = .ok ())
    {a : StreamItem B} {c' : ImageCore} (hserve : c.serve B = (.ok a, c')) :
    Midway core body (rs ++ [.ready a]) c' := by
  obtain ⟨hsame, hclean, ⟨bss, left, hhanded, hbody, hleft, hsizes, hnone⟩, hends⟩ := h
  rcases ImageCore.serve_left (B := B) hleft (hsame.advice_eq.trans hadvice) with
    ⟨rfl, hend⟩ | ⟨b, c₁, bs, rest, rfl, hitem, htakes⟩
  · rw [hend] at hserve
    cases hserve
    rw [List.append_nil] at hbody
    refine ⟨hsame, clean_snoc hclean ?_, ⟨bss, [], handed_snoc hhanded rfl, ?_, hleft, hsizes,
      fun _ => rfl⟩, endsWith_snoc hends (fun _ => rfl) fun _ => ⟨bss, hhanded, hbody⟩⟩
    · intro e he
      cases he
    · rw [List.append_nil]
      exact hbody
  · rw [hitem] at hserve
    cases hserve
    have hopen : (.ready none : Poll (StreamItem B)) ∉ rs := by
      intro hmem
      exact htakes.ne_nil (List.append_eq_nil_iff.mp (hnone hmem)).1
    refine ⟨hsame.trans htakes.same, clean_snoc hclean ?_, ⟨bss ++ [bs], rest,
      handed_item hhanded htakes.chunk_eq, ?_, htakes.left, ?_, ?_⟩,
      endsWith_snoc hends (fun hmem => absurd hmem hopen) ?_⟩
    · intro e he
      cases he
    · rw [List.flatten_append, List.flatten_singleton, List.append_assoc]
      exact hbody
    · intro bs' hbs'
      rcases List.mem_append.mp hbs' with hbs' | hbs'
      · exact hsizes bs' hbs'
      · rw [List.mem_singleton.mp hbs', ← hsame.isFile_eq, ← hsame.tune_eq]
        exact ⟨htakes.ne_nil, htakes.file_le⟩
    · intro hmem
      rcases List.mem_append.mp hmem with hmem | hmem
      · exact absurd hmem hopen
      · cases List.mem_singleton.mp hmem
    · intro he
      cases he

theorem Midway.no_panic (h : Midway core body rs c) (hadvice : core.advice = .ok ()) {msg : String}
    {c' : ImageCore} : c.serve B ≠ (.panic msg, c') := by
  intro hserve
  obtain ⟨bss, left, -, -, hleft, -⟩ := h.handed
  rcases ImageCore.serve_left (B := B) hleft (h.same.advice_eq.trans hadvice) with
    ⟨-, hend⟩ | ⟨b, c₁, bs, rest, -, hitem, -⟩
  · rw [hserve] at hend
    cases hend
  · rw [hserve] at hitem
    cases hitem

theorem Midway.consumed_le (h : Midway core body rs c) : c.consumed ≤ c.len := by
  obtain ⟨bss, left, -, -, hleft, -⟩ := h.handed
  rw [hleft.1]
  exact Nat.le_add_right _ _

end Items

/-! ## What a stream delivers -/

section Delivers

variable {S B : Type} [OutputBuf B]

/-- What a stream guarantees at every point:
* the next poll does not panic, and is pending only as its future is, so that with a future that
  answers it returns an item or the end;
* the items handed out are not empty, chunks of a file are no longer than a buffer, and in order they
  are a prefix of the body;
* there is no error;
* once the stream has ended, they are the body, and it ends again with every poll;
* no more is consumed than there is;
* `is_end_stream` is not true while there is a byte that has not been handed out. -/
structure DeliversBody (w : StreamWrapper S B) (core : ImageCore) (body : Bytes) : Prop where
  polls : ∀ {rs s}, w.Polled (w.new core) rs s → ∀ {cx : Context}, cx.Allowed →
    ∃ r s', w.pollNext cx s = (.ok r, s') ∧ (r = .pending → cx.answer = .pending)
  items : ∀ {rs s}, w.Polled (w.new core) rs s → ∃ bss, Handed rs bss ∧ bss.flatten <+: body ∧
    ∀ bs ∈ bss, bs ≠ [] ∧ (core.isFile = true → bs.length ≤ core.tune.image.bufferSizeFs)
  clean : ∀ {rs s}, w.Polled (w.new core) rs s → Clean rs
  ends : ∀ {rs s}, w.Polled (w.new core) rs s → EndsWith body rs
  consumed : ∀ {rs s}, w.Polled (w.new core) rs s → ∀ c ∈ w.image s, c.consumed ≤ c.len
  endStream : ∀ {rs s}, w.Polled (w.new core) rs s → ∃ b, w.isEndStream s = .ok b ∧
    (b = true → ∃ bss, Handed rs bss ∧ bss.flatten = body)

variable {w : StreamWrapper S B} {init : ImageCore → Prop} {stands : S → ImageCore → Prop}
  {waits : S → Nat → Prop} {core : ImageCore} {body : Bytes}

/-- **Where the polls have got to**, by induction on them: each is a step of the service. -/
theorem StreamWrapper.Polled.midway (hw : w.Serves init stands waits) (hinit : init core)
    (hcore : core.Left body) (hadvice : core.advice = .ok ()) {rs : List (Poll (StreamItem B))} {s : S}
    (h : w.Polled (w.new core) rs s) : ∃ c, stands s c ∧ Midway core body rs c := by
  induction h with
  | new => exact ⟨core, hw.new hinit, midway_new hcore⟩
  | poll _ cx hcx hpoll ih =>
    obtain ⟨c, hs, hc⟩ := ih
    have hstep := hw.poll hs hcx
    rw [hpoll] at hstep
    cases hstep with
    | pending hwants hanswer hstands hwaits => exact ⟨c, hstands, hc.pending hwants⟩
    | ready hserve hstands => exact ⟨_, hstands, hc.ready hadvice hserve⟩
    | panic hserve hx => exact absurd hserve (hc.no_panic hadvice)
  | work _ ih =>
    obtain ⟨c, hs, hc⟩ := ih
    exact ⟨c, hw.work hs, hc⟩

theorem StreamWrapper.Serves.delivers (hw : w.Serves init stands waits) (hinit : init core)
    (hcore : core.Left body) (hadvice : core.advice = .ok ()) : DeliversBody w core body where
  polls := by
    intro rs s h cx hcx
    obtain ⟨c, hs, hc⟩ := h.midway hw hinit hcore hadvice
    have hstep := hw.poll hs hcx
    generalize w.pollNext cx s = x at hstep
    cases hstep with
    | pending hwants hanswer hstands hwaits => exact ⟨_, _, rfl, fun _ => hanswer⟩
    | ready hserve hstands => exact ⟨_, _, rfl, fun h => (by cases h)⟩
    | panic hserve hx => exact absurd hserve (hc.no_panic hadvice)
  items := by
    intro rs s h
    obtain ⟨c, hs, hc⟩ := h.midway hw hinit hcore hadvice
    obtain ⟨bss, left, hhanded, hbody, -, hsizes, -⟩ := hc.handed
    exact ⟨bss, hhanded, ⟨left, hbody⟩, hsizes⟩
  clean h := by
    obtain ⟨c, hs, hc⟩ := h.midway hw hinit hcore hadvice
    exact hc.clean
  ends h := by
    obtain ⟨c, hs, hc⟩ := h.midway hw hinit hcore hadvice
    exact hc.ends
  consumed := by
    intro rs s h c' hc'
    obtain ⟨c, hs, hc⟩ := h.midway hw hinit hcore hadvice
    rcases hw.image hs hc' with rfl | ⟨a, hserve⟩
    · exact hc.consumed_le
    · exact (hc.ready hadvice hserve).consumed_le
  endStream := by
    intro rs s h
    obtain ⟨c, hs, hc⟩ := h.midway hw hinit hcore hadvice
    obtain ⟨b, hb, hend⟩ := hw.ended hs
    refine ⟨b, hb, ?_⟩
    intro htrue
    obtain ⟨bss, left, hhanded, hbody, hleft, -⟩ := hc.handed
    have hlen : c.len ≤ c.consumed := of_decide_eq_true (hend htrue)
    have hnil : left = [] := by
      have hall := hleft.1
      exact List.eq_nil_of_length_eq_zero (by omega)
    subst hnil
    rw [List.append_nil] at hbody
    exact ⟨bss, hhanded, hbody⟩

end Delivers

/-- **The three streams deliver the same body**, the body of the image, whatever reads are short or
interrupted and however polls, permits and dispatched closures follow each other. -/
theorem streams_deliver (B : Type) [OutputBuf B] {im : BodyImage} {body : Bytes} (h : im.Backs body)
    (tune : FutioTunables) :
    DeliversBody (asyncBodyImage B) (ImageCore.new im tune (.ok ())) body ∧
    (tune.blockingSemaphore = true →
      DeliversBody (permitBodyImage B) (ImageCore.new im tune (.ok ())) body) ∧
    DeliversBody (dispatchBodyImage B) (ImageCore.new im tune (.ok ())) body :=
  have hleft := ImageCore.new_left h tune (.ok ())
  have hpermit := streamRoutine_tunables fun tune => tune.blockingSemaphore = true
  ⟨asyncBodyImage_serves.delivers trivial hleft rfl,
    fun hsemaphore => (permitBodyImage_serves hpermit id).delivers hsemaphore hleft rfl,
    (dispatchBodyImage_serves (streamRoutine_tunables fun _ => True)).delivers trivial hleft rfl⟩

/-- A body of five bytes, in a file whose first read is interrupted and whose second is short. -/
def unsteadyImage : BodyImage :=
  ⟨.fsRead ⟨ascii "ABCDE", [⟨[], .interrupted⟩, ⟨[], .upTo 2⟩]⟩, 5⟩

theorem unsteadyImage_backs : unsteadyImage.Backs (ascii "ABCDE") :=
  ⟨rfl, by decide, rfl, by decide⟩

theorem unsteady_delivered :
    unsteadyImage.Backs (ascii "ABCDE") ∧
    DeliversBody (asyncBodyImage UniBodyBuf)
      (ImageCore.new unsteadyImage ⟨Tunables.new Tunables.calmDir, .permit⟩ (.ok ())) (ascii "ABCDE") ∧
    (FutioTunables.blockingSemaphore ⟨Tunables.new Tunables.calmDir, .permit⟩ = true →
      DeliversBody (permitBodyImage UniBodyBuf)
        (ImageCore.new unsteadyImage ⟨Tunables.new Tunables.calmDir, .permit⟩ (.ok ()))
        (ascii "ABCDE")) ∧
    DeliversBody (dispatchBodyImage UniBodyBuf)
      (ImageCore.new unsteadyImage ⟨Tunables.new Tunables.calmDir, .permit⟩ (.ok ())) (ascii "ABCDE") :=
  ⟨unsteadyImage_backs, streams_deliver UniBodyBuf unsteadyImage_backs
    ⟨Tunables.new Tunables.calmDir, .permit⟩⟩

end BodyArchive
