import BodyArchive.Body.ReadFrom

/-!
# Reading a body, call by call

`read_from` as a machine that takes the answers to its `read` calls one at a time. Between two
calls it is at a `Point`: filling a buffer for memory, writing to a file, or done. The machine
needs no reader, so it can be run on the answers of one that never ends.

`readFrom_runs` says that it is the same program: with any reader, `read_from` returns what the
machine is done with after that reader's answers.
-/

namespace BodyArchive

namespace BodyImage

/-- What a read call returns. -/
abbrev Answer := Except IoError Bytes

/-- Where `read_from` stands when it calls `read`. -/
inductive Point where
  | filling (body : BodySink) (size : Nat) (buf : BytesMut)
  | writing (body : BodySink) (size : Nat)
  | done (r : Res BodyError BodyImage)

namespace Point

variable (tune : Tunables)

/-- The length of the slice offered. -/
def offered : Point → Nat
  | filling _ _ buf => buf.chunkMut.spare
  | writing _ _ => tune.bufferSizeFs
  | done _ => 0

def isDone : Point → Bool
  | done _ => true
  | _ => false

/-- Go on with a sink, unless an operation on it has failed. -/
def onward (next : BodySink → Point) : Res BodyError Unit × BodySink → Point
  | (.ok (), body) => next body
  | (.err e, _) => done (.err e)
  | (.panic m, _) => done (.panic m)

/-- `read_to_body_fs` is entered. -/
def toFs (body : BodySink) : Point :=
  if body.isRam then done (.panic "assertion failed: !body.is_ram()") else writing body 0

/-- A buffer is filled. -/
def filled (body : BodySink) (size : Nat) (buf : BytesMut) : Point :=
  if buf.bytes.length = 0 then done (.ofExcept (body.prepare none))
  else
    let size := size + buf.bytes.length
    if tune.maxBody < size then done (.err (.bodyTooLong size))
    else if tune.maxBodyRam < size then
      onward
        (fun body => onward toFs (Prog.mapErr .io (BodySink.writeAll .done buf.bytes) body))
        (BodySink.writeBack tune.tempDir [] body)
    else
      onward (fun body => filling body size (BytesMut.withCapacity tune.bufferSizeRam))
        (Prog.mapErr .io (BodySink.push .done buf.bytes) body)

/-- A read call is answered. -/
def step : Point → Answer → Point
  | filling body size buf, x =>
    let buf := buf.chunkMut
    match x with
    | .ok [] => filled tune body size buf
    | .ok bs =>
      let buf := buf.advanceMut bs
      if buf.remainingMut < 1024 then filled tune body size buf else filling body size buf
    | .error .interrupted => filling body size buf
    | .error e => done (.err (.io e))
  | writing body size, x =>
    match x with
    | .ok [] => done (.ofExcept (body.prepare none))
    | .ok bs =>
      let size := size + bs.length
      if tune.maxBody < size then done (.err (.bodyTooLong size))
      else onward (fun body => writing body size)
        (Prog.mapErr .io (BodySink.writeAll .done bs) body)
    | .error .interrupted => writing body size
    | .error e => done (.err (.io e))
  | done r, _ => done r

/-- Where `read_from` makes its first call. -/
def start (lenEstimate : Nat) : Point :=
  if tune.maxBodyRam < lenEstimate then
    match BodySink.withFs tune.tempDir with
    | .ok body => toFs body
    | .error e => done (.err (.io e))
  else filling (BodySink.withRam lenEstimate) 0 (BytesMut.withCapacity tune.bufferSizeRam)

end Point

/-! ## Runs with a reader -/

section Runs

variable {R : Type} [Read R] (tune : Tunables)

/-- From a point and a reader, these answers lead to another point and what is left of the
reader. -/
inductive Runs : Point → R → List Answer → Point → R → Prop
  | refl (p : Point) (r : R) : Runs p r [] p r
  | step {p q : Point} {r r₁ r' : R} {x : Answer} {xs : List Answer} (going : p.isDone = false)
      (answer : Read.read r (p.offered tune) = (x, r₁)) (rest : Runs (p.step tune x) r₁ xs q r') :
      Runs p r (x :: xs) q r'

variable {tune}

theorem Runs.snoc {p q : Point} {r r₁ r' : R} {x : Answer} {xs : List Answer}
    (h : Runs tune p r xs q r₁) (going : q.isDone = false)
    (answer : Read.read r₁ (q.offered tune) = (x, r')) :
    Runs tune p r (xs ++ [x]) (q.step tune x) r' := by
  induction h with
  | refl p r => exact .step going answer (.refl _ _)
  | step going' answer' rest ih => exact .step going' answer' (ih going answer)

/-- No call is made at the end. -/
theorem Runs.of_isDone {p q : Point} {r r' : R} {xs : List Answer} (h : Runs tune p r xs q r')
    (done : p.isDone = true) : xs = [] := by
  cases h with
  | refl => rfl
  | step going answer rest =>
    rw [done] at going
    cases going

/-- A reader's answers, and where they lead, are determined. -/
theorem Runs.unique {p : Point} {r r₁ r₂ : R} {xs ys : List Answer} {x y : Res BodyError BodyImage}
    (h : Runs tune p r xs (.done x) r₁) (h' : Runs tune p r ys (.done y) r₂) :
    xs = ys ∧ x = y ∧ r₁ = r₂ := by
  generalize hq : Point.done x = q at h
  induction h generalizing ys with
  | refl p r =>
    subst hq
    cases h' with
    | refl => exact ⟨rfl, rfl, rfl⟩
    | step going answer rest => cases going
  | step going answer rest ih =>
    cases h' with
    | refl => cases going
    | step going' answer' rest' =>
      rw [answer] at answer'
      cases answer'
      obtain ⟨hxs, hx, hr⟩ := ih rest' hq
      rw [hxs]
      exact ⟨rfl, hx, hr⟩

variable (tune)

/-- The point is reached, whatever the answers. -/
def Reaches (p : Point) (r : R) (q : Point) (r' : R) : Prop := ∃ xs, Runs tune p r xs q r'

variable {tune}

theorem Reaches.refl (tune : Tunables) (p : Point) (r : R) : Reaches tune p r p r := ⟨[], .refl p r⟩

theorem Reaches.step {p q : Point} {r r₁ r' : R} {x : Answer} (h : Reaches tune p r q r₁)
    (going : q.isDone = false) (answer : Read.read r₁ (q.offered tune) = (x, r')) :
    Reaches tune p r (q.step tune x) r' := by
  obtain ⟨xs, h⟩ := h
  exact ⟨xs ++ [x], h.snoc going answer⟩

/-! ## The loops reach what the machine reaches -/

section Loops

variable {p₀ : Point} {r₀ : R}

omit [Read R] in
/-- What an operation on a sink comes to, for the program and for the machine. -/
theorem evolve_cases (m : Prog BodySink BodyError Unit) (body : BodySink) (r : R) :
    (∃ body', (Prog.evolve m body : Prog R BodyError BodySink) r = (.ok body', r) ∧
      ∀ next, Point.onward next (m body) = next body') ∨
    (∃ e, (Prog.evolve m body : Prog R BodyError BodySink) r = (.err e, r) ∧
      ∀ next, Point.onward next (m body) = .done (.err e)) ∨
    (∃ msg, (Prog.evolve m body : Prog R BodyError BodySink) r = (.panic msg, r) ∧
      ∀ next, Point.onward next (m body) = .done (.panic msg)) := by
  rcases hm : m body with ⟨⟨⟩ | e | msg, body'⟩
  · exact .inl ⟨body', Prog.evolve_of_ok hm r, fun next => rfl⟩
  · exact .inr (.inl ⟨e, Prog.evolve_of_err hm r, fun next => rfl⟩)
  · exact .inr (.inr ⟨msg, by rw [Prog.evolve, hm], fun next => rfl⟩)

/-- What is reached when a loop has ended: the next point, or the error. -/
def LoopReaches (tune : Tunables) (p₀ : Point) (r₀ : R) {α : Type} (next : α → Point) :
    Res BodyError α × R → Prop
  | (.ok a, r') => Reaches tune p₀ r₀ (next a) r'
  | (.err e, r') => Reaches tune p₀ r₀ (.done (.err e)) r'
  | (.panic msg, r') => Reaches tune p₀ r₀ (.done (.panic msg)) r'

/-- The loop `'fill` reaches the end of the fill. -/
theorem fill_reaches {body : BodySink} {size : Nat} {r : R}
    (h : Reaches tune p₀ r₀
      (.filling body size (BytesMut.withCapacity tune.bufferSizeRam)) r) :
    LoopReaches tune p₀ r₀ (Point.filled tune body size) (fill tune r) := by
  refine Prog.loop_rule fillStep_decreasing
    (fun buf r => Reaches tune p₀ r₀ (.filling body size buf) r) _ ?_ _ r h
  intro buf r₁ hbuf
  rw [fillStep]
  rcases hr : Read.read r₁ buf.chunkMut.spare with ⟨e | bs, r₂⟩
  · have hnext := hbuf.step rfl hr
    rw [Prog.bind_of_ok (tryRead_of hr)]
    cases e <;> exact hnext
  · have hnext := hbuf.step rfl hr
    rw [Prog.bind_of_ok (tryRead_of hr)]
    cases bs with
    | nil => exact hnext
    | cons b bs =>
      simp only [Point.step] at hnext ⊢
      split
      · next hroom =>
        rw [if_pos hroom] at hnext
        exact hnext
      · next hroom =>
        rw [if_neg hroom] at hnext
        exact hnext

/-- The loop `'eof` reaches the file part, or the end. -/
theorem readFromLoop_reaches {body : BodySink} {size : Nat} {r : R}
    (h : Reaches tune p₀ r₀
      (.filling body size (BytesMut.withCapacity tune.bufferSizeRam)) r) :
    LoopReaches tune p₀ r₀
      (fun st => if st.2 then Point.toFs st.1 else .done (.ofExcept (st.1.prepare none)))
      (Prog.loop Read.fuel (readFromStep tune) (body, size) r) := by
  refine Prog.loop_rule (readFromStep_decreasing tune)
    (fun st r => Reaches tune p₀ r₀
      (.filling st.1 st.2 (BytesMut.withCapacity tune.bufferSizeRam)) r) _ ?_ _ r h
  intro st r₁ hst
  obtain ⟨body, size⟩ := st
  rw [readFromStep]
  have hfill := fill_reaches hst
  rcases hf : fill tune r₁ with ⟨buf | e | msg, r₂⟩ <;> rw [hf] at hfill
  · rw [Prog.bind_of_ok hf]
    simp only [LoopReaches, Point.filled] at hfill
    split
    · next hempty =>
      rw [if_pos hempty] at hfill
      exact hfill
    · next hfull =>
      rw [if_neg hfull] at hfill
      simp only
      split
      · next hlong =>
        rw [if_pos hlong] at hfill
        exact hfill
      · next hshort =>
        rw [if_neg hshort] at hfill
        split
        · next hback =>
          rw [if_pos hback] at hfill
          rcases evolve_cases (BodySink.writeBack tune.tempDir []) body r₂ with
            ⟨body₁, he, hon⟩ | ⟨e, he, hon⟩ | ⟨msg, he, hon⟩ <;> rw [hon] at hfill
          · rw [Prog.bind_of_ok he]
            rcases evolve_cases (Prog.mapErr .io (BodySink.writeAll .done buf.bytes)) body₁ r₂ with
              ⟨body₂, he₂, hon₂⟩ | ⟨e, he₂, hon₂⟩ | ⟨msg, he₂, hon₂⟩ <;> rw [hon₂] at hfill
            · rw [Prog.bind_of_ok he₂]
              exact hfill
            · rw [Prog.bind_of_err he₂]
              exact hfill
            · rw [Prog.bind_of_panic he₂]
              exact hfill
          · rw [Prog.bind_of_err he]
            exact hfill
          · rw [Prog.bind_of_panic he]
            exact hfill
        · next hram =>
          rw [if_neg hram] at hfill
          rcases evolve_cases (Prog.mapErr .io (BodySink.push .done buf.bytes)) body r₂ with
            ⟨body₁, he, hon⟩ | ⟨e, he, hon⟩ | ⟨msg, he, hon⟩ <;> rw [hon] at hfill
          · rw [Prog.bind_of_ok he]
            exact hfill
          · rw [Prog.bind_of_err he]
            exact hfill
          · rw [Prog.bind_of_panic he]
            exact hfill
  · rw [Prog.bind_of_err hf]
    exact hfill
  · rw [Prog.bind_of_panic hf]
    exact hfill

/-- The file part reaches its end. -/
theorem readToBodyFs_reaches {body : BodySink} {r : R}
    (h : Reaches tune p₀ r₀ (Point.toFs body) r) :
    Reaches tune p₀ r₀ (.done (readToBodyFs tune body r).1) (readToBodyFs tune body r).2 := by
  rw [readToBodyFs]
  rw [Point.toFs] at h
  cases hram : body.isRam with
  | true =>
    rw [hram, if_pos rfl] at h
    rw [Prog.bind_of_panic (Prog.assert_false (show (!true) = false from rfl) _ r)]
    exact h
  | false =>
    rw [hram, if_neg (by simp)] at h
    rw [Prog.bind_of_ok (Prog.assert_true (show (!false) = true from rfl) _ r)]
    have hloop : LoopReaches tune p₀ r₀ (fun body => .done (.ofExcept (body.prepare none)))
        (Prog.loop Read.fuel (readToBodyFsStep tune) (body, 0) r) := by
      refine Prog.loop_rule (readToBodyFsStep_decreasing tune)
        (fun st r => Reaches tune p₀ r₀ (.writing st.1 st.2) r) _ ?_ _ r h
      intro st r₁ hst
      obtain ⟨body, size⟩ := st
      rw [readToBodyFsStep]
      rcases hr : Read.read r₁ tune.bufferSizeFs with ⟨e | bs, r₂⟩
      · have hnext := hst.step rfl hr
        rw [Prog.bind_of_ok (tryRead_of hr)]
        cases e <;> exact hnext
      · have hnext := hst.step rfl hr
        rw [Prog.bind_of_ok (tryRead_of hr)]
        cases bs with
        | nil => exact hnext
        | cons b bs =>
          simp only [Point.step] at hnext ⊢
          split
          · next hlong =>
            rw [if_pos hlong] at hnext
            exact hnext
          · next hshort =>
            rw [if_neg hshort] at hnext
            rcases evolve_cases (Prog.mapErr .io (BodySink.writeAll .done (b :: bs))) body r₂ with
              ⟨body₁, he, hon⟩ | ⟨e, he, hon⟩ | ⟨msg, he, hon⟩ <;> rw [hon] at hnext
            · rw [Prog.bind_of_ok he]
              exact hnext
            · rw [Prog.bind_of_err he]
              exact hnext
            · rw [Prog.bind_of_panic he]
              exact hnext
    rcases hl : Prog.loop Read.fuel (readToBodyFsStep tune) (body, 0) r with
      ⟨body' | e | msg, r'⟩ <;> rw [hl] at hloop
    · rw [Prog.bind_of_ok hl]
      exact hloop
    · rw [Prog.bind_of_err hl]
      exact hloop
    · rw [Prog.bind_of_panic hl]
      exact hloop

/-- All of `read_from` reaches its end. -/
theorem readFrom_reaches {lenEstimate : Nat} {r : R}
    (h : Reaches tune p₀ r₀ (Point.start tune lenEstimate) r) :
    Reaches tune p₀ r₀ (.done (readFrom tune lenEstimate r).1) (readFrom tune lenEstimate r).2 := by
  rw [readFrom]
  rw [Point.start] at h
  by_cases hest : tune.maxBodyRam < lenEstimate
  · rw [if_pos hest] at h ⊢
    cases hw : BodySink.withFs tune.tempDir with
    | error e =>
      rw [hw] at h
      exact h
    | ok body =>
      rw [hw] at h
      exact readToBodyFs_reaches h
  · rw [if_neg hest] at h ⊢
    have hloop := readFromLoop_reaches h
    rcases hl : Prog.loop Read.fuel (readFromStep tune) (BodySink.withRam lenEstimate, 0) r with
      ⟨⟨body, toFs⟩ | e | msg, r'⟩ <;> rw [hl] at hloop
    · rw [Prog.bind_of_ok hl]
      cases toFs with
      | true => exact readToBodyFs_reaches hloop
      | false => exact hloop
    · rw [Prog.bind_of_err hl]
      exact hloop
    · rw [Prog.bind_of_panic hl]
      exact hloop

end Loops

/-- A program whose end is reached returns nothing else. -/
theorem reaches_iff {m : Prog R BodyError BodyImage} {p : Point} {r r' : R}
    {x : Res BodyError BodyImage} (h : Reaches tune p r (.done (m r).1) (m r).2) :
    m r = (x, r') ↔ Reaches tune p r (.done x) r' := by
  constructor
  · intro hm
    rw [hm] at h
    exact h
  · intro hx
    obtain ⟨xs, h⟩ := h
    obtain ⟨ys, hx⟩ := hx
    obtain ⟨-, hres, hr⟩ := h.unique hx
    exact Prod.ext hres hr

/-- **`read_from` is the machine** from its start. -/
theorem readFrom_runs {lenEstimate : Nat} {r r' : R} {x : Res BodyError BodyImage} :
    readFrom tune lenEstimate r = (x, r') ↔
      Reaches tune (Point.start tune lenEstimate) r (.done x) r' :=
  reaches_iff (readFrom_reaches (Reaches.refl tune _ r))

end Runs

/-! ## What comes out -/

/-- The bytes of an answer. -/
def Answer.bytes : Answer → Bytes
  | .ok bs => bs
  | .error _ => []

/-- The bytes that have come are all held, in the sink and in the buffer, or by the image; and
nothing has panicked. -/
def Holds : Point → Bytes → Prop
  | .filling body _ buf, got => body.Sound ∧ body.held ++ buf.bytes = got
  | .writing body _, got => body.Sound ∧ body.held = got
  | .done (.ok im), got => im.Backs got
  | .done (.err _), _ => True
  | .done (.panic _), _ => False

section Content

variable {tune : Tunables}

theorem prepare_holds {body : BodySink} (hs : body.Sound) :
    Holds (.done (.ofExcept (body.prepare none))) body.held := by
  obtain ⟨im, him⟩ := prepare_ok body
  rw [him]
  exact (prepare_backs hs him).1

/-- An accepted buffer is held. -/
theorem append_holds {body : BodySink} (hs : body.Sound) (buf : Bytes) {got : Bytes}
    {next : BodySink → Point}
    (h : ∀ body', body'.Sound → body'.held = body.held ++ buf → body'.isRam = body.isRam →
      Holds (next body') got) :
    Holds (.onward next (Prog.mapErr .io (BodySink.push .done buf) body)) got := by
  obtain ⟨body', hp, hs', hheld, hram⟩ := BodySink.push_done hs buf
  rw [Prog.mapErr_of_ok hp]
  exact h body' hs' hheld hram

theorem toFs_holds {body : BodySink} (hs : body.Sound) (hfs : body.isRam = false) :
    Holds (.toFs body) body.held := by
  unfold Point.toFs
  rw [hfs]
  exact ⟨hs, rfl⟩

theorem filled_holds {body : BodySink} {size : Nat} {buf : BytesMut} {got : Bytes}
    (h : Holds (.filling body size buf) got) : Holds (.filled tune body size buf) got := by
  obtain ⟨hs, rfl⟩ := h
  unfold Point.filled
  split
  · next hempty =>
    rw [List.eq_nil_of_length_eq_zero hempty, List.append_nil]
    exact prepare_holds hs
  · simp only
    split
    · trivial
    · split
      · rcases BodySink.writeBack_cases hs tune.tempDir [] with
          ⟨body₁, hwb, hs₁, hheld₁, hfs₁⟩ | ⟨e, hwb⟩
        · rw [hwb, Point.onward, BodySink.writeAll_eq_push]
          apply append_holds hs₁
          intro body₂ hs₂ hheld₂ hram₂
          rw [← hheld₁, ← hheld₂]
          exact toFs_holds hs₂ (hram₂.trans hfs₁)
        · rw [hwb]
          trivial
      · apply append_holds hs
        intro body₁ hs₁ hheld₁ _
        exact ⟨hs₁, by rw [hheld₁]; exact List.append_nil _⟩

/-- **One call** adds its bytes to what is held. -/
theorem step_holds {p : Point} {got : Bytes} (h : Holds p got) (going : p.isDone = false)
    (x : Answer) : Holds (p.step tune x) (got ++ x.bytes) := by
  cases p with
  | done r => cases going
  | filling body size buf =>
    have hchunk (bs : Bytes) :
        Holds (.filling body size (buf.chunkMut.advanceMut bs)) (got ++ bs) := by
      refine ⟨h.1, ?_⟩
      rw [BytesMut.advanceMut_bytes, BytesMut.chunkMut_bytes, ← List.append_assoc, h.2]
    have hsame : Holds (.filling body size buf.chunkMut) (got ++ []) := by
      rw [List.append_nil]
      exact ⟨h.1, by rw [BytesMut.chunkMut_bytes, h.2]⟩
    rcases x with e | bs
    · cases e <;> trivial
    · cases bs with
      | nil => exact filled_holds hsame
      | cons b bs =>
        simp only [Point.step]
        split
        · exact filled_holds (hchunk (b :: bs))
        · exact hchunk (b :: bs)
  | writing body size =>
    obtain ⟨hs, rfl⟩ := h
    rcases x with e | bs
    · cases e <;> first | trivial | exact ⟨hs, (List.append_nil _).symm⟩
    · cases bs with
      | nil =>
        show Holds (.done (.ofExcept (body.prepare none))) (body.held ++ [])
        rw [List.append_nil]
        exact prepare_holds hs
      | cons b bs =>
        simp only [Point.step]
        split
        · trivial
        · rw [BodySink.writeAll_eq_push]
          apply append_holds hs
          intro body₁ hs₁ hheld₁ _
          exact ⟨hs₁, hheld₁⟩

theorem withFs_isRam {dir : TempDir} {s : BodySink} (h : BodySink.withFs dir = .ok s) :
    s.isRam = false := by
  unfold BodySink.withFs at h
  split at h <;> cases h
  rfl

theorem start_holds (lenEstimate : Nat) : Holds (.start tune lenEstimate) [] := by
  unfold Point.start
  split
  · cases hw : BodySink.withFs tune.tempDir with
    | error e => trivial
    | ok body =>
      obtain ⟨hs, hheld⟩ := BodySink.sound_withFs hw
      rw [← hheld]
      exact toFs_holds hs (withFs_isRam hw)
  · rw [BodySink.withRam_eq]
    exact ⟨BodySink.sound_ram_nil, rfl⟩

/-! Only a zero-length read ends in an image. -/

theorem onward_ne {next : BodySink → Point} {im : BodyImage} (h : ∀ b, next b ≠ .done (.ok im))
    (x : Res BodyError Unit × BodySink) : Point.onward next x ≠ .done (.ok im) := by
  rcases x with ⟨⟨⟩ | e | msg, b⟩
  · exact h b
  · intro hx
    cases hx
  · intro hx
    cases hx

theorem toFs_ne (body : BodySink) (im : BodyImage) : Point.toFs body ≠ .done (.ok im) := by
  unfold Point.toFs
  split <;> intro hx <;> cases hx

theorem start_ne (lenEstimate : Nat) (im : BodyImage) :
    Point.start tune lenEstimate ≠ .done (.ok im) := by
  unfold Point.start
  split
  · split
    · exact toFs_ne _ im
    · intro h
      cases h
  · intro h
    cases h

theorem filled_ok {body : BodySink} {size : Nat} {buf : BytesMut} {im : BodyImage}
    (h : Point.filled tune body size buf = .done (.ok im)) :
    buf.bytes.length = 0 ∧ body.prepare none = .ok im := by
  unfold Point.filled at h
  split at h
  · next hempty =>
    simp only [Point.done.injEq] at h
    exact ⟨hempty, Res.ofExcept_ok h⟩
  · simp only at h
    split at h
    · cases h
    · split at h
      · exact absurd h (onward_ne (fun b => onward_ne (toFs_ne · im) _) _)
      · refine absurd h (onward_ne (fun b hb => ?_) _)
        cases hb

theorem step_ok {p : Point} {x : Answer} {im : BodyImage} (going : p.isDone = false)
    (h : p.step tune x = .done (.ok im)) : x = .ok [] := by
  cases p with
  | done r => cases going
  | filling body size buf =>
    rcases x with e | bs
    · cases e <;> cases h
    · cases bs with
      | nil => rfl
      | cons b bs =>
        simp only [Point.step] at h
        split at h
        · have hempty := (filled_ok h).1
          rw [BytesMut.advanceMut_bytes, List.length_append, List.length_cons] at hempty
          omega
        · cases h
  | writing body size =>
    rcases x with e | bs
    · cases e <;> cases h
    · cases bs with
      | nil => rfl
      | cons b bs =>
        simp only [Point.step] at h
        split at h
        · cases h
        · refine absurd h (onward_ne (fun b hb => ?_) _)
          cases hb

theorem step_error {p : Point} (going : p.isDone = false) {e : IoError} (he : e ≠ .interrupted) :
    p.step tune (.error e) = .done (.err (.io e)) := by
  cases p with
  | done r => cases going
  | filling body size buf => cases e <;> first | rfl | exact absurd rfl he
  | writing body size => cases e <;> first | rfl | exact absurd rfl he

theorem offered_pos {p : Point} (going : p.isDone = false) : 0 < p.offered tune := by
  cases p with
  | done r => cases going
  | filling body size buf => exact buf.chunkMut_spare_pos
  | writing body size => exact tune.buffer_fs_pos

/-- A run that ends in an image has read the stream to its end, and the image stands for all of
it. -/
theorem runs_ok {R : Type} [Source R] {p q : Point} {r r' : R} {xs : List Answer}
    (hruns : Runs tune p r xs q r') {got bs : Bytes} {pos : Nat} {t : Tail} {im : BodyImage}
    (h : Holds p got) (hrest : Rest r pos bs t) (ht : t ≠ .more) (going : p.isDone = false)
    (hq : q = .done (.ok im)) : t = .eof ∧ im.Backs (got ++ bs) := by
  induction hruns generalizing got bs pos with
  | refl p r =>
    subst hq
    cases going
  | @step p q r r₁ r' x xs going' answer rest ih =>
    -- Either this was the last call, or the rest of the run goes on from here.
    have hlast (him : p.step tune x = .done (.ok im)) :
        x = .ok [] ∧ im.Backs (got ++ x.bytes) := by
      have hnext := @step_holds tune p got h going' x
      rw [him] at hnext
      exact ⟨step_ok going' him, hnext⟩
    have hon {left : Bytes} {pos' : Nat} (hgoing : (p.step tune x).isDone = false)
        (hrest' : Rest r₁ pos' left t) : t = .eof ∧ im.Backs (got ++ x.bytes ++ left) :=
      ih (step_holds h going' x) hrest' hgoing hq
    have hend : (p.step tune x).isDone = false ∨ p.step tune x = .done (.ok im) := by
      cases hp : p.step tune x with
      | filling body size buf => exact .inl rfl
      | writing body size => exact .inl rfl
      | done res =>
        rw [hp] at rest
        cases rest with
        | step going'' answer' rest' => cases going''
        | refl => exact .inr hq
    rcases Source.step hrest (offered_pos going') (fun hm => absurd hm ht) with
      ⟨k, r₂, hr, -, -, hpos, heof, hrest'⟩ | ⟨r₂, hr, hrest'⟩ | ⟨-, e, r₂, -, hint, hr⟩
    · rw [answer] at hr
      cases hr
      rcases hend with hgoing | him
      · obtain ⟨hteof, hbacks⟩ := hon hgoing hrest'
        rw [List.append_assoc] at hbacks
        exact ⟨hteof, by rwa [Answer.bytes, List.take_append_drop] at hbacks⟩
      · obtain ⟨hx, hbacks⟩ := hlast him
        have hbs := nil_of_take hpos (Except.ok.inj hx)
        rw [hx] at hbacks
        rw [hbs]
        exact ⟨heof hbs, hbacks⟩
    · rw [answer] at hr
      cases hr
      rcases hend with hgoing | him
      · obtain ⟨hteof, hbacks⟩ := hon hgoing hrest'
        rw [Answer.bytes, List.append_nil] at hbacks
        exact ⟨hteof, hbacks⟩
      · cases (hlast him).1
    · rw [answer] at hr
      cases hr
      rcases hend with hgoing | him
      · rw [step_error going' hint] at hgoing
        cases hgoing
      · cases (hlast him).1

/-- Nothing that is held from the start panics. -/
theorem runs_safe {R : Type} [Read R] {p q : Point} {r r' : R} {xs : List Answer}
    (hruns : Runs tune p r xs q r') {got : Bytes} (h : Holds p got) :
    ∃ got', Holds q got' := by
  induction hruns generalizing got with
  | refl p r => exact ⟨got, h⟩
  | step going answer rest ih => exact ih (step_holds h going _)

theorem readFrom_no_panic {R : Type} [Read R] {lenEstimate : Nat} {r r' : R} {msg : String} :
    readFrom tune lenEstimate r ≠ (.panic msg, r') := by
  intro h
  obtain ⟨xs, hruns⟩ := readFrom_runs.mp h
  obtain ⟨got, hpanic⟩ := runs_safe hruns (start_holds lenEstimate)
  exact hpanic

/-- **An image that `read_from` returns** stands for all of a stream that has ended. -/
theorem readFrom_ok_backs {R : Type} [Source R] {lenEstimate pos : Nat} {r r' : R} {bs : Bytes}
    {t : Tail} {im : BodyImage} (hrest : Rest r pos bs t) (ht : t ≠ .more)
    (h : readFrom tune lenEstimate r = (.ok im, r')) : t = .eof ∧ im.Backs bs := by
  obtain ⟨xs, hruns⟩ := readFrom_runs.mp h
  cases hp : (Point.start tune lenEstimate).isDone with
  | false => exact runs_ok hruns (start_holds lenEstimate) hrest ht hp rfl
  | true =>
    cases hstart : Point.start tune lenEstimate with
    | done res =>
      rw [hstart] at hruns
      cases hruns with
      | step going answer rest => cases going
      | refl => exact absurd hstart (start_ne lenEstimate im)
    | filling body size buf =>
      rw [hstart] at hp
      cases hp
    | writing body size =>
      rw [hstart] at hp
      cases hp

end Content

end BodyImage

end BodyArchive
