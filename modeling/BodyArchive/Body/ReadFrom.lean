import BodyArchive.Body.Content

/-!
# Reading a body

`read_from` collects a stream of unknown length: in RAM while it is short, then in a temporary
file, and no further than the size limits allow. Temporary files that can be created can be
written here.

A body ends up the same however its stream is delivered: `readFrom_rest` gives the outcome in
terms of the stream's bytes alone.
-/

namespace BodyArchive

/-! ## Growable buffers -/

/-- The largest `usize`. -/
def usizeMax : Nat := 2 ^ 64 - 1

/-- The largest `isize`, and so the largest capacity that can be allocated. -/
def isizeMax : Nat := 2 ^ 63 - 1

/-- `BytesMut`: bytes, with a capacity for more. The code panics when it asks for a capacity over
`isizeMax`; here a buffer can have any, and it is shown where they stay below
(`BodyImage.runs_capacity`). -/
structure BytesMut where
  bytes : Bytes
  cap : Nat
  le_cap : bytes.length ≤ cap

namespace BytesMut

/-- `with_capacity`, of a capacity that can be allocated. -/
def withCapacity (n : Nat) : BytesMut := ⟨[], n, Nat.zero_le _⟩

/-- `chunk_mut`: the buffer, with room for at least 64 more bytes when it was full, if that can be
allocated. -/
def chunkMut (b : BytesMut) : BytesMut :=
  if b.bytes.length = b.cap then
    ⟨b.bytes, max (2 * b.cap) (b.cap + 64), by have := b.le_cap; omega⟩
  else b

/-- The length of the chunk. -/
def spare (b : BytesMut) : Nat := b.cap - b.bytes.length

/-- Add bytes that were written to the chunk. -/
def advanceMut (b : BytesMut) (bs : Bytes) : BytesMut :=
  ⟨b.bytes ++ bs, max b.cap (b.bytes ++ bs).length, Nat.le_max_right _ _⟩

/-- `remaining_mut`: a buffer that can grow has room up to the largest `usize`. -/
def remainingMut (b : BytesMut) : Nat := usizeMax - b.bytes.length

@[simp] theorem chunkMut_bytes (b : BytesMut) : b.chunkMut.bytes = b.bytes := by
  rw [chunkMut]
  split <;> rfl

theorem chunkMut_spare_pos (b : BytesMut) : 0 < b.chunkMut.spare := by
  have := b.le_cap
  rw [chunkMut, spare]
  split
  · simp only
    omega
  · omega

@[simp] theorem advanceMut_bytes (b : BytesMut) (bs : Bytes) :
    (b.advanceMut bs).bytes = b.bytes ++ bs := rfl

end BytesMut

namespace BodyImage

section Programs

variable {R : Type} [Read R] (tune : Tunables)

/-! ## The file part -/

/-- One round of `read_to_body_fs`: its buffer is empty at each read, so its chunk has the
buffer's size. -/
def readToBodyFsStep (st : BodySink × Nat) :
    Prog R BodyError ((BodySink × Nat) ⊕ BodySink) := do
  let (body, size) := st
  match ← tryRead tune.bufferSizeFs with
  | .ok [] => pure (.inr body)
  | .ok bs =>
    let size := size + bs.length
    if tune.maxBody < size then Prog.throw (.bodyTooLong size) else do
      let body ← Prog.evolve (Prog.mapErr .io (BodySink.writeAll .done bs)) body
      pure (.inl (body, size))
  | .error .interrupted => pure (.inl (body, size))
  | .error e => Prog.throw (.io e)

/-- `read_to_body_fs`: only the bytes read here count against `max_body`. -/
def readToBodyFs (body : BodySink) : Prog R BodyError BodyImage := do
  Prog.assert (!body.isRam) "assertion failed: !body.is_ram()"
  let body ← Prog.loop Read.fuel (readToBodyFsStep tune) (body, 0)
  Prog.ofRes (.ofExcept (body.prepare none))

/-! ## The RAM part -/

/-- One round of the loop `'fill`. -/
def fillStep (buf : BytesMut) : Prog R BodyError (BytesMut ⊕ BytesMut) := do
  let buf := buf.chunkMut
  match ← tryRead buf.spare with
  | .ok [] => pure (.inr buf)
  | .ok bs =>
    let buf := buf.advanceMut bs
    if buf.remainingMut < 1024 then pure (.inr buf) else pure (.inl buf)
  | .error .interrupted => pure (.inl buf)
  | .error e => Prog.throw (.io e)

/-- The loop `'fill`, which fills a buffer until a read returns nothing. -/
def fill : Prog R BodyError BytesMut :=
  Prog.loop Read.fuel fillStep (BytesMut.withCapacity tune.bufferSizeRam)

/-- One round of the loop `'eof`. It ends with the body, and whether the rest is to go to a
file. -/
def readFromStep (st : BodySink × Nat) :
    Prog R BodyError ((BodySink × Nat) ⊕ (BodySink × Bool)) := do
  let (body, size) := st
  let buf ← fill tune
  if buf.bytes.length = 0 then pure (.inr (body, false)) else do
    let size := size + buf.bytes.length
    if tune.maxBody < size then Prog.throw (.bodyTooLong size)
    else if tune.maxBodyRam < size then do
      let body ← Prog.evolve (BodySink.writeBack tune.tempDir []) body
      let body ← Prog.evolve (Prog.mapErr .io (BodySink.writeAll .done buf.bytes)) body
      pure (.inr (body, true))
    else do
      let body ← Prog.evolve (Prog.mapErr .io (BodySink.push .done buf.bytes)) body
      pure (.inl (body, size))

def readFrom (lenEstimate : Nat) : Prog R BodyError BodyImage :=
  if tune.maxBodyRam < lenEstimate then do
    let body ← Prog.mapErr .io (Prog.ofRes (.ofExcept (BodySink.withFs tune.tempDir)))
    readToBodyFs tune body
  else do
    let (body, toFs) ← Prog.loop Read.fuel (readFromStep tune) (BodySink.withRam lenEstimate, 0)
    if toFs then readToBodyFs tune body else Prog.ofRes (.ofExcept (body.prepare none))

/-! ## Termination -/

theorem readToBodyFsStep_decreasing :
    Prog.Decreasing Read.fuel (readToBodyFsStep (R := R) tune) := by
  rintro ⟨body, size⟩ r st' r' h
  rw [readToBodyFsStep] at h
  rcases hr : Read.read r tune.bufferSizeFs with ⟨(e | bs), r₁⟩ <;>
    rw [Prog.bind_of_ok (tryRead_of hr)] at h
  · cases e <;> cases h
    exact Read.fuel_interrupted hr
  · cases bs with
    | nil => cases h
    | cons b bs =>
      simp only at h
      split at h
      · cases h
      · obtain ⟨body', r₂, hw, hnext⟩ := Prog.bind_eq_ok h
        cases hnext
        rw [Prog.evolve_state hw]
        exact Read.fuel_bytes hr (by simp)

theorem fillStep_decreasing : Prog.Decreasing Read.fuel (fillStep (R := R)) := by
  intro buf r buf' r' h
  rw [fillStep] at h
  rcases hr : Read.read r buf.chunkMut.spare with ⟨(e | bs), r₁⟩ <;>
    rw [Prog.bind_of_ok (tryRead_of hr)] at h
  · cases e <;> cases h
    exact Read.fuel_interrupted hr
  · cases bs with
    | nil => cases h
    | cons b bs =>
      simp only at h
      split at h <;> cases h
      exact Read.fuel_bytes hr (by simp)

/-- A buffer that was filled with anything took a read that made progress. -/
theorem fill_fuel {r r' : R} {buf : BytesMut} (h : fill tune r = (.ok buf, r'))
    (hne : buf.bytes ≠ []) : Read.fuel r' < Read.fuel r := by
  have hloop := Prog.loop_rule fillStep_decreasing
    (fun buf r₁ => Read.fuel r₁ ≤ Read.fuel r ∧ (buf.bytes ≠ [] → Read.fuel r₁ < Read.fuel r))
    (fun x => ∀ buf, x.1 = .ok buf → buf.bytes ≠ [] → Read.fuel x.2 < Read.fuel r)
    ?_ (BytesMut.withCapacity tune.bufferSizeRam) r ⟨Nat.le_refl _, fun h => absurd rfl h⟩
  · rw [fill] at h
    rw [h] at hloop
    exact hloop buf rfl hne
  rintro buf r₁ ⟨hle, hlt⟩
  rw [fillStep]
  rcases hr : Read.read r₁ buf.chunkMut.spare with ⟨(e | bs), r₂⟩ <;>
    rw [Prog.bind_of_ok (tryRead_of hr)]
  · have hle₂ := Read.fuel_le hr
    cases e with
    | interrupted =>
      refine ⟨by omega, fun hne => ?_⟩
      have := hlt (by simpa using hne)
      omega
    | _ => rintro buf ⟨⟩
  · have hle₂ := Read.fuel_le hr
    cases bs with
    | nil =>
      rintro buf' hbuf hne
      cases hbuf
      have := hlt (by simpa using hne)
      show Read.fuel r₂ < Read.fuel r
      omega
    | cons b bs =>
      have hlt₂ := Read.fuel_bytes hr (by simp)
      simp only
      split
      · rintro buf' - -
        show Read.fuel r₂ < Read.fuel r
        omega
      · exact ⟨by omega, fun _ => by omega⟩

theorem readFromStep_decreasing :
    Prog.Decreasing Read.fuel (readFromStep (R := R) tune) := by
  rintro ⟨body, size⟩ r st' r' h
  rw [readFromStep] at h
  obtain ⟨buf, r₁, hf, h⟩ := Prog.bind_eq_ok h
  split at h
  · cases h
  · next hne =>
    simp only at h
    split at h
    · cases h
    · split at h
      · obtain ⟨body₁, r₂, -, h⟩ := Prog.bind_eq_ok h
        obtain ⟨body₂, r₃, -, h⟩ := Prog.bind_eq_ok h
        cases h
      · obtain ⟨body₁, r₂, hw, hnext⟩ := Prog.bind_eq_ok h
        cases hnext
        rw [Prog.evolve_state hw]
        exact fill_fuel tune hf fun hnil => hne (by rw [hnil]; rfl)

end Programs

/-! ## Outcomes -/

/-- Appending to a sink, as a step of a program. -/
theorem append_step {body : BodySink} (hs : body.Sound) (buf : Bytes) {σ ε : Type}
    (f : IoError → ε) (s : σ) :
    ∃ body', (Prog.evolve (Prog.mapErr f (BodySink.writeAll .done buf)) body :
        Prog σ ε BodySink) s = (.ok body', s) ∧ body'.Sound ∧
      body'.held = body.held ++ buf ∧ body'.isRam = body.isRam := by
  obtain ⟨body', hw, hs', hheld, hram⟩ := BodySink.push_done hs buf
  rw [← BodySink.writeAll_eq_push] at hw
  exact ⟨body', Prog.evolve_of_ok (Prog.mapErr_of_ok hw) s, hs', hheld, hram⟩

section Specs

variable {R : Type} [Source R] (tune : Tunables)

/-- The temporary file collects the stream, up to `max_body`. -/
theorem readToBodyFs_loop {r : R} {p : Nat} {bs : Bytes} {t : Tail} (h : Rest r p bs t)
    (ht : t ≠ .more) {body : BodySink} (hs : body.Sound) (hfs : body.isRam = false) :
    Prog.OkIff (t = .eof ∧ bs.length ≤ tune.maxBody)
      (fun body' r' => body'.Sound ∧ body'.isRam = false ∧ body'.held = body.held ++ bs ∧
        Rest r' (p + bs.length) [] t)
      (Prog.loop Read.fuel (readToBodyFsStep tune) (body, 0) r) := by
  refine Prog.loop_rule (readToBodyFsStep_decreasing tune)
    (fun st r => ∃ done left, bs = done ++ left ∧ st.1.Sound ∧ st.1.isRam = false ∧
      st.1.held = body.held ++ done ∧ st.2 = done.length ∧ st.2 ≤ tune.maxBody ∧
      Rest r (p + done.length) left t)
    _ ?_ (body, 0) r ⟨[], bs, rfl, hs, hfs, by simp, rfl, Nat.zero_le _, h⟩
  rintro ⟨body₁, size⟩ r ⟨done, left, rfl, hs₁, hfs₁, hheld, rfl, hle, hrest⟩
  simp only at hs₁ hfs₁ hheld hle
  rw [readToBodyFsStep]
  rcases Source.step hrest tune.buffer_fs_pos (fun hm => absurd hm ht) with
    ⟨k, r', hr, -, hkl, hpos, heof, hrest'⟩ | ⟨r', hr, hrest'⟩ | ⟨-, e, r', he, hint, hr⟩ <;>
    rw [Prog.bind_of_ok (tryRead_of hr)]
  · cases hc : left.take k with
    | nil =>
      obtain rfl := nil_of_take hpos hc
      have hk : k = 0 := by simpa using hkl
      subst hk
      refine .inl ⟨⟨heof rfl, by simpa using hle⟩, body₁, r', rfl, hs₁, hfs₁, by simpa using hheld,
        by simpa using hrest'⟩
    | cons b rest =>
      have hlk : (b :: rest).length = k := by
        rw [← hc, List.length_take]; omega
      simp only [hlk]
      by_cases hlong : tune.maxBody < done.length + k
      · rw [if_pos hlong]
        refine .inr ⟨fun hp => ?_, _, _, rfl⟩
        have := hp.2
        rw [List.length_append] at this
        omega
      · rw [if_neg hlong]
        obtain ⟨body₂, hw, hs₂, hheld₂, hram₂⟩ := append_step hs₁ (b :: rest) BodyError.io r'
        rw [Prog.bind_of_ok hw]
        refine ⟨done ++ (b :: rest), left.drop k, ?_, hs₂, by rw [hram₂]; exact hfs₁, ?_, ?_,
          by simpa using hlong, ?_⟩
        · rw [← hc, List.append_assoc, List.take_append_drop]
        · rw [hheld₂, hheld, List.append_assoc]
        · rw [List.length_append, hlk]
        · rw [List.length_append, hlk, ← Nat.add_assoc]
          exact hrest'
  · exact ⟨done, left, rfl, hs₁, hfs₁, hheld, rfl, hle, hrest'⟩
  · subst he
    cases e <;> first | exact .inr ⟨by simp, _, _, rfl⟩ | exact absurd rfl hint

/-- **`read_to_body_fs`** appends the rest of the stream to a sink's file. -/
theorem readToBodyFs_rest {r : R} {p : Nat} {bs : Bytes} {t : Tail} (h : Rest r p bs t)
    (ht : t ≠ .more) {body : BodySink} (hs : body.Sound) (hfs : body.isRam = false) :
    Prog.OkIff (t = .eof ∧ bs.length ≤ tune.maxBody)
      (fun im r' => im.Backs (body.held ++ bs) ∧ Rest r' (p + bs.length) [] t)
      (readToBodyFs tune body r) := by
  rw [readToBodyFs, Prog.bind_of_ok (Prog.assert_true (by rw [hfs]; rfl) _ _)]
  rcases readToBodyFs_loop tune h ht hs hfs with ⟨hp, body', r', hl, hs', -, hheld, hrest⟩ |
    ⟨hp, e, r', hl⟩
  · obtain ⟨im, him⟩ := prepare_ok body'
    refine .inl ⟨hp, im, r', by rw [Prog.bind_of_ok hl, him]; rfl, ?_, hrest⟩
    rw [← hheld]
    exact (prepare_backs hs' him).1
  · exact .inr ⟨hp, e, r', Prog.bind_of_err hl⟩

/-- **A buffer is filled** with the whole stream. -/
theorem fill_rest {r : R} {p : Nat} {bs : Bytes} {t : Tail} (h : Rest r p bs t) (ht : t ≠ .more)
    (hroom : bs.length + 1024 ≤ usizeMax) :
    Prog.OkIff (t = .eof) (fun buf r' => buf.bytes = bs ∧ Rest r' (p + bs.length) [] t)
      (fill tune r) := by
  refine Prog.loop_rule fillStep_decreasing
    (fun buf r => ∃ left, bs = buf.bytes ++ left ∧ Rest r (p + buf.bytes.length) left t)
    _ ?_ _ r ⟨bs, rfl, by simpa [BytesMut.withCapacity] using h⟩
  rintro buf r ⟨left, rfl, hrest⟩
  rw [fillStep]
  rcases Source.step hrest buf.chunkMut_spare_pos (fun hm => absurd hm ht) with
    ⟨k, r', hr, -, hkl, hpos, heof, hrest'⟩ | ⟨r', hr, hrest'⟩ | ⟨-, e, r', he, hint, hr⟩ <;>
    rw [Prog.bind_of_ok (tryRead_of hr)]
  · cases hc : left.take k with
    | nil =>
      obtain rfl := nil_of_take hpos hc
      have hk : k = 0 := by simpa using hkl
      subst hk
      exact .inl ⟨heof rfl, buf.chunkMut, r', rfl, by simp, by simpa using hrest'⟩
    | cons b rest =>
      have hlk : (b :: rest).length = k := by
        rw [← hc, List.length_take]; omega
      have hlen : (buf.bytes ++ b :: rest).length = buf.bytes.length + k := by
        rw [List.length_append, hlk]
      have hnot : ¬ (buf.chunkMut.advanceMut (b :: rest)).remainingMut < 1024 := by
        rw [List.length_append] at hroom
        simp only [BytesMut.remainingMut, BytesMut.advanceMut_bytes, BytesMut.chunkMut_bytes, hlen]
        omega
      simp only [if_neg hnot]
      refine ⟨left.drop k, ?_, ?_⟩
      · rw [BytesMut.advanceMut_bytes, BytesMut.chunkMut_bytes, ← hc, List.append_assoc,
          List.take_append_drop]
      · rw [BytesMut.advanceMut_bytes, BytesMut.chunkMut_bytes, hlen, ← Nat.add_assoc]
        exact hrest'
  · exact ⟨left, by rw [BytesMut.chunkMut_bytes], by rw [BytesMut.chunkMut_bytes]; exact hrest'⟩
  · subst he
    cases e <;> first | exact .inr ⟨by simp, _, _, rfl⟩ | exact absurd rfl hint

/-- The loop of `read_from`, on a stream whose length is no more than a buffer can hold. -/
theorem readFromLoop_rest {r : R} {p : Nat} {bs : Bytes} {t : Tail} (h : Rest r p bs t)
    (ht : t ≠ .more) (hroom : bs.length + 1024 ≤ usizeMax) {body : BodySink} (hs : body.Sound)
    (hempty : body.held = []) (hram : body.isRam = true) :
    Prog.OkIff (t = .eof ∧ bs.length ≤ tune.maxBody ∧ (tune.maxBodyRam < bs.length → tune.TempOk))
      (fun st r' => st.1.Sound ∧ st.1.held = bs ∧ (st.2 = true → st.1.isRam = false) ∧
        Rest r' (p + bs.length) [] t)
      (Prog.loop Read.fuel (readFromStep tune) (body, 0) r) := by
  have hdec := readFromStep_decreasing (R := R) tune
  rcases fill_rest tune h ht hroom with ⟨rfl, buf, r₁, hfill, hbuf, hrest⟩ | ⟨hfail, e, r₁, hfill⟩
  swap
  · refine .inr ⟨fun hp => hfail hp.1, e, r₁, Prog.loop_of_err hdec ?_⟩
    rw [readFromStep, Prog.bind_of_err hfill]
  by_cases hnil : bs.length = 0
  · have hbs : bs = [] := List.eq_nil_of_length_eq_zero hnil
    refine .inl ⟨⟨rfl, by omega, by omega⟩, (body, false), r₁, Prog.loop_of_done hdec ?_, hs,
      by rw [hempty, hbs], by simp, hrest⟩
    rw [readFromStep, Prog.bind_of_ok hfill, hbuf, if_pos hnil]
    rfl
  by_cases hlong : tune.maxBody < bs.length
  · refine .inr ⟨fun hp => by omega, .bodyTooLong (0 + bs.length), r₁, Prog.loop_of_err hdec ?_⟩
    rw [readFromStep, Prog.bind_of_ok hfill, hbuf, if_neg hnil]
    simp only [if_pos (show tune.maxBody < 0 + bs.length by omega), Prog.throw_run]
  by_cases hback : tune.maxBodyRam < bs.length
  · rcases htemp : tune.tempDir with e | env
    · refine .inr ⟨fun hp => ?_, .io e, r₁, Prog.loop_of_err hdec ?_⟩
      · obtain ⟨env, henv⟩ := hp.2.2 hback
        rw [htemp] at henv
        cases henv
      · rw [readFromStep, Prog.bind_of_ok hfill, hbuf, if_neg hnil]
        simp only [if_neg (show ¬ tune.maxBody < 0 + bs.length by omega),
          if_pos (show tune.maxBodyRam < 0 + bs.length by omega)]
        obtain ⟨state, len⟩ := body
        cases state with
        | fsWrite f => cases hram
        | ram v =>
          have hwb : BodySink.writeBack tune.tempDir [] ⟨.ram v, len⟩ = (.err (.io e), ⟨.ram [], 0⟩) := by
            simp only [BodySink.writeBack, tempfileIn, htemp]
          exact Prog.bind_of_err (Prog.evolve_of_err hwb r₁)
    · obtain ⟨b₁, hwb, hs₁, hheld₁, hram₁⟩ := BodySink.writeBack_ok hs env
      obtain ⟨b₂, hwa, hs₂, hheld₂, hram₂⟩ := append_step hs₁ bs BodyError.io r₁
      refine .inl ⟨⟨rfl, by omega, fun _ => ⟨env, htemp⟩⟩, (b₂, true), r₁,
        Prog.loop_of_done hdec ?_, hs₂, by rw [hheld₂, hheld₁, hempty, List.nil_append],
        fun _ => by rw [hram₂, hram₁], hrest⟩
      rw [readFromStep, Prog.bind_of_ok hfill, hbuf, if_neg hnil]
      simp only [if_neg (show ¬ tune.maxBody < 0 + bs.length by omega),
        if_pos (show tune.maxBodyRam < 0 + bs.length by omega), htemp]
      rw [Prog.bind_of_ok (Prog.evolve_of_ok hwb r₁), Prog.bind_of_ok hwa]
      rfl
  · obtain ⟨b₁, hp₁, hs₁, hheld₁, -⟩ := BodySink.push_done hs bs
    obtain ⟨buf₂, r₂, hfill₂, hbuf₂, hrest₂⟩ :=
      (fill_rest tune hrest (by simp) (by simp [usizeMax])).ok rfl
    have hnext : Prog.loop Read.fuel (readFromStep tune) (body, 0) r =
        Prog.loop Read.fuel (readFromStep tune) (b₁, 0 + bs.length) r₁ := by
      refine Prog.loop_of_next hdec ?_
      rw [readFromStep, Prog.bind_of_ok hfill, hbuf, if_neg hnil]
      simp only [if_neg (show ¬ tune.maxBody < 0 + bs.length by omega),
        if_neg (show ¬ tune.maxBodyRam < 0 + bs.length by omega)]
      rw [Prog.bind_of_ok (Prog.evolve_of_ok (Prog.mapErr_of_ok hp₁) r₁)]
      rfl
    rw [hnext]
    refine .inl ⟨⟨rfl, by omega, fun hb => absurd hb hback⟩, (b₁, false), r₂,
      Prog.loop_of_done hdec ?_, hs₁, by rw [hheld₁, hempty, List.nil_append], by simp,
      by simpa using hrest₂⟩
    rw [readFromStep, Prog.bind_of_ok hfill₂, hbuf₂, if_pos List.length_nil]
    rfl

/-- **`read_from`** takes exactly the streams that end and are within the limits, whatever way
they are delivered. -/
theorem readFrom_rest {r : R} {p : Nat} {bs : Bytes} {t : Tail} (h : Rest r p bs t)
    (ht : t ≠ .more) (lenEstimate : Nat)
    (hroom : lenEstimate ≤ tune.maxBodyRam → bs.length + 1024 ≤ usizeMax) :
    Prog.OkIff (t = .eof ∧ tune.Takes lenEstimate bs.length)
      (fun im r' => im.Backs bs ∧ Rest r' (p + bs.length) [] t)
      (readFrom tune lenEstimate r) := by
  by_cases hest : tune.maxBodyRam < lenEstimate
  · rw [readFrom, if_pos hest]
    rcases htemp : tune.tempDir with e | env
    · refine .inr ⟨fun hp => ?_, .io e, r, Prog.bind_of_err (Prog.mapErr_of_err ?_)⟩
      · obtain ⟨env, henv⟩ := hp.2.2 (by omega)
        rw [htemp] at henv
        cases henv
      · simp only [BodySink.withFs, tempfileIn, Res.ofExcept, Prog.ofRes_run]
    · have hw : BodySink.withFs (.ok env) = .ok ⟨.fsWrite ⟨[], env.val⟩, 0⟩ := rfl
      obtain ⟨hs, hheld⟩ := BodySink.sound_withFs hw
      have hopen : (Prog.mapErr .io (Prog.ofRes (.ofExcept (BodySink.withFs (.ok env)))) :
          Prog R BodyError BodySink) r = (.ok ⟨.fsWrite ⟨[], env.val⟩, 0⟩, r) := rfl
      rw [Prog.bind_of_ok hopen]
      rcases readToBodyFs_rest tune h ht hs rfl with ⟨hp, im, r', hr, hb, hrest⟩ | ⟨hp, e, r', hr⟩
      · rw [hheld, List.nil_append] at hb
        exact .inl ⟨⟨hp.1, hp.2, fun _ => ⟨env, htemp⟩⟩, im, r', hr, hb, hrest⟩
      · exact .inr ⟨fun hp' => hp ⟨hp'.1, hp'.2.1⟩, e, r', hr⟩
  · rw [readFrom, if_neg hest]
    have hiff : (tune.maxBodyRam < max lenEstimate bs.length → tune.TempOk) ↔
        (tune.maxBodyRam < bs.length → tune.TempOk) := by
      constructor <;> intro h' hlt <;> exact h' (by omega)
    have hwr := BodySink.withRam_eq lenEstimate
    rw [Tunables.Takes, hiff]
    rcases readFromLoop_rest tune h ht (hroom (by omega))
      (show (BodySink.withRam lenEstimate).Sound by rw [hwr]; exact BodySink.sound_ram_nil)
      (by rw [hwr]; rfl) (by rw [hwr]; rfl) with
      ⟨hp, ⟨body, toFs⟩, r₁, hl, hs, hheld, hfs, hrest⟩ | ⟨hp, e, r₁, hl⟩
    · simp only at hs hheld hfs
      obtain ⟨rfl, hp₂⟩ := hp
      cases toFs with
      | false =>
        obtain ⟨im, him⟩ := prepare_ok body
        refine .inl ⟨⟨rfl, hp₂⟩, im, r₁, by rw [Prog.bind_of_ok hl]; simp [him, Res.ofExcept],
          ?_, hrest⟩
        rw [← hheld]
        exact (prepare_backs hs him).1
      | true =>
        obtain ⟨im, r₂, hr, hb, hrest₂⟩ :=
          (readToBodyFs_rest tune hrest (by simp) hs (hfs rfl)).ok ⟨rfl, by simp⟩
        refine .inl ⟨⟨rfl, hp₂⟩, im, r₂, by rw [Prog.bind_of_ok hl]; exact hr, ?_,
          by simpa using hrest₂⟩
        rwa [hheld, List.append_nil] at hb
    · exact .inr ⟨hp, e, r₁, Prog.bind_of_err hl⟩

end Specs

end BodyImage

end BodyArchive
