import BodyArchive.Body.Steps
import BodyArchive.Io.Stream

/-!
# Reading a body to its limits

`read_from` of any stream that ends. `readFrom_exact` is what comes out: the stream, or
`BodyTooLong`, exactly by `max_body`. `readFrom_yields` says it of every reader that yields the
stream, in whatever pieces.

A `Vec` cannot have more than `isizeMax` bytes of capacity, and asking for more panics. What
`read_from` asks for while it reads a stream is within that when the stream is `Allocatable`, and
then every buffer of the run is (`runs_capacity`).
-/

namespace BodyArchive

/-- The buffers for a stream of `len` bytes can be allocated: those of the sizes that the tunables
give and, while it is read to memory, one that is doubled when it is full. -/
structure Tunables.Allocatable (tune : Tunables) (lenEstimate len : Nat) : Prop where
  fs : tune.bufferSizeFs ≤ isizeMax
  ram : lenEstimate ≤ tune.maxBodyRam → tune.bufferSizeRam ≤ isizeMax ∧ 2 * len + 64 ≤ isizeMax

namespace BodyImage

/-! ## Capacities -/

section Capacities

variable {tune : Tunables} {len left : Nat}

/-- The capacity that a point has asked for. -/
def Point.capacity (tune : Tunables) : Point → Nat
  | .filling _ _ buf => buf.chunkMut.cap
  | .writing _ _ => tune.bufferSizeFs
  | .done _ => 0

/-- A buffer that is filled from a stream of `len` bytes, of which `left` are still to come. -/
def Roomy (tune : Tunables) (len : Nat) : Point → Nat → Prop
  | .filling _ _ buf, left =>
    buf.cap ≤ max tune.bufferSizeRam (2 * len + 64) ∧ buf.bytes.length + left ≤ len
  | _, left => left ≤ len

theorem onward_roomy {next : BodySink → Point} (h : ∀ body, Roomy tune len (next body) left)
    (hleft : left ≤ len) (x : Res BodyError Unit × BodySink) :
    Roomy tune len (.onward next x) left := by
  rcases x with ⟨⟨⟩ | e | msg, body⟩
  · exact h body
  · exact hleft
  · exact hleft

theorem toFs_roomy (hleft : left ≤ len) (body : BodySink) :
    Roomy tune len (.toFs body) left := by
  unfold Point.toFs
  split <;> exact hleft

theorem filled_roomy (hleft : left ≤ len) (body : BodySink) (size : Nat) (buf : BytesMut) :
    Roomy tune len (.filled tune body size buf) left := by
  unfold Point.filled
  split
  · exact hleft
  · simp only
    split
    · exact hleft
    · split
      · exact onward_roomy (fun _ => onward_roomy (toFs_roomy hleft) hleft _) hleft _
      · apply onward_roomy ?_ hleft
        intro body'
        refine ⟨Nat.le_max_left _ _, ?_⟩
        show 0 + left ≤ len
        omega

theorem chunkMut_cap {buf : BytesMut} (hcap : buf.cap ≤ max tune.bufferSizeRam (2 * len + 64))
    (hlen : buf.bytes.length ≤ len) :
    buf.chunkMut.cap ≤ max tune.bufferSizeRam (2 * len + 64) := by
  unfold BytesMut.chunkMut
  split
  · simp only
    omega
  · exact hcap

/-- **One call** takes its bytes from those to come. -/
theorem step_roomy {p : Point} {left : Nat} (h : Roomy tune len p left) (x : Answer)
    (hx : x.bytes.length ≤ left) : Roomy tune len (p.step tune x) (left - x.bytes.length) := by
  cases p with
  | done r =>
    have hleft : left ≤ len := h
    show left - x.bytes.length ≤ len
    omega
  | filling body size buf =>
    obtain ⟨hcap, hlen⟩ := h
    have hchunk := chunkMut_cap hcap (by omega : buf.bytes.length ≤ len)
    have hsame : Roomy tune len (.filling body size buf.chunkMut) left :=
      ⟨hchunk, by rw [BytesMut.chunkMut_bytes]; exact hlen⟩
    rcases x with e | bs
    · cases e <;> first | exact hsame | exact (show left ≤ len by omega)
    · cases bs with
      | nil => exact filled_roomy (by omega) _ _ _
      | cons b bs =>
        have hx' : (b :: bs).length ≤ left := hx
        simp only [Point.step]
        split
        · exact filled_roomy (by omega) _ _ _
        · have hbytes : (buf.chunkMut.bytes ++ b :: bs).length =
              buf.bytes.length + (b :: bs).length := by
            rw [BytesMut.chunkMut_bytes, List.length_append]
          refine ⟨?_, ?_⟩
          · show max buf.chunkMut.cap (buf.chunkMut.bytes ++ b :: bs).length ≤ _
            omega
          · show (buf.chunkMut.bytes ++ b :: bs).length + (left - (b :: bs).length) ≤ len
            omega
  | writing body size =>
    have hleft : left - x.bytes.length ≤ len := by
      have : left ≤ len := h
      omega
    rcases x with e | bs
    · cases e <;> exact hleft
    · cases bs with
      | nil => exact hleft
      | cons b bs =>
        simp only [Point.step]
        split
        · exact hleft
        · apply onward_roomy ?_ hleft
          intro body'
          exact hleft

theorem start_roomy (lenEstimate : Nat) : Roomy tune len (.start tune lenEstimate) len := by
  unfold Point.start
  split
  · split
    · exact toFs_roomy (Nat.le_refl _) _
    · exact Nat.le_refl _
  · exact ⟨Nat.le_max_left _ _, by show 0 + len ≤ len; omega⟩

/-- A run takes its bytes from those of the stream. -/
theorem runs_roomy {R : Type} [Source R] {p q : Point} {r r' : R} {xs : List Answer}
    (hruns : Runs tune p r xs q r') {bs : Bytes} {pos : Nat} (hrest : Rest r pos bs .eof)
    (h : Roomy tune len p bs.length) : ∃ left, Roomy tune len q left := by
  induction hruns generalizing bs pos with
  | refl p r => exact ⟨_, h⟩
  | @step p q r r₁ r' x xs going answer rest ih =>
    rcases Source.step hrest (offered_pos going) (by simp) with
      ⟨k, r₂, hr, -, hk, -, -, hrest'⟩ | ⟨r₂, hr, hrest'⟩ | ⟨-, e, r₂, he, -⟩
    · rw [answer] at hr
      cases hr
      have htake : (bs.take k).length = k := List.length_take_of_le hk
      have hnext := step_roomy h (.ok (bs.take k)) (by rw [Answer.bytes, htake]; exact hk)
      rw [Answer.bytes, htake, ← List.length_drop] at hnext
      exact ih hrest' hnext
    · rw [answer] at hr
      cases hr
      exact ih hrest' (step_roomy h _ (Nat.zero_le _))
    · cases he

/-- Whether it writes to a file from the start, a point never reads to memory. -/
def InFile : Point → Prop
  | .filling _ _ _ => False
  | _ => True

theorem onward_inFile {next : BodySink → Point} (h : ∀ body, InFile (next body))
    (x : Res BodyError Unit × BodySink) : InFile (.onward next x) := by
  rcases x with ⟨⟨⟩ | e | msg, body⟩
  · exact h body
  · trivial
  · trivial

theorem step_inFile {p : Point} (h : InFile p) (x : Answer) : InFile (p.step tune x) := by
  cases p with
  | done r => trivial
  | filling body size buf => exact h.elim
  | writing body size =>
    rcases x with e | bs
    · cases e <;> trivial
    · cases bs with
      | nil => trivial
      | cons b bs =>
        simp only [Point.step]
        split
        · trivial
        · apply onward_inFile
          intro body'
          trivial

theorem runs_inFile {R : Type} [Read R] {p q : Point} {r r' : R} {xs : List Answer}
    (hruns : Runs tune p r xs q r') (h : InFile p) : InFile q := by
  induction hruns with
  | refl p r => exact h
  | step going answer rest ih => exact ih (step_inFile h _)

theorem start_inFile {lenEstimate : Nat} (hest : tune.maxBodyRam < lenEstimate) :
    InFile (.start tune lenEstimate) := by
  rw [Point.start, if_pos hest]
  split
  · unfold Point.toFs
    split <;> trivial
  · trivial

/-- **Every capacity can be allocated** on the way through a stream that is `Allocatable`. -/
theorem runs_capacity {R : Type} [Source R] {lenEstimate pos : Nat} {q : Point} {r r' : R}
    {xs : List Answer} {bs : Bytes} (hrest : Rest r pos bs .eof)
    (halloc : tune.Allocatable lenEstimate bs.length)
    (hruns : Runs tune (.start tune lenEstimate) r xs q r') : q.capacity tune ≤ isizeMax := by
  cases q with
  | done res => exact Nat.zero_le _
  | writing body size => exact halloc.fs
  | filling body size buf =>
    by_cases hest : lenEstimate ≤ tune.maxBodyRam
    · obtain ⟨left, hcap, hlen⟩ := runs_roomy hruns hrest (start_roomy lenEstimate)
      have hchunk := chunkMut_cap hcap (by omega : buf.bytes.length ≤ bs.length)
      have := halloc.ram hest
      show buf.chunkMut.cap ≤ isizeMax
      omega
    · exact (runs_inFile hruns (start_inFile (by omega))).elim

end Capacities

/-! ## The stream -/

variable {R : Type} [Source R] (tune : Tunables)

/-- What the loop of `read_from` comes to: `BodyTooLong`, or the stream in a sink of memory, or of
a file if it is over `max_body_ram`. -/
def LoopEnds (bs : Bytes) (x : Res BodyError (BodySink × Bool) × R) : Prop :=
  (tune.maxBody < bs.length ∧ ∃ n r', x = (.err (.bodyTooLong n), r')) ∨
  ∃ body toFs r' p, x = (.ok (body, toFs), r') ∧ body.Sound ∧ body.held = bs ∧
    body.isRam = !toFs ∧ Rest r' p [] .eof ∧ bs.length ≤ tune.maxBody ∧
    (toFs = true ↔ tune.maxBodyRam < bs.length)

theorem readFromLoop_exact (htemp : tune.TempOk) {r : R} {p : Nat} {bs : Bytes}
    (h : Rest r p bs .eof) (hroom : bs.length + 1024 ≤ usizeMax) {body : BodySink}
    (hs : body.Sound) (hempty : body.held = []) (hram : body.isRam = true) :
    LoopEnds tune bs (Prog.loop Read.fuel (readFromStep tune) (body, 0) r) := by
  refine Prog.loop_rule (readFromStep_decreasing tune)
    (fun st r => ∃ p left, bs = st.1.held ++ left ∧ st.1.Sound ∧ st.1.isRam = true ∧
      st.2 = st.1.held.length ∧ st.2 ≤ tune.maxBodyRam ∧ Rest r p left .eof)
    _ ?_ (body, 0) r ⟨p, bs, by rw [hempty]; rfl, hs, hram, by rw [hempty]; rfl, Nat.zero_le _, h⟩
  rintro ⟨body₁, size⟩ r₁ ⟨p₁, left, hbs, hs₁, hram₁, hsize, hle, hrest₁⟩
  simp only at hbs hs₁ hram₁ hsize hle
  subst hbs hsize
  rw [List.length_append] at hroom
  -- A fill takes all that is left.
  obtain ⟨buf, r₂, hfill, hbuf, hrest₂⟩ :=
    (fill_rest tune hrest₁ (by simp) (by omega)).ok rfl
  have hall : (body₁.held ++ left).length = body₁.held.length + left.length := List.length_append
  have hmax := tune.ram_le_max
  rw [readFromStep, Prog.bind_of_ok hfill, hbuf]
  by_cases hzero : left.length = 0
  · have hnil : left = [] := List.eq_nil_of_length_eq_zero hzero
    rw [if_pos hzero]
    refine .inr ⟨body₁, false, r₂, _, rfl, hs₁, ?_, hram₁, hrest₂, by omega, ?_⟩
    · rw [hnil, List.append_nil]
    · exact ⟨fun hfs => (by cases hfs), fun hback => by omega⟩
  rw [if_neg hzero]
  by_cases hlong : tune.maxBody < body₁.held.length + left.length
  · simp only [if_pos hlong]
    exact .inl ⟨by omega, _, r₂, rfl⟩
  simp only [if_neg hlong]
  by_cases hback : tune.maxBodyRam < body₁.held.length + left.length
  · obtain ⟨env, henv⟩ := htemp
    obtain ⟨b₁, hwb, hs₂, hheld₂, hram₂⟩ := BodySink.writeBack_ok hs₁ env
    obtain ⟨b₂, hwa, hs₃, hheld₃, hram₃⟩ := append_step hs₂ left BodyError.io r₂
    rw [if_pos hback, henv, Prog.bind_of_ok (Prog.evolve_of_ok hwb r₂), Prog.bind_of_ok hwa]
    exact .inr ⟨b₂, true, r₂, _, rfl, hs₃, by rw [hheld₃, hheld₂], by rw [hram₃, hram₂]; rfl,
      hrest₂, by omega, ⟨fun _ => by omega, fun _ => rfl⟩⟩
  · obtain ⟨b₁, hp₁, hs₂, hheld₂, hram₂⟩ := BodySink.push_done hs₁ left
    rw [if_neg hback, Prog.bind_of_ok (Prog.evolve_of_ok (Prog.mapErr_of_ok hp₁) r₂)]
    refine ⟨_, [], by rw [hheld₂, List.append_nil], hs₂, by rw [hram₂, hram₁], ?_, by omega,
      hrest₂⟩
    show body₁.held.length + left.length = b₁.held.length
    rw [hheld₂, hall]

/-- Of a stream that ends, a file refuses only the length. -/
theorem readToBodyFs_tooLong {r : R} {p : Nat} {bs : Bytes} (h : Rest r p bs .eof)
    {body : BodySink} (hs : body.Sound) {e : BodyError} {r' : R}
    (herr : readToBodyFs tune body r = (.err e, r')) : ∃ n, e = .bodyTooLong n := by
  have hloop := Prog.loop_rule (readToBodyFsStep_decreasing tune)
    (fun st r => st.1.Sound ∧ ∃ p bs, Rest r p bs .eof)
    (fun x => ∀ e, x.1 = .err e → ∃ n, e = .bodyTooLong n) ?_ (body, 0) r ⟨hs, p, bs, h⟩
  · rw [readToBodyFs] at herr
    cases hram : body.isRam with
    | true =>
      rw [Prog.bind_of_panic (Prog.assert_false (by rw [hram]; rfl) _ r)] at herr
      cases herr
    | false =>
      rw [Prog.bind_of_ok (Prog.assert_true (by rw [hram]; rfl) _ r)] at herr
      rcases hl : Prog.loop Read.fuel (readToBodyFsStep tune) (body, 0) r with ⟨body' | e' | m, r₁⟩
      · obtain ⟨im, him⟩ := prepare_ok body'
        rw [Prog.bind_of_ok hl, him] at herr
        cases herr
      · rw [Prog.bind_of_err hl] at herr
        cases herr
        exact hloop e (by rw [hl])
      · rw [Prog.bind_of_panic hl] at herr
        cases herr
  rintro ⟨body₁, size⟩ r₁ ⟨hs₁, p₁, bs₁, hrest⟩
  rw [readToBodyFsStep]
  rcases Source.step hrest tune.buffer_fs_pos (by simp) with
    ⟨k, r₂, hr, -, -, -, -, hrest₂⟩ | ⟨r₂, hr, hrest₂⟩ | ⟨-, e, r₂, he, -⟩
  · rw [Prog.bind_of_ok (tryRead_of hr)]
    cases bs₁.take k with
    | nil =>
      intro e he
      cases he
    | cons b rest =>
      simp only
      split
      · intro e he
        cases he
        exact ⟨_, rfl⟩
      · obtain ⟨body₂, hw, hs₂, -⟩ := append_step hs₁ (b :: rest) BodyError.io r₂
        rw [Prog.bind_of_ok hw]
        exact ⟨hs₂, _, _, hrest₂⟩
  · rw [Prog.bind_of_ok (tryRead_of hr)]
    exact ⟨hs₁, _, _, hrest₂⟩
  · cases he

/-- What a file becomes is in memory only when it is empty. -/
theorem prepare_fs {s : BodySink} (hs : s.Sound) (hfs : s.isRam = false) {im : BodyImage}
    (hp : s.prepare none = .ok im) : im.isRam = true ↔ s.held = [] := by
  obtain ⟨state, len⟩ := s
  cases state with
  | ram v => cases hfs
  | fsWrite f =>
    have hlen : len = f.content.length := hs.len_eq
    show _ ↔ f.content = []
    rw [BodySink.prepare] at hp
    by_cases hz : len = 0
    · simp only [if_pos hz] at hp
      cases hp
      exact ⟨fun _ => List.eq_nil_of_length_eq_zero (by omega), fun _ => rfl⟩
    · simp only [if_neg hz] at hp
      cases hp
      refine ⟨fun h => (by cases h), fun h => absurd ?_ hz⟩
      rw [hlen, h]
      rfl

/-- What is collected in memory stays there. -/
theorem prepare_ram {s : BodySink} (hram : s.isRam = true) {im : BodyImage}
    (hp : s.prepare none = .ok im) : im.isRam = true := by
  obtain ⟨state, len⟩ := s
  cases state with
  | ram v =>
    cases hp
    rfl
  | fsWrite f => cases hram

/-- What comes out of a stream: its bytes, in memory under a condition, or `BodyTooLong`. -/
def Comes (tooLong : Prop) (bs : Bytes) (inRam : Prop) (x : Res BodyError BodyImage × R) : Prop :=
  (tooLong ∧ ∃ n r', x = (.err (.bodyTooLong n), r')) ∨
  (¬ tooLong ∧ ∃ im r', x = (.ok im, r') ∧ im.Backs bs ∧ (im.isRam = true ↔ inRam))

/-- The file part, of a stream that ends. -/
theorem readToBodyFs_exact {r : R} {p : Nat} {bs : Bytes} (h : Rest r p bs .eof)
    {body : BodySink} (hs : body.Sound) (hfs : body.isRam = false) :
    Comes (tune.maxBody < bs.length) (body.held ++ bs) (body.held ++ bs = [])
      (readToBodyFs tune body r) := by
  have hassert : (Prog.assert (!body.isRam) "assertion failed: !body.is_ram()" :
      Prog R BodyError Unit) r = (.ok (), r) := Prog.assert_true (by rw [hfs]; rfl) _ r
  rcases readToBodyFs_loop tune h (by simp) hs hfs with
    ⟨⟨-, hle⟩, body', r', hl, hs', hfs', hheld, -⟩ | ⟨hlong, e, r', hl⟩
  · obtain ⟨im, him⟩ := prepare_ok body'
    refine .inr ⟨by omega, im, r', ?_, ?_, ?_⟩
    · rw [readToBodyFs, Prog.bind_of_ok hassert, Prog.bind_of_ok hl, him]
      rfl
    · rw [← hheld]
      exact (prepare_backs hs' him).1
    · rw [← hheld]
      exact prepare_fs hs' hfs' him
  · have hr : readToBodyFs tune body r = (.err e, r') := by
      rw [readToBodyFs, Prog.bind_of_ok hassert, Prog.bind_of_err hl]
    obtain ⟨n, rfl⟩ := readToBodyFs_tooLong tune h hs hr
    refine .inl ⟨?_, n, r', hr⟩
    by_contra hle
    exact hlong ⟨rfl, by omega⟩

/-- **`read_from` gives the exact stream and the exact limits.** Of a stream that ends, in
whatever pieces it comes, it makes `BodyTooLong` when the stream is longer than `max_body`, and
otherwise an image of exactly the stream, which is in memory when the stream is empty, or when
neither it nor its estimate is over `max_body_ram`. -/
theorem readFrom_exact {r : R} {p : Nat} {bs : Bytes} (h : Rest r p bs .eof)
    (htemp : tune.TempOk) (lenEstimate : Nat)
    (hroom : lenEstimate ≤ tune.maxBodyRam → bs.length + 1024 ≤ usizeMax) :
    Comes (tune.maxBody < bs.length) bs
      (bs = [] ∨ bs.length ≤ tune.maxBodyRam ∧ lenEstimate ≤ tune.maxBodyRam)
      (readFrom tune lenEstimate r) := by
  rw [readFrom]
  by_cases hest : tune.maxBodyRam < lenEstimate
  · rw [if_pos hest]
    have hram : bs = [] ∨ bs.length ≤ tune.maxBodyRam ∧ lenEstimate ≤ tune.maxBodyRam ↔ bs = [] := by
      constructor
      · rintro (hnil | ⟨-, hle⟩)
        · exact hnil
        · omega
      · exact .inl
    obtain ⟨env, henv⟩ := htemp
    have hw : BodySink.withFs (.ok env) = .ok ⟨.fsWrite ⟨[], env.val⟩, 0⟩ := rfl
    have hopen : (Prog.mapErr .io (Prog.ofRes (.ofExcept (BodySink.withFs tune.tempDir))) :
        Prog R BodyError BodySink) r = (.ok ⟨.fsWrite ⟨[], env.val⟩, 0⟩, r) := by
      rw [henv]
      rfl
    obtain ⟨hs, hheld⟩ := BodySink.sound_withFs hw
    rw [Prog.bind_of_ok hopen, hram]
    have := readToBodyFs_exact tune h hs rfl
    rwa [hheld, List.nil_append] at this
  · rw [if_neg hest]
    have hwr := BodySink.withRam_eq lenEstimate
    rcases readFromLoop_exact tune htemp h (hroom (by omega))
      (show (BodySink.withRam lenEstimate).Sound by rw [hwr]; exact BodySink.sound_ram_nil)
      (by rw [hwr]; rfl) (by rw [hwr]; rfl) with
      ⟨hlong, n, r', hl⟩ | ⟨body, toFs, r', p', hl, hs, hheld, hram, hrest, hmax, hback⟩
    · exact .inl ⟨hlong, n, r', by rw [Prog.bind_of_err hl]⟩
    rw [Prog.bind_of_ok hl]
    cases toFs with
    | false =>
      have hshort : bs.length ≤ tune.maxBodyRam := by
        by_contra hlong
        cases hback.mpr (by omega)
      obtain ⟨im, him⟩ := prepare_ok body
      refine .inr ⟨by omega, im, r', by simp [him, Res.ofExcept], ?_, ?_⟩
      · rw [← hheld]
        exact (prepare_backs hs him).1
      · exact ⟨fun _ => .inr ⟨hshort, by omega⟩, fun _ => prepare_ram hram him⟩
    | true =>
      have hlong : tune.maxBodyRam < bs.length := hback.mp rfl
      -- Nothing is left for the file part to read.
      rcases readToBodyFs_exact tune hrest hs hram with ⟨hlong', -⟩ | ⟨-, im, r₂, hr, hb, himram⟩
      · simp at hlong'
      · rw [List.append_nil, hheld] at hb himram
        refine .inr ⟨by omega, im, r₂, hr, hb, ?_⟩
        rw [himram]
        refine ⟨.inl, ?_⟩
        rintro (hnil | ⟨hshort, -⟩)
        · exact hnil
        · omega

/-- **`read_from` gives the exact stream and the exact limits**, of every reader of a stream
that ends: `BodyTooLong` when the stream is longer than `max_body`, and otherwise an image that
delivers exactly the stream. On the way it asks for no capacity that cannot be allocated. -/
theorem readFrom_yields {R : Type} [Read R] (tune : Tunables) {r : R} {bs : Bytes}
    (h : Yields r bs) (htemp : tune.TempOk) (lenEstimate : Nat)
    (halloc : tune.Allocatable lenEstimate bs.length) :
    (∀ xs q r', Runs tune (.start tune lenEstimate) r xs q r' → q.capacity tune ≤ isizeMax) ∧
    (tune.maxBody < bs.length → ∃ n r', readFrom tune lenEstimate r = (.err (.bodyTooLong n), r')) ∧
    (bs.length ≤ tune.maxBody → ∃ im r', readFrom tune lenEstimate r = (.ok im, r') ∧
      im.Delivers bs ∧
      (im.isRam = true ↔
        bs = [] ∨ bs.length ≤ tune.maxBodyRam ∧ lenEstimate ≤ tune.maxBodyRam)) := by
  obtain ⟨src, rfl, hrest⟩ := h.rest
  refine ⟨fun xs q r' hruns => runs_capacity hrest halloc hruns, ?_⟩
  have hroom (hest : lenEstimate ≤ tune.maxBodyRam) : bs.length + 1024 ≤ usizeMax := by
    have := (halloc.ram hest).2
    have : usizeMax = 2 ^ 64 - 1 := rfl
    have : isizeMax = 2 ^ 63 - 1 := rfl
    omega
  rcases readFrom_exact tune hrest htemp lenEstimate hroom with
    ⟨hlong, n, r', hr⟩ | ⟨hshort, im, r', hr, hb, hram⟩
  · exact ⟨fun _ => ⟨n, r', hr⟩, fun hle => by omega⟩
  · exact ⟨fun hlong => absurd hlong hshort, fun _ => ⟨im, r', hr, hb.delivers, hram⟩⟩

/-- Three bytes, in pieces and with interrupts. -/
def piecesStream : Stream := ⟨[1, 2, 3], none, [.interrupted, .upTo 2, .interrupted, .upTo 1]⟩

/-- Tunables that put two bytes into memory. -/
def tightTunables : Tunables := Tunables.sized 2 4 1 (by decide) Nat.zero_lt_one

theorem tightTunables_tempOk : tightTunables.TempOk := ⟨_, rfl⟩

theorem tightTunables_allocatable : tightTunables.Allocatable 0 3 :=
  ⟨by decide, fun _ => by decide⟩

theorem piecesStream_yields : Yields piecesStream [1, 2, 3] :=
  Source.yields (p := 0) ⟨rfl, rfl, by simp, by decide⟩

theorem piecesStream_read : ∃ im r', readFrom tightTunables 0 piecesStream = (.ok im, r') ∧
    im.Delivers [1, 2, 3] ∧ im.isRam = false := by
  obtain ⟨-, -, htaken⟩ := readFrom_yields tightTunables piecesStream_yields
    tightTunables_tempOk 0 tightTunables_allocatable
  obtain ⟨im, r', hr, hd, hram⟩ := htaken (by decide)
  refine ⟨im, r', hr, hd, ?_⟩
  rw [← Bool.not_eq_true, hram]
  decide

end BodyImage

end BodyArchive
