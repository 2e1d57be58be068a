import BodyArchive.Body.Steps

/-!
# What is counted while a body is read

The numbers of bytes that its calls deliver are enough to tell how `read_from` goes on. A `Phase` is
what it has counted, and the machine of `Point`s keeps to it (`step_agrees`).
-/

namespace BodyArchive

namespace BodyImage

/-- The number of bytes a call has delivered. -/
def Answer.got : Answer → Nat
  | .ok bs => bs.length
  | .error _ => 0

/-! ## Counting -/

/-- What `read_from` has counted: the bytes in the sink and in the buffer while it reads to
memory, and the bytes before the file and since. -/
inductive Phase where
  | memory (sink buffered : Nat)
  | file (before since : Nat)
  | ended
  deriving DecidableEq, Repr

namespace Phase

variable (tune : Tunables)

/-- The end of a fill. -/
def close (sink buffered : Nat) : Phase :=
  if buffered = 0 then ended
  else if tune.maxBody < sink + buffered then ended
  else if tune.maxBodyRam < sink + buffered then
    match tune.tempDir with
    | .ok _ => file (sink + buffered) 0
    | .error _ => ended
  else memory (sink + buffered) 0

/-- A call is answered. -/
def next : Phase → Answer → Phase
  | memory sink buffered, .ok [] => close tune sink buffered
  | memory sink buffered, .ok bs =>
    if usizeMax - (buffered + bs.length) < 1024 then close tune sink (buffered + bs.length)
    else memory sink (buffered + bs.length)
  | file _ _, .ok [] => ended
  | file before since, .ok bs =>
    if tune.maxBody < since + bs.length then ended else file before (since + bs.length)
  | ended, .ok _ => ended
  | p, .error .interrupted => p
  | _, .error _ => ended

def run (p : Phase) (xs : List Answer) : Phase := xs.foldl (next tune) p

/-- Where `read_from` starts. -/
def start (lenEstimate : Nat) : Phase :=
  if tune.maxBodyRam < lenEstimate then
    match tune.tempDir with
    | .ok _ => file 0 0
    | .error _ => ended
  else memory 0 0

end Phase

/-! ## Sinks, by their lengths -/

section Sinks

variable {s : BodySink} (buf : Bytes)

theorem push_ram (h : s.isRam = true) :
    ∃ s', BodySink.push .done buf s = (.ok (), s') ∧ s'.isRam = true ∧
      s'.len = s.len + buf.length ∧ s'.held.length = s.held.length + buf.length := by
  obtain ⟨state, len⟩ := s
  cases state with
  | fsWrite f => cases h
  | ram v =>
    unfold BodySink.push
    by_cases hb : 0 < buf.length
    · refine ⟨_, if_pos hb, rfl, rfl, ?_⟩
      simp [BodySink.held]
    · have hz : buf.length = 0 := by omega
      refine ⟨_, if_neg hb, rfl, ?_, ?_⟩ <;> rw [hz] <;> rfl

theorem writeAll_fs (h : s.isRam = false) :
    ∃ s', BodySink.writeAll .done buf s = (.ok (), s') ∧ s'.isRam = false ∧
      s'.len = s.len + buf.length := by
  obtain ⟨state, len⟩ := s
  cases state with
  | ram v => cases h
  | fsWrite f =>
    unfold BodySink.writeAll
    by_cases hb : 0 < buf.length
    · exact ⟨_, if_pos hb, rfl, rfl⟩
    · have hz : buf.length = 0 := by omega
      refine ⟨_, if_neg hb, rfl, ?_⟩
      rw [hz]
      rfl

theorem writeBack_ram (h : s.isRam = true) (env : OwnEnv) :
    ∃ s', BodySink.writeBack (.ok env) [] s = (.ok (), s') ∧ s'.isRam = false ∧
      s'.len = s.len := by
  obtain ⟨state, len⟩ := s
  cases state with
  | fsWrite f => cases h
  | ram v =>
    obtain ⟨g, hg⟩ := BodySink.writeBuffers_done v ⟨[], env.val⟩
    exact ⟨⟨.fsWrite g, len⟩, by simp only [BodySink.writeBack, tempfileIn, hg], rfl, rfl⟩

end Sinks

/-! ## The machine keeps to the counts -/

/-- A point and what has been counted there. -/
def Agrees (tune : Tunables) : Point → Phase → Prop
  | .filling body size buf, .memory sink buffered =>
    body.isRam = true ∧ body.len = sink ∧ body.held.length = sink ∧ size = sink ∧
      sink ≤ tune.maxBodyRam ∧ buf.bytes.length = buffered
  | .writing body size, .file before since =>
    body.isRam = false ∧ body.len = before + since ∧ size = since
  | .done _, .ended => True
  | _, _ => False

section Agreement

variable {tune : Tunables}

theorem start_agrees (lenEstimate : Nat) :
    Agrees tune (Point.start tune lenEstimate) (Phase.start tune lenEstimate) := by
  unfold Point.start Phase.start
  by_cases hest : tune.maxBodyRam < lenEstimate
  · rw [if_pos hest, if_pos hest]
    cases tune.tempDir with
    | error e => trivial
    | ok env => exact ⟨rfl, rfl, rfl⟩
  · rw [if_neg hest, if_neg hest, BodySink.withRam_eq]
    exact ⟨rfl, rfl, rfl, rfl, Nat.zero_le _, rfl⟩

theorem filled_agrees {body : BodySink} {size : Nat} {buf : BytesMut} {sink buffered : Nat}
    (h : Agrees tune (.filling body size buf) (.memory sink buffered)) :
    Agrees tune (Point.filled tune body size buf) (Phase.close tune sink buffered) := by
  obtain ⟨hram, hlen, hheld, rfl, hle, rfl⟩ := h
  unfold Point.filled Phase.close
  by_cases hempty : buf.bytes.length = 0
  · rw [if_pos hempty, if_pos hempty]
    trivial
  rw [if_neg hempty, if_neg hempty]
  by_cases hlong : tune.maxBody < size + buf.bytes.length
  · simp only [if_pos hlong]
    trivial
  simp only [if_neg hlong]
  by_cases hback : tune.maxBodyRam < size + buf.bytes.length
  · rw [if_pos hback, if_pos hback]
    cases hdir : tune.tempDir with
    | error e =>
      obtain ⟨state, len⟩ := body
      cases state with
      | ram v => trivial
      | fsWrite f => cases hram
    | ok env =>
      obtain ⟨b₁, hwb, hfs₁, hlen₁⟩ := writeBack_ram hram env
      obtain ⟨b₂, hwa, hfs₂, hlen₂⟩ := writeAll_fs buf.bytes hfs₁
      rw [hwb]
      simp only [Point.onward, Prog.mapErr_of_ok hwa, Point.toFs, hfs₂, Bool.false_eq_true,
        if_false]
      exact ⟨hfs₂, by rw [hlen₂, hlen₁, hlen]; rfl, rfl⟩
  · rw [if_neg hback, if_neg hback]
    obtain ⟨b₁, hp, hram₁, hlen₁, hheld₁⟩ := push_ram buf.bytes hram
    rw [Prog.mapErr_of_ok hp]
    exact ⟨hram₁, by rw [hlen₁, hlen], by rw [hheld₁, hheld], rfl, by omega, rfl⟩

/-- **One call**, for the machine and for the counts. -/
theorem step_agrees {p : Point} {ph : Phase} (h : Agrees tune p ph) (x : Answer) :
    Agrees tune (p.step tune x) (ph.next tune x) := by
  cases p with
  | done r =>
    cases ph with
    | ended => rcases x with e | bs <;> first | trivial | (cases e <;> trivial)
    | memory sink buffered => exact h.elim
    | file before since => exact h.elim
  | filling body size buf =>
    cases ph with
    | ended => exact h.elim
    | file before since => exact h.elim
    | memory sink buffered =>
      have hchunk : Agrees tune (.filling body size buf.chunkMut) (.memory sink buffered) := by
        obtain ⟨hram, hlen, hheld, hsize, hle, hbuf⟩ := h
        exact ⟨hram, hlen, hheld, hsize, hle, by rw [BytesMut.chunkMut_bytes, hbuf]⟩
      rcases x with e | bs
      · cases e <;> trivial
      · cases bs with
        | nil => exact filled_agrees hchunk
        | cons b bs =>
          obtain ⟨hram, hlen, hheld, hsize, hle, hbuf⟩ := hchunk
          have hbytes : (buf.chunkMut.advanceMut (b :: bs)).bytes.length =
              buffered + (b :: bs).length := by
            rw [BytesMut.advanceMut_bytes, List.length_append, hbuf]
          have hmore : Agrees tune (.filling body size (buf.chunkMut.advanceMut (b :: bs)))
              (.memory sink (buffered + (b :: bs).length)) :=
            ⟨hram, hlen, hheld, hsize, hle, hbytes⟩
          simp only [Point.step, Phase.next, BytesMut.remainingMut, hbytes]
          split
          · exact filled_agrees hmore
          · exact hmore
  | writing body size =>
    cases ph with
    | ended => exact h.elim
    | memory sink buffered => exact h.elim
    | file before since =>
      obtain ⟨hfs, hlen, rfl⟩ := h
      rcases x with e | bs
      · cases e <;> trivial
      · cases bs with
        | nil => trivial
        | cons b bs =>
          simp only [Point.step, Phase.next]
          by_cases hlong : tune.maxBody < size + (b :: bs).length
          · rw [if_pos hlong, if_pos hlong]
            trivial
          · obtain ⟨b₁, hw, hfs₁, hlen₁⟩ := writeAll_fs (b :: bs) hfs
            rw [if_neg hlong, if_neg hlong, Prog.mapErr_of_ok hw]
            exact ⟨hfs₁, by rw [hlen₁, hlen, Nat.add_assoc], rfl⟩

/-! ## Counting on -/

@[simp] theorem run_nil (ph : Phase) : ph.run tune [] = ph := rfl

@[simp] theorem run_cons (ph : Phase) (x : Answer) (xs : List Answer) :
    ph.run tune (x :: xs) = (ph.next tune x).run tune xs := rfl

theorem run_append (ph : Phase) (xs ys : List Answer) :
    ph.run tune (xs ++ ys) = (ph.run tune xs).run tune ys := List.foldl_append

theorem next_ended (x : Answer) : Phase.next tune .ended x = .ended := by
  rcases x with e | bs
  · cases e <;> rfl
  · rfl

theorem run_ended (xs : List Answer) : Phase.run tune .ended xs = .ended := by
  induction xs with
  | nil => rfl
  | cons x xs ih => rw [run_cons, next_ended, ih]

end Agreement

end BodyImage

end BodyArchive
