import BodyArchive.Body.Tunables
import BodyArchive.Io.Write

/-!
# Body sinks

A `BodySink` collects a body, in RAM buffers or in a temporary file, and tracks its length apart
from the data. The operations take how their file operations go as an argument.
-/

namespace BodyArchive

inductive BodyError where
  | bodyTooLong (len : Nat)
  | io (e : IoError)
  deriving DecidableEq, Repr

/-- The temporary file of an `FsWrite` sink is only ever appended to. -/
inductive SinkState where
  | ram (bufs : List Bytes)
  | fsWrite (file : File)
  deriving DecidableEq, Repr

structure BodySink where
  state : SinkState
  len : Nat
  deriving DecidableEq, Repr

/-- Append to a file. -/
def File.extend (f : File) (bs : Bytes) : File := { f with content := f.content ++ bs }

namespace BodySink

/-- `with_ram_buffers`; the capacity is only reserved. -/
def withRamBuffers (_capacity : Nat) : BodySink := ⟨.ram [], 0⟩

def empty : BodySink := withRamBuffers 0

/-- `with_ram`: an estimate of 8 KiB buffers. -/
def withRam (sizeEstimate : Nat) : BodySink :=
  if sizeEstimate = 0 then empty else withRamBuffers (sizeEstimate / 0x2000 + 1)

def withFs (dir : TempDir) : Except IoError BodySink :=
  match tempfileIn dir with
  | .ok f => .ok ⟨.fsWrite f, 0⟩
  | .error e => .error e

def isRam (s : BodySink) : Bool :=
  match s.state with
  | .ram _ => true
  | .fsWrite _ => false

def isEmpty (s : BodySink) : Bool := s.len == 0

/-- `push`: add a buffer to the RAM buffers, or write it to the end of the file. -/
def push (io : OpResult) (buf : Bytes) : Prog BodySink IoError Unit := fun s =>
  match s.state with
  | .ram v =>
    if 0 < buf.length then (.ok (), ⟨.ram (v ++ [buf]), s.len + buf.length⟩) else (.ok (), s)
  | .fsWrite f =>
    if 0 < buf.length then
      match io with
      | .done => (.ok (), ⟨.fsWrite (f.extend buf), s.len + buf.length⟩)
      | .failed k e => (.err e, ⟨.fsWrite (f.extend (buf.take k)), s.len⟩)
    else (.ok (), s)

/-- `write_all`: as `push`, with a copy of the buffer. -/
def writeAll (io : OpResult) (buf : Bytes) : Prog BodySink IoError Unit := fun s =>
  if 0 < buf.length then
    match s.state with
    | .ram v => (.ok (), ⟨.ram (v ++ [buf]), s.len + buf.length⟩)
    | .fsWrite f =>
      match io with
      | .done => (.ok (), ⟨.fsWrite (f.extend buf), s.len + buf.length⟩)
      | .failed k e => (.err e, ⟨.fsWrite (f.extend (buf.take k)), s.len⟩)
  else (.ok (), s)

/-- The writes of `write_back`, buffer by buffer; a script that has run out lets them succeed. -/
def writeBuffers : List OpResult → List Bytes → File → Except IoError File
  | _, [], f => .ok f
  | [], b :: bs, f => writeBuffers [] bs (f.extend b)
  | .done :: rs, b :: bs, f => writeBuffers rs bs (f.extend b)
  | .failed _ e :: _, _ :: _, _ => .error e

/-- `write_back`: the state is cut to an empty `Ram` and the length to 0 before anything that
can fail, and both are put back when all is written. -/
def writeBack (dir : TempDir) (writes : List OpResult) : Prog BodySink BodyError Unit := fun s =>
  match s.state with
  | .fsWrite _ => (.ok (), s)
  | .ram v =>
    let olen := s.len
    match tempfileIn dir with
    | .error e => (.err (.io e), ⟨.ram [], 0⟩)
    | .ok f =>
      match writeBuffers writes v f with
      | .error e => (.err (.io e), ⟨.ram [], 0⟩)
      | .ok f => (.ok (), ⟨.fsWrite f, olen⟩)

/-! ## What a sink holds -/

/-- The bytes held: the RAM buffers, or the file. -/
def held (s : BodySink) : Bytes :=
  match s.state with
  | .ram v => v.flatten
  | .fsWrite f => f.content

/-- A sink as its constructors and operations leave it: the length is that of the bytes held, no
buffer is empty, and the file is its own. -/
structure Sound (s : BodySink) : Prop where
  len_eq : s.len = s.held.length
  bufs_ne_nil : ∀ v, s.state = .ram v → ∀ b ∈ v, b ≠ []
  file_own : ∀ f, s.state = .fsWrite f → f.Own

theorem sound_ram_nil : Sound ⟨.ram [], 0⟩ where
  len_eq := rfl
  bufs_ne_nil := by
    rintro v ⟨⟩ b hb
    simp at hb
  file_own := by rintro f ⟨⟩

theorem withRam_eq (n : Nat) : withRam n = ⟨.ram [], 0⟩ := by
  rw [withRam]
  split <;> rfl

theorem sound_withFs {dir : TempDir} {s : BodySink} (h : withFs dir = .ok s) :
    s.Sound ∧ s.held = [] := by
  rw [withFs] at h
  split at h
  · next f hf =>
    cases h
    obtain ⟨hown, hnil⟩ := tempfileIn_own hf
    refine ⟨⟨?_, by rintro v ⟨⟩, ?_⟩, hnil⟩
    · show 0 = f.content.length
      rw [hnil]
      rfl
    · rintro g ⟨⟩
      exact hown
  · cases h

theorem extend_own {f : File} (h : f.Own) (bs : Bytes) : (f.extend bs).Own := h

/-- One buffer accepted: a sound sink holds it after what it held. -/
theorem push_done {s : BodySink} (h : s.Sound) (buf : Bytes) :
    ∃ s', push .done buf s = (.ok (), s') ∧ s'.Sound ∧ s'.held = s.held ++ buf ∧
      s'.isRam = s.isRam := by
  obtain ⟨state, len⟩ := s
  by_cases hb : 0 < buf.length
  · cases state with
    | ram v =>
      refine ⟨⟨.ram (v ++ [buf]), len + buf.length⟩, by simp only [push, if_pos hb], ?_, ?_, rfl⟩
      · refine ⟨?_, ?_, by rintro f ⟨⟩⟩
        · have := h.len_eq
          simp only [held, List.flatten_append, List.length_append] at this ⊢
          simp [this]
        · rintro w ⟨⟩ b hmem
          rcases List.mem_append.mp hmem with hv | hv
          · exact h.bufs_ne_nil v rfl b hv
          · rw [List.mem_singleton.mp hv]
            exact List.ne_nil_of_length_pos hb
      · simp [held]
    | fsWrite f =>
      refine ⟨⟨.fsWrite (f.extend buf), len + buf.length⟩, by simp only [push, if_pos hb], ?_,
        rfl, rfl⟩
      refine ⟨?_, by rintro v ⟨⟩, ?_⟩
      · have := h.len_eq
        simp only [held, File.extend, List.length_append] at this ⊢
        rw [this]
      · rintro g ⟨⟩
        exact extend_own (h.file_own f rfl) buf
  · have hnil : buf = [] := List.eq_nil_of_length_eq_zero (by omega)
    refine ⟨⟨state, len⟩, ?_, h, by rw [hnil, List.append_nil], rfl⟩
    cases state <;> simp only [push, if_neg hb]

/-- `write_all` does to the sink what `push` does. -/
theorem writeAll_eq_push (io : OpResult) (buf : Bytes) : writeAll io buf = push io buf := by
  funext ⟨state, len⟩
  rw [writeAll, push]
  by_cases hb : 0 < buf.length
  · simp only [if_pos hb]
  · cases state <;> simp only [if_neg hb]

theorem writeBuffers_ok {rs : List OpResult} {bs : List Bytes} {f g : File}
    (h : writeBuffers rs bs f = .ok g) : g = f.extend bs.flatten := by
  induction bs generalizing rs f with
  | nil =>
    cases rs <;> cases h <;> simp [File.extend]
  | cons b bs ih =>
    have step (rs : List OpResult) (h : writeBuffers rs bs (f.extend b) = .ok g) :
        g = f.extend (b :: bs).flatten := by
      rw [ih h]
      simp [File.extend, List.append_assoc]
    cases rs with
    | nil => exact step [] h
    | cons r rs =>
      cases r with
      | done => exact step rs h
      | failed k e => cases h

/-- **`write_back`** either moves everything held to a file of the sink's own, or fails and
leaves an empty `Ram` sink. -/
theorem writeBack_cases {s : BodySink} (h : s.Sound) (dir : TempDir) (writes : List OpResult) :
    (∃ s', writeBack dir writes s = (.ok (), s') ∧ s'.Sound ∧ s'.held = s.held ∧
      s'.isRam = false) ∨
    (∃ e, writeBack dir writes s = (.err (.io e), ⟨.ram [], 0⟩)) := by
  obtain ⟨state, len⟩ := s
  cases state with
  | fsWrite f => exact .inl ⟨⟨.fsWrite f, len⟩, rfl, h, rfl, rfl⟩
  | ram v =>
    rcases hd : tempfileIn dir with e | f
    · exact .inr ⟨e, by simp only [writeBack, hd]⟩
    · obtain ⟨hown, hnil⟩ := tempfileIn_own hd
      rcases hw : writeBuffers writes v f with e | g
      · exact .inr ⟨e, by simp only [writeBack, hd, hw]⟩
      · have hg := writeBuffers_ok hw
        have hcontent : g.content = v.flatten := by rw [hg, File.extend, hnil, List.nil_append]
        refine .inl ⟨⟨.fsWrite g, len⟩, by simp only [writeBack, hd, hw], ?_, hcontent, rfl⟩
        refine ⟨?_, by rintro v ⟨⟩, ?_⟩
        · have hlen : len = v.flatten.length := h.len_eq
          show len = g.content.length
          rw [hlen, hcontent]
        · rintro k ⟨⟩
          rw [hg]
          exact extend_own hown _

theorem writeBuffers_done (bs : List Bytes) (f : File) : ∃ g, writeBuffers [] bs f = .ok g := by
  induction bs generalizing f with
  | nil => exact ⟨f, rfl⟩
  | cons b bs ih => exact ih (f.extend b)

/-- When nothing fails, `write_back` succeeds. -/
theorem writeBack_ok {s : BodySink} (h : s.Sound) (env : OwnEnv) :
    ∃ s', writeBack (.ok env) [] s = (.ok (), s') ∧ s'.Sound ∧ s'.held = s.held ∧
      s'.isRam = false := by
  rcases writeBack_cases h (.ok env) [] with h' | ⟨e, he⟩
  · exact h'
  · obtain ⟨state, len⟩ := s
    cases state with
    | fsWrite f => cases he
    | ram v =>
      obtain ⟨g, hg⟩ := writeBuffers_done v ⟨[], env.val⟩
      simp only [writeBack, tempfileIn, hg] at he
      cases he

end BodySink

end BodyArchive
