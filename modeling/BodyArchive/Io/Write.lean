import BodyArchive.Io.File

/-!
# Writers

The `Write` trait, and a file open for writing. Every operation on an `OutFile` may fail: its
script says, operation by operation, whether it completes, and how many bytes of a write reach
the file before it fails. The handle also logs the writes as `FileOp`s, which is how a
concurrent reader of the same file sees them.
-/

namespace BodyArchive

/-- The `Write` trait, as far as callers see it: `write_all`. -/
class Write (W : Type) where
  writeAll : Bytes → Prog W IoError Unit

export Write (writeAll)

/-- `G` tracks the bytes a writer has accepted: a write of `b` always succeeds, and adds `b`. -/
def Accepts {W : Type} [Write W] (G : W → Bytes → Prop) : Prop :=
  ∀ w got b, G w got → ∃ w', writeAll b w = (.ok (), w') ∧ G w' (got ++ b)

/-- A `Vec<u8>`: appending to it cannot fail. -/
instance : Write Bytes where
  writeAll bs := fun out => (.ok (), out ++ bs)

theorem accepts_vec (base : Bytes) : Accepts fun (out : Bytes) got => out = base ++ got := by
  rintro out got b rfl
  exact ⟨base ++ got ++ b, rfl, List.append_assoc ..⟩

/-! ## Copying a reader to a writer -/

section Copy

variable {R W : Type}

/-- The slice size `io::copy` reads in. -/
def copyBufSize : Nat := 8192

/-- One round of `io::copy`: `written` counts the bytes so far. -/
def copyStep [Read R] [Write W] (written : Nat) : Prog (R × W) IoError (Nat ⊕ Nat) := do
  match ← Prog.onFst (tryRead copyBufSize) with
  | .ok [] => pure (.inr written)
  | .ok bs => do
    Prog.onSnd (writeAll bs)
    pure (.inl (written + bs.length))
  | .error .interrupted => pure (.inl written)
  | .error e => Prog.throw e

/-- `io::copy`: everything the reader yields goes to the writer; returns how much that was. -/
def copy [Read R] [Write W] : Prog (R × W) IoError Nat :=
  Prog.loop (fun s => Read.fuel s.1) copyStep 0

theorem copyStep_decreasing [Read R] [Write W] :
    Prog.Decreasing (fun s : R × W => Read.fuel s.1) copyStep := by
  rintro written ⟨r, w⟩ written' ⟨r', w'⟩ h
  rw [copyStep] at h
  rcases hr : Read.read r copyBufSize with ⟨(e | bs), r₁⟩ <;>
    rw [Prog.bind_of_ok (Prog.onFst_of (tryRead_of hr) w)] at h
  · cases e <;> cases h
    exact Read.fuel_interrupted hr
  · cases bs with
    | nil => cases h
    | cons b bs =>
      obtain ⟨u, ⟨r₂, w₂⟩, hw, h⟩ := Prog.bind_eq_ok h
      cases h
      have hr' : r' = r₁ := (congrArg (fun x => x.2.1) hw).symm
      rw [hr']
      exact Read.fuel_bytes hr (by simp)

/-- **A copy** to a writer that accepts everything moves exactly the bytes of the source. -/
theorem copy_eof [Source R] [Write W] {G : W → Bytes → Prop} (hG : Accepts G) {r : R} {w : W}
    {p : Nat} {bs got : Bytes} (h : Rest r p bs .eof) (hw : G w got) :
    ∃ r' w', copy (r, w) = (.ok bs.length, r', w') ∧ G w' (got ++ bs) := by
  refine Prog.loop_rule copyStep_decreasing
    (fun written s => ∃ p done left, bs = done ++ left ∧ written = done.length ∧
      Rest s.1 p left .eof ∧ G s.2 (got ++ done))
    (fun x => ∃ r' w', x = (.ok bs.length, r', w') ∧ G w' (got ++ bs)) ?_ 0 (r, w)
    ⟨p, [], bs, rfl, rfl, h, by simpa using hw⟩
  rintro written ⟨r, w⟩ ⟨p, done, left, rfl, rfl, hrest, hgot⟩
  rw [copyStep]
  rcases Source.step hrest (n := copyBufSize) (by decide) (by simp) with
    ⟨k, r', hr, -, -, hpos, -, hrest'⟩ | ⟨r', hr, hrest'⟩ | ⟨-, e, r', he, -⟩
  · rw [Prog.bind_of_ok (Prog.onFst_of (tryRead_of hr) w)]
    cases hc : left.take k with
    | nil =>
      obtain rfl := nil_of_take hpos hc
      exact ⟨r', w, by rw [List.append_nil], by simpa using hgot⟩
    | cons b rest =>
      obtain ⟨w', hwrite, hgot'⟩ := hG w (got ++ done) (b :: rest) hgot
      show Prog.After _ _ ((Prog.onSnd (writeAll (b :: rest)) >>= _) (r', w))
      rw [Prog.bind_of_ok (Prog.onSnd_of hwrite r')]
      refine ⟨p + k, done ++ (b :: rest), left.drop k, ?_, ?_, hrest', ?_⟩
      · rw [← hc, List.append_assoc, List.take_append_drop]
      · rw [List.length_append]
      · rw [← List.append_assoc]
        exact hgot'
  · rw [Prog.bind_of_ok (Prog.onFst_of (tryRead_of hr) w)]
    exact ⟨p, done, left, rfl, rfl, hrest', hgot⟩
  · cases he

end Copy

/-! ## Files open for writing -/

/-- How one file operation goes. -/
inductive OpResult where
  | done
  /-- It fails; of a write, the first `k` bytes have reached the file. -/
  | failed (k : Nat) (e : IoError)
  deriving DecidableEq, Repr

/-- A file open for writing. -/
structure OutFile where
  content : Bytes
  pos : Nat
  /-- How the coming operations go; the script that has run out lets them all complete. -/
  script : List OpResult
  /-- The writes so far, in order. -/
  log : List FileOp
  deriving DecidableEq, Repr

namespace OutFile

/-- A new file, whose operations all complete. -/
def empty : OutFile := ⟨[], 0, [], []⟩

/-- The next operation's result. -/
def next (f : OutFile) : OpResult × OutFile :=
  match f.script with
  | [] => (.done, f)
  | r :: rs => (r, { f with script := rs })

/-- Put bytes at the current position. -/
def put (f : OutFile) (bs : Bytes) : OutFile :=
  { f with content := FileOp.apply f.content ⟨f.pos, bs⟩, pos := f.pos + bs.length,
           log := f.log ++ [⟨f.pos, bs⟩] }

@[simp] theorem put_content (f : OutFile) (bs : Bytes) :
    (f.put bs).content = FileOp.apply f.content ⟨f.pos, bs⟩ := rfl

@[simp] theorem put_pos (f : OutFile) (bs : Bytes) : (f.put bs).pos = f.pos + bs.length := rfl

@[simp] theorem put_log (f : OutFile) (bs : Bytes) :
    (f.put bs).log = f.log ++ [⟨f.pos, bs⟩] := rfl

/-- `write_all`. Nothing at all is done for an empty slice. -/
def write (bs : Bytes) : Prog OutFile IoError Unit := fun f =>
  if bs = [] then (.ok (), f) else
  match f.next with
  | (.done, f) => (.ok (), f.put bs)
  | (.failed k e, f) => (.err e, f.put (bs.take k))

instance : Write OutFile where
  writeAll := write

/-- A seek to the position that `target` computes. -/
def seekTo (target : OutFile → Nat) : Prog OutFile IoError Nat := fun f =>
  match f.next with
  | (.done, f) => (.ok (target f), { f with pos := target f })
  | (.failed _ e, f) => (.err e, f)

/-- `seek(SeekFrom::End(0))`. -/
def seekEnd : Prog OutFile IoError Nat := seekTo fun f => f.content.length

/-- `seek(SeekFrom::Start(n))`. -/
def seekStart (n : Nat) : Prog OutFile IoError Nat := seekTo fun _ => n

/-- `seek(SeekFrom::Current(0))`. -/
def tell : Prog OutFile IoError Nat := seekTo OutFile.pos

def flush : Prog OutFile IoError Unit := fun f =>
  match f.next with
  | (.done, f) => (.ok (), f)
  | (.failed _ e, f) => (.err e, f)

@[simp] theorem writeAll_def (bs : Bytes) : (writeAll bs : Prog OutFile IoError Unit) = write bs :=
  rfl

/-! ## When every operation completes -/

/-- A file without coming failures. -/
def Calm (f : OutFile) : Prop := f.script = []

theorem empty_calm : empty.Calm := rfl

theorem Calm.next {f : OutFile} (h : f.Calm) : f.next = (.done, f) := by
  have hs : f.script = [] := h
  rw [OutFile.next, hs]

theorem Calm.put {f : OutFile} (h : f.Calm) (bs : Bytes) : (f.put bs).Calm := h

theorem write_calm {f : OutFile} (h : f.Calm) {bs : Bytes} (hne : bs ≠ []) :
    write bs f = (.ok (), f.put bs) := by
  rw [write, if_neg hne, h.next]

/-- `f'` is `f` after writes at its end that add `got`, in some pieces. -/
structure Grown (f : OutFile) (got : Bytes) (f' : OutFile) : Prop where
  calm : f'.Calm
  content_eq : f'.content = f.content ++ got
  pos_eq : f'.pos = f'.content.length
  log_eq : ∃ pieces, pieces.flatten = got ∧ f'.log = f.log ++ FileOp.place f.content.length pieces

theorem Grown.refl {f : OutFile} (h : f.Calm) (hpos : f.pos = f.content.length) : f.Grown [] f where
  calm := h
  content_eq := by simp
  pos_eq := hpos
  log_eq := ⟨[], rfl, by simp [FileOp.place]⟩

theorem Grown.write {f f' : OutFile} {got : Bytes} (h : f.Grown got f') (b : Bytes) :
    ∃ f₁, OutFile.write b f' = (.ok (), f₁) ∧ f.Grown (got ++ b) f₁ := by
  by_cases hb : b = []
  · subst hb
    exact ⟨f', by rw [OutFile.write, if_pos rfl], by simpa using h⟩
  · obtain ⟨pieces, hflat, hlog⟩ := h.log_eq
    refine ⟨f'.put b, write_calm h.calm hb, h.calm.put b, ?_, ?_, pieces ++ [b], ?_, ?_⟩
    · rw [put_content, h.pos_eq, FileOp.apply_end, h.content_eq, List.append_assoc]
    · rw [put_pos, put_content, h.pos_eq, FileOp.apply_end, List.length_append]
    · rw [List.flatten_append, hflat]
      simp
    · rw [put_log, hlog, FileOp.place_append, h.pos_eq, h.content_eq, hflat, List.length_append,
        List.append_assoc]
      rfl

theorem seekTo_calm {f : OutFile} (h : f.Calm) (target : OutFile → Nat) :
    seekTo target f = (.ok (target f), { f with pos := target f }) := by
  rw [seekTo, h.next]

theorem flush_calm {f : OutFile} (h : f.Calm) : flush f = (.ok (), f) := by
  rw [flush, h.next]

/-! ## When a program returns a value

Every operation of it has completed, so it would have done the same without coming failures. -/

/-- The file without its coming failures. -/
def hush (f : OutFile) : OutFile := { f with script := [] }

theorem hush_calm (f : OutFile) : f.hush.Calm := rfl

@[simp] theorem hush_content (f : OutFile) : f.hush.content = f.content := rfl

/-- An operation that completed, as a step of the file without failures. -/
theorem next_done {f f' : OutFile} (h : f.next = (.done, f')) :
    f'.content = f.content ∧ f'.pos = f.pos ∧ f'.log = f.log := by
  unfold next at h
  split at h <;> cases h <;> exact ⟨rfl, rfl, rfl⟩

theorem hush_eq {f f' : OutFile} (hc : f'.content = f.content) (hp : f'.pos = f.pos)
    (hl : f'.log = f.log) : f'.hush = f.hush := by
  simp only [hush, hc, hp, hl]

/-- The file starts with `base`, and will be written behind it. -/
def Above (base : Bytes) (f : OutFile) : Prop := base <+: f.content ∧ base.length ≤ f.pos

theorem Above.put {base : Bytes} {f : OutFile} (h : Above base f) (bs : Bytes) :
    Above base (f.put bs) := by
  obtain ⟨hpre, hpos⟩ := h
  exact ⟨FileOp.prefix_apply hpre hpos, Nat.le_trans hpos (Nat.le_add_right _ _)⟩

theorem Above.next {base : Bytes} {f : OutFile} (h : Above base f) : Above base f.next.2 := by
  unfold OutFile.next
  split <;> exact h

theorem carries_write (base bs : Bytes) : Prog.Carries (Above base) hush (write bs) := by
  intro f hI
  by_cases hbs : bs = []
  · simp only [write, if_pos hbs]
    refine ⟨hI, fun u f' h => ?_⟩
    cases h
    rfl
  · rw [write_calm (hush_calm f) hbs]
    have hI' := hI.next
    rw [write, if_neg hbs]
    rcases hn : f.next with ⟨_ | ⟨k, e⟩, f₁⟩ <;> rw [hn] at hI'
    · refine ⟨hI'.put bs, fun u f' h => ?_⟩
      cases h
      obtain ⟨hc, hp, hl⟩ := next_done hn
      simp only [hush, put, hc, hp, hl]
    · refine ⟨hI'.put _, fun u f' h => ?_⟩
      cases h

theorem carries_seekTo {base : Bytes} {target : OutFile → Nat} (ht : ∀ f, target f.hush = target f)
    (habove : ∀ f, Above base f → base.length ≤ target f) :
    Prog.Carries (Above base) hush (seekTo target) := by
  intro f hI
  have hI' := hI.next
  rw [seekTo_calm (hush_calm f), seekTo]
  rcases hn : f.next with ⟨_ | ⟨k, e⟩, f₁⟩ <;> rw [hn] at hI'
  · refine ⟨⟨hI'.1, habove f₁ hI'⟩, fun n f' h => ?_⟩
    cases h
    obtain ⟨hc, hp, hl⟩ := next_done hn
    have htarget : target f₁ = target f.hush := by
      rw [← ht f₁, hush_eq hc hp hl]
    rw [htarget]
    simp only [hush, hc, hl]
  · refine ⟨hI', fun n f' h => ?_⟩
    cases h

theorem carries_flush (base : Bytes) : Prog.Carries (Above base) hush flush := by
  intro f hI
  have hI' := hI.next
  rw [flush_calm (hush_calm f), flush]
  rcases hn : f.next with ⟨_ | ⟨k, e⟩, f₁⟩ <;> rw [hn] at hI'
  · refine ⟨hI', fun u f' h => ?_⟩
    cases h
    obtain ⟨hc, hp, hl⟩ := next_done hn
    rw [hush_eq hc hp hl]
  · refine ⟨hI', fun u f' h => ?_⟩
    cases h

end OutFile

end BodyArchive
