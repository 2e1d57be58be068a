import BodyArchive.Body.Sink

/-!
# Body images

A `BodyImage` is a body ready to be read, in one of four states, with its length recorded beside
them. `reader`, `write_to` and `explode` give access to the bytes, `mem_map` and `gather` change
the state. The memory mapping itself is the operating system's: `MapSys` is what a map call does,
and `MapSys.Lawful` what the code relies on.
-/

namespace BodyArchive

inductive ImageState where
  | ram (bufs : List Bytes)
  | fsRead (file : File)
  | fsReadSlice (rs : ReadSlice)
  | memMap (map : Bytes)
  deriving DecidableEq, Repr

structure BodyImage where
  state : ImageState
  len : Nat
  deriving DecidableEq, Repr

/-- What mapping a file, or a range of its offsets, gives. -/
structure MapSys where
  whole : Bytes → Except IoError Bytes
  range : Bytes → Nat → Nat → Except IoError Bytes

/-- `Mmap::map` maps the whole file, and a slice maps its range when the file has it. -/
structure MapSys.Lawful (sys : MapSys) : Prop where
  whole_eq : ∀ {c m}, sys.whole c = .ok m → m = c
  range_eq : ∀ {c a b m}, sys.range c a b = .ok m → a ≤ b → b ≤ c.length →
    m = (c.drop a).take (b - a)

/-- A system where mapping works: empty maps and ranges beyond the file are refused. -/
def MapSys.plain : MapSys where
  whole c := if c = [] then .error .invalidInput else .ok c
  range c a b := if a < b ∧ b ≤ c.length then .ok ((c.drop a).take (b - a)) else .error .invalidInput

theorem MapSys.plain_lawful : MapSys.plain.Lawful where
  whole_eq := by
    intro c m h
    simp only [plain] at h
    split at h <;> cases h
    rfl
  range_eq := by
    intro c a b m h _ _
    simp only [plain] at h
    split at h <;> cases h
    rfl

/-! ## The exploded image and the reader -/

inductive ExplodedImage where
  | ram (bufs : List Bytes)
  | fsRead (rs : ReadSlice)
  | memMap (map : Bytes)
  deriving DecidableEq, Repr

/-- `BodyReader`: a cursor over one buffer or over several, or a file slice. -/
inductive BodyReader where
  | contiguous (data : Bytes) (pos : Nat)
  | scattered (bufs : List Bytes) (pos : Nat)
  | fileSlice (rs : ReadSlice)
  deriving DecidableEq, Repr

namespace BodyReader

def read (br : BodyReader) (n : Nat) : Except IoError Bytes × BodyReader :=
  match br with
  | .contiguous data pos =>
    let bs := (data.drop pos).take n
    (.ok bs, .contiguous data (pos + bs.length))
  | .scattered bufs pos =>
    let bs := (bufs.flatten.drop pos).take n
    (.ok bs, .scattered bufs (pos + bs.length))
  | .fileSlice rs => ((rs.read n).1, .fileSlice (rs.read n).2)

/-- The bytes left of the readers over memory. -/
def left : BodyReader → Bytes
  | .contiguous data pos => data.drop pos
  | .scattered bufs pos => bufs.flatten.drop pos
  | .fileSlice _ => []

def fuel : BodyReader → Nat
  | .fileSlice rs => Read.fuel rs
  | br => br.left.length

instance : Read BodyReader where
  read := read
  fuel := fuel
  read_length := by
    intro br n bs br' h
    cases br with
    | contiguous data pos => cases h; rw [List.length_take]; omega
    | scattered bufs pos => cases h; rw [List.length_take]; omega
    | fileSlice rs =>
      rcases hr : rs.read n with ⟨x, rs'⟩
      simp only [read, hr, Prod.mk.injEq] at h
      obtain ⟨rfl, -⟩ := h
      exact Read.read_length (R := ReadSlice) hr
  fuel_le := by
    intro br n x br' h
    cases br with
    | contiguous data pos => cases h; simp only [fuel, left, List.length_drop]; omega
    | scattered bufs pos => cases h; simp only [fuel, left, List.length_drop]; omega
    | fileSlice rs =>
      rcases hr : rs.read n with ⟨y, rs'⟩
      simp only [read, hr, Prod.mk.injEq] at h
      obtain ⟨rfl, rfl⟩ := h
      exact Read.fuel_le (R := ReadSlice) hr
  fuel_bytes := by
    intro br n bs br' h hne
    have shrink (c : Bytes) (pos : Nat) (hbs : bs = (c.drop pos).take n) :
        (c.drop (pos + bs.length)).length < (c.drop pos).length := by
      have := List.length_pos_iff.mpr hne
      have hl := congrArg List.length hbs
      rw [List.length_take, List.length_drop] at hl
      rw [List.length_drop, List.length_drop]
      omega
    cases br with
    | contiguous data pos => cases h; exact shrink data pos rfl
    | scattered bufs pos => cases h; exact shrink bufs.flatten pos rfl
    | fileSlice rs =>
      rcases hr : rs.read n with ⟨x, rs'⟩
      simp only [read, hr, Prod.mk.injEq] at h
      obtain ⟨rfl, rfl⟩ := h
      exact Read.fuel_bytes (R := ReadSlice) hr hne
  fuel_interrupted := by
    intro br n br' h
    cases br with
    | contiguous data pos => cases h
    | scattered bufs pos => cases h
    | fileSlice rs =>
      rcases hr : rs.read n with ⟨x, rs'⟩
      simp only [read, hr, Prod.mk.injEq] at h
      obtain ⟨rfl, rfl⟩ := h
      exact Read.fuel_interrupted (R := ReadSlice) hr

@[simp] theorem read_def (br : BodyReader) (n : Nat) : Read.read br n = br.read n := rfl

/-- The position and the coming bytes of a reader. -/
def AtRest (br : BodyReader) (p : Nat) (bs : Bytes) (t : Tail) : Prop :=
  match br with
  | .contiguous data pos => pos = p ∧ data.drop pos = bs ∧ t = .eof
  | .scattered bufs pos => pos = p ∧ bufs.flatten.drop pos = bs ∧ t = .eof
  | .fileSlice rs => Rest rs p bs t

instance : Source BodyReader where
  Rest := AtRest
  step := by
    intro br n p bs t h hn hmore
    have hmem (c : Bytes) : ((c.drop p).take n).length = min n (c.drop p).length := by
      rw [List.length_take]
    have hmin (c : Bytes) : (c.drop p).take n = (c.drop p).take (min n (c.drop p).length) := by
      rw [List.take_eq_take_iff]; omega
    cases br with
    | contiguous data pos =>
      obtain ⟨rfl, rfl, rfl⟩ := h
      refine .inl ⟨min n (data.drop pos).length, .contiguous data (pos + min n (data.drop pos).length),
        ?_, by omega, by omega, fun hne => ?_, fun _ => rfl, rfl, ?_, rfl⟩
      · simp only [read_def, read, hmem, ← hmin]
      · have := List.length_pos_iff.mpr hne
        omega
      · rw [List.drop_drop]
    | scattered bufs pos =>
      obtain ⟨rfl, rfl, rfl⟩ := h
      refine .inl ⟨min n (bufs.flatten.drop pos).length,
        .scattered bufs (pos + min n (bufs.flatten.drop pos).length),
        ?_, by omega, by omega, fun hne => ?_, fun _ => rfl, rfl, ?_, rfl⟩
      · simp only [read_def, read, hmem, ← hmin]
      · have := List.length_pos_iff.mpr hne
        omega
      · rw [List.drop_drop]
    | fileSlice rs =>
      rcases Source.step (R := ReadSlice) h hn hmore with
        ⟨k, rs', hr, hk⟩ | ⟨rs', hr, hrest⟩ | ⟨hnil, e, rs', he, hint, hr⟩
      · exact .inl ⟨k, .fileSlice rs', by rw [ReadSlice.read_def] at hr; simp only [read_def, read, hr],
          hk⟩
      · exact .inr (.inl ⟨.fileSlice rs',
          by rw [ReadSlice.read_def] at hr; simp only [read_def, read, hr], hrest⟩)
      · exact .inr (.inr ⟨hnil, e, .fileSlice rs', he, hint,
          by rw [ReadSlice.read_def] at hr; simp only [read_def, read, hr]⟩)

end BodyReader

/-! ## The operations -/

namespace BodySink

/-- `prepare`: `fault` is how the flush and seek of a file go. -/
def prepare (fault : Option IoError) (s : BodySink) : Except BodyError BodyImage :=
  match s.state with
  | .ram v => .ok ⟨.ram v, s.len⟩
  | .fsWrite f =>
    -- An empty file could not be mapped, so it becomes the empty image.
    if s.len = 0 then .ok ⟨.ram [], 0⟩
    else match fault with
      | none => .ok ⟨.fsRead f, s.len⟩
      | some e => .error (.io e)

end BodySink

namespace BodyImage

def empty : BodyImage := ⟨.ram [], 0⟩

/-- `from_slice`: a `Ram` image of one buffer, or the empty one. -/
def fromSlice (bs : Bytes) : BodyImage :=
  if 0 < bs.length then ⟨.ram [bs], bs.length⟩ else ⟨.ram [], 0⟩

/-- `from_file`: the length is the caller's, whatever the file's. -/
def fromFile (file : File) (length : Nat) : BodyImage :=
  if 0 < length then ⟨.fsRead file, length⟩ else empty

/-- `from_read_slice`: the length is that of the range, whatever the file's. -/
def fromReadSlice (rs : ReadSlice) : BodyImage :=
  if 0 < rs.len then ⟨.fsReadSlice rs, rs.len⟩ else empty

def isRam (im : BodyImage) : Bool :=
  match im.state with
  | .ram _ => true
  | _ => false

def isEmpty (im : BodyImage) : Bool := im.len == 0

/-- `mem_map`. -/
def memMap (sys : MapSys) : Prog BodyImage BodyError Unit := fun im =>
  match im.state with
  | .fsRead file =>
    if 0 < im.len then
      match sys.whole file.content with
      | .ok m => (.ok (), { im with state := .memMap m })
      | .error e => (.err (.io e), im)
    else (.panic "assertion failed: self.len > 0", im)
  | .fsReadSlice rs =>
    match sys.range rs.file.content rs.start rs.stop with
    | .ok m => (.ok (), { im with state := .memMap m })
    | .error e => (.err (.io e), im)
  | _ => (.ok (), im)

/-- `gather`: two or more RAM buffers become one. -/
def gather : Prog BodyImage BodyError Unit := fun im =>
  match im.state with
  | .ram v =>
    if 1 < v.length then
      let newb := v.flatten
      if newb.length = im.len then (.ok (), { im with state := .ram [newb] })
      else (.panic "assertion failed: newb.len() as u64 == self.len", { im with state := .ram [] })
    else (.ok (), im)
  | _ => (.ok (), im)

def reader (im : BodyImage) : BodyReader :=
  match im.state with
  | .ram [] => .contiguous [] 0
  | .ram [b] => .contiguous b 0
  | .ram v => .scattered v 0
  | .fsRead f => .fileSlice ⟨f, 0, im.len, 0⟩
  | .fsReadSlice rs => .fileSlice rs
  | .memMap m => .contiguous m 0

def explode (im : BodyImage) : ExplodedImage :=
  match im.state with
  | .ram v => .ram v
  | .fsRead f => .fsRead ⟨f, 0, im.len, 0⟩
  | .fsReadSlice rs => .fsRead rs
  | .memMap m => .memMap m

section WriteTo

variable {W : Type} [Write W]

/-- Write buffers one after the other. -/
def writeBufs : List Bytes → Prog W IoError Unit
  | [] => pure ()
  | b :: bs => do
    Write.writeAll b
    writeBufs bs

/-- What `write_to` writes in each state. -/
def writeState : ImageState → Prog W BodyError Unit
  | .ram v => Prog.mapErr .io (writeBufs v)
  | .memMap m => Prog.mapErr .io (Write.writeAll m)
  | .fsRead f => do
    -- `ReadPos::new(f, len)`: the length given there does not limit the reads.
    let _ ← Prog.mapErr .io (Prog.withLocal (⟨f, 0⟩ : ReadPos) copy)
  | .fsReadSlice rs => do
    let _ ← Prog.mapErr .io (Prog.withLocal rs copy)

/-- `write_to`: the recorded length is returned, whatever was written. -/
def writeTo (im : BodyImage) : Prog W BodyError Nat := do
  writeState im.state
  pure im.len

end WriteTo

end BodyImage

end BodyArchive
