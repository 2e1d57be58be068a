import BodyArchive.Barc.Crates
import BodyArchive.Io.Write

/-!
# Record compression

`EncodeWrapper` is the writer a record goes through, `decodeWrapper` gives the reader it comes
back from. A plain record goes straight to the file; a compressed one is what the encoder makes
of the chunks written. `Encodes` relates the two ends: the bytes written, and the payload in the
file (`finish_fed`).
-/

namespace BodyArchive

/-- The encoders a compression strategy chooses from, with their compression level. -/
inductive Encoder where
  | plain
  | gzip (level : Nat)
  | brotli (level : Nat)
  deriving DecidableEq, Repr

namespace Encoder

def mode : Encoder → Compression
  | .plain => .plain
  | .gzip _ => .gzip
  | .brotli _ => .brotli

def level : Encoder → Nat
  | .plain => 0
  | .gzip level => level
  | .brotli level => level

end Encoder

/-- A file, written through an encoder that has received some chunks. -/
structure EncodeWrapper (cr : Crates) where
  file : OutFile
  enc : Encoder
  chunks : List Bytes

variable {cr : Crates}

namespace EncodeWrapper

def mode (w : EncodeWrapper cr) : Compression := w.enc.mode

/-- An operation on the file behind the encoder. -/
def onFile {ε α : Type} (m : Prog OutFile ε α) : Prog (EncodeWrapper cr) ε α := fun w =>
  ((m w.file).1, { w with file := (m w.file).2 })

/-- `write_all`. Nothing is written for an empty slice. -/
def write (bs : Bytes) : Prog (EncodeWrapper cr) IoError Unit := fun w =>
  if bs = [] then (.ok (), w)
  else if w.mode = .plain then onFile (OutFile.write bs) w
  else onFile (OutFile.write (cr.emit w.mode w.enc.level (w.chunks ++ [bs])))
    { w with chunks := w.chunks ++ [bs] }

instance : Write (EncodeWrapper cr) where
  writeAll := write

/-- `finish`. An encoder is dropped at the end; the bytes it still has then go to the file, and
an error with them goes nowhere. -/
def finish : Prog (EncodeWrapper cr) BarcError Unit := fun w =>
  if w.mode = .plain then onFile (Prog.mapErr .io OutFile.flush) w
  else onFile (do
    Prog.mapErr .io (OutFile.write (cr.finish w.mode w.enc.level w.chunks))
    Prog.mapErr .io OutFile.flush
    Prog.dropErr (OutFile.write (cr.close w.mode w.enc.level w.chunks))) w

theorem onFile_of {ε α : Type} {m : Prog OutFile ε α} {w : EncodeWrapper cr} {x : Res ε α}
    {f : OutFile} (h : m w.file = (x, f)) : onFile m w = (x, { w with file := f }) := by
  rw [onFile, h]

end EncodeWrapper

/-- The payload that some bytes become. -/
def Encodes (cr : Crates) (mode : Compression) (bs payload : Bytes) : Prop :=
  (mode = .plain ∧ payload = bs) ∨
    (mode ≠ .plain ∧ ∃ level chunks, chunks.flatten = bs ∧ payload = cr.encoded mode level chunks)

namespace EncodeWrapper

/-- The wrapper has received `got`, and the file has grown by what the encoder wrote so far. -/
structure Fed (f : OutFile) (enc : Encoder) (w : EncodeWrapper cr) (got : Bytes) : Prop where
  enc_eq : w.enc = enc
  grown : f.Grown (if enc.mode = .plain then got else cr.sent enc.mode enc.level w.chunks) w.file
  chunks_eq : enc.mode ≠ .plain → w.chunks.flatten = got

theorem fed_start {f : OutFile} (h : f.Calm) (hpos : f.pos = f.content.length) (enc : Encoder) :
    Fed f enc (⟨f, enc, []⟩ : EncodeWrapper cr) [] where
  enc_eq := rfl
  grown := by
    have hout : (if enc.mode = .plain then [] else cr.sent enc.mode enc.level []) = [] := by
      split <;> rfl
    rw [hout]
    exact .refl h hpos
  chunks_eq _ := rfl

theorem write_nil (w : EncodeWrapper cr) : write [] w = (.ok (), w) := by
  rw [write, if_pos rfl]

theorem fed_accepts (f : OutFile) (enc : Encoder) :
    Accepts fun (w : EncodeWrapper cr) got => Fed f enc w got := by
  rintro w got b ⟨rfl, hgrown, hchunks⟩
  by_cases hb : b = []
  · subst hb
    exact ⟨w, write_nil w, rfl, by simpa using hgrown, by simpa using hchunks⟩
  by_cases hmode : w.enc.mode = .plain
  · rw [if_pos hmode] at hgrown
    obtain ⟨f₁, hw, hgrown₁⟩ := hgrown.write b
    refine ⟨{ w with file := f₁ }, ?_, rfl, by rw [if_pos hmode]; exact hgrown₁,
      fun h => absurd hmode h⟩
    show write b w = _
    rw [write, if_neg hb, mode, if_pos hmode, onFile_of hw]
  · rw [if_neg hmode] at hgrown
    obtain ⟨f₁, hw, hgrown₁⟩ := hgrown.write (cr.emit w.enc.mode w.enc.level (w.chunks ++ [b]))
    refine ⟨{ w with file := f₁, chunks := w.chunks ++ [b] }, ?_, rfl, ?_, fun h => ?_⟩
    · show write b w = _
      rw [write, if_neg hb, mode, if_neg hmode]
      exact onFile_of hw
    · rw [if_neg hmode]
      simp only [cr.sent_append]
      exact hgrown₁
    · simp only [List.flatten_append, hchunks h]
      simp

/-- **`finish`** leaves in the file the payload that the bytes received become. -/
theorem finish_fed {f : OutFile} {enc : Encoder} {w : EncodeWrapper cr} {got : Bytes}
    (h : Fed f enc w got) :
    ∃ w' payload, finish w = (.ok (), w') ∧ Encodes cr enc.mode got payload ∧
      f.Grown payload w'.file := by
  obtain ⟨rfl, hgrown, hchunks⟩ := h
  by_cases hmode : w.enc.mode = .plain
  · rw [if_pos hmode] at hgrown
    refine ⟨{ w with file := w.file }, got, ?_, .inl ⟨hmode, rfl⟩, hgrown⟩
    rw [finish, mode, if_pos hmode]
    exact onFile_of (Prog.mapErr_of_ok (OutFile.flush_calm hgrown.calm))
  · rw [if_neg hmode] at hgrown
    obtain ⟨f₁, hw₁, hgrown₁⟩ := hgrown.write (cr.finish w.enc.mode w.enc.level w.chunks)
    obtain ⟨f₂, hw₂, hgrown₂⟩ := hgrown₁.write (cr.close w.enc.mode w.enc.level w.chunks)
    refine ⟨{ w with file := f₂ }, _, ?_, .inr ⟨hmode, w.enc.level, w.chunks, hchunks hmode, rfl⟩,
      hgrown₂⟩
    rw [finish, mode, if_neg hmode]
    refine onFile_of ?_
    rw [Prog.bind_of_ok (Prog.mapErr_of_ok hw₁),
      Prog.bind_of_ok (Prog.mapErr_of_ok (OutFile.flush_calm hgrown₁.calm))]
    exact Prog.dropErr_of_ok hw₂

end EncodeWrapper

/-! ## Decoding -/

/-- `DecodeWrapper::new`: a decoder over the slice of a compressed record. -/
def decodeWrapper (cr : Crates) (comp : Compression) (rs : ReadSlice) (bufSize : Nat) :
    Except BarcError Stream :=
  match comp with
  | .gzip => .ok (cr.decoder .gzip bufSize rs)
  | .brotli =>
    if cr.brotli then .ok (cr.decoder .brotli bufSize rs) else .error (.decoderUnsupported .brotli)
  | .plain => .error (.decoderUnsupported .plain)

theorem decodeWrapper_built {comp : Compression} (hc : comp ≠ .plain) (hb : cr.built comp = true)
    (rs : ReadSlice) (bufSize : Nat) :
    decodeWrapper cr comp rs bufSize = .ok (cr.decoder comp bufSize rs) := by
  cases comp with
  | plain => exact absurd rfl hc
  | gzip => rfl
  | brotli => exact if_pos hb

theorem decodeWrapper_not_built {comp : Compression} (hb : ¬ cr.built comp = true)
    (rs : ReadSlice) (bufSize : Nat) :
    decodeWrapper cr comp rs bufSize = .error (.decoderUnsupported comp) := by
  cases comp with
  | plain => exact absurd rfl hb
  | gzip => exact absurd rfl hb
  | brotli => exact if_neg hb

end BodyArchive
