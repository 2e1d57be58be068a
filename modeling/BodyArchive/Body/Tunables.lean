import BodyArchive.Io.File

/-!
# Tunables

Size limits and buffer sizes. `Tuner`, the only way to build `Tunables` other than their
defaults, asserts that the buffer sizes are positive and that `max_body_ram` does not exceed
`max_body`; the structure carries what it asserts.
-/

namespace BodyArchive

/-- The environment of a file that belongs to one owner: nobody else writes it, and its reads
are fair. -/
abbrev OwnEnv := { env : List Event // (File.mk [] env).Own }

/-- What a directory does when a temporary file is created in it: fail, or give a fresh file
of the creator's own. -/
abbrev TempDir := Except IoError OwnEnv

/-- `tempfile_in`. -/
def tempfileIn : TempDir → Except IoError File
  | .ok env => .ok ⟨[], env.val⟩
  | .error e => .error e

theorem tempfileIn_own {dir : TempDir} {f : File} (h : tempfileIn dir = .ok f) :
    f.Own ∧ f.content = [] := by
  cases dir with
  | error e => cases h
  | ok env =>
    cases h
    exact ⟨env.property, rfl⟩

structure Tunables where
  maxBodyRam : Nat
  maxBody : Nat
  bufferSizeRam : Nat
  bufferSizeFs : Nat
  sizeEstimateDeflate : Nat
  sizeEstimateGzip : Nat
  sizeEstimateBrotli : Nat
  tempDir : TempDir
  ram_le_max : maxBodyRam ≤ maxBody
  buffer_ram_pos : 0 < bufferSizeRam
  buffer_fs_pos : 0 < bufferSizeFs

namespace Tunables

/-- `Tunables::new`: the defaults, for a temporary directory. -/
def new (tempDir : TempDir) : Tunables where
  maxBodyRam := 192 * 1024
  maxBody := 1024 * 1024 * 1024
  bufferSizeRam := 8 * 1024
  bufferSizeFs := 64 * 1024
  sizeEstimateDeflate := 4
  sizeEstimateGzip := 5
  sizeEstimateBrotli := 6
  tempDir := tempDir
  ram_le_max := by decide
  buffer_ram_pos := by decide
  buffer_fs_pos := by decide

theorem calm_own : (File.mk [] []).Own := File.quiet_own []

/-- A directory where all goes well. -/
def calmDir : TempDir := .ok ⟨[], calm_own⟩

/-- The defaults with other size limits, for such a directory. -/
def sized (maxBodyRam maxBody bufferSizeRam : Nat) (h : maxBodyRam ≤ maxBody)
    (hpos : 0 < bufferSizeRam) : Tunables :=
  { Tunables.new calmDir with
    maxBodyRam := maxBodyRam
    maxBody := maxBody
    bufferSizeRam := bufferSizeRam
    ram_le_max := h
    buffer_ram_pos := hpos }

/-- Bodies of up to four bytes, all in files. -/
def fileOnly : Tunables := sized 0 4 1 (Nat.zero_le _) Nat.zero_lt_one

/-- Temporary files can be created. -/
def TempOk (tune : Tunables) : Prop := ∃ env, tune.tempDir = .ok env

/-- What `read_from` takes: a body within `max_body`, for which a temporary file can be created
if it, or its estimate, is over `max_body_ram`. -/
def Takes (tune : Tunables) (lenEstimate len : Nat) : Prop :=
  len ≤ tune.maxBody ∧ (tune.maxBodyRam < max lenEstimate len → tune.TempOk)

theorem takes_of_tempOk {tune : Tunables} (h : tune.TempOk) {lenEstimate len : Nat}
    (hlen : len ≤ tune.maxBody) : tune.Takes lenEstimate len := ⟨hlen, fun _ => h⟩

end Tunables

end BodyArchive
