import BodyArchive.Barc.Head
import BodyArchive.Io.Stream

/-!
# The crates the archive rests on

Header parsing comes from *httparse* and *http*, compression from *flate2* and *brotli*. What
they compute is a parameter of the model, `Crates`; what the archive relies on is stated law by
law in `HeadersLawful`, `CodecLawful` and `Decodes`.

An encoder is given chunks, and after each of them, when it is finished, and when it is dropped,
it has some bytes for the file. A decoder over a slice of a file is a stream.
-/

namespace BodyArchive

/-- The results of `httparse::parse_headers`. -/
inductive Parsed where
  | complete (size : Nat) (heads : List (Bytes × Bytes))
  | incomplete
  | error (code : Nat)
  deriving DecidableEq, Repr

structure Crates where
  /-- `httparse::parse_headers`, with the number of headers there is room for. -/
  parseHeaders : Bytes → Nat → Parsed
  /-- `str::parse::<HeaderName>`. -/
  headerName : Bytes → Option HeaderName
  /-- `HeaderValue::from_bytes`. -/
  headerValue : Bytes → Option HeaderValue
  /-- Whether the *brotli* feature is built in. -/
  brotli : Bool
  /-- What an encoder of a level writes on receiving the last of these chunks. -/
  emit : Compression → Nat → List Bytes → Bytes
  /-- What it writes when it is finished, or flushed for the last time. -/
  finish : Compression → Nat → List Bytes → Bytes
  /-- What it writes when it is dropped after that. -/
  close : Compression → Nat → List Bytes → Bytes
  /-- The stream that a decoder, with the given buffer size, makes of a slice of a file. -/
  decoder : Compression → Nat → ReadSlice → Stream
  /-- How many reads of the file the decoder makes for that. -/
  decoderReads : Compression → Nat → ReadSlice → Nat

/-- The line of a header. -/
def headerLine (e : HeaderName × HeaderValue) : Bytes := e.1.bytes ++ ascii ": " ++ e.2.bytes ++ crlf

/-- The lines of a header map. -/
def headerLines (headers : HeaderMap) : Bytes := headers.iter.flatMap headerLine

/-- How many headers a block may have. -/
def maxHeaders : Nat := 128

namespace Crates

variable (cr : Crates)

/-- Whether a compression is built in. -/
def built : Compression → Bool
  | .brotli => cr.brotli
  | _ => true

/-- What an encoder has written after some chunks. -/
def sent (c : Compression) (level : Nat) (chunks : List Bytes) : Bytes :=
  (List.range chunks.length).flatMap fun i => cr.emit c level (chunks.take (i + 1))

/-- All that an encoder writes for some chunks. -/
def encoded (c : Compression) (level : Nat) (chunks : List Bytes) : Bytes :=
  cr.sent c level chunks ++ cr.finish c level chunks ++ cr.close c level chunks

theorem sent_append (c : Compression) (level : Nat) (chunks : List Bytes) (b : Bytes) :
    cr.sent c level (chunks ++ [b]) =
      cr.sent c level chunks ++ cr.emit c level (chunks ++ [b]) := by
  have hkept : (List.range chunks.length).flatMap
      (fun i => cr.emit c level ((chunks ++ [b]).take (i + 1))) = cr.sent c level chunks := by
    rw [sent]
    refine List.flatMap_congr fun i hi => ?_
    rw [List.take_append_of_le_length (by have := List.mem_range.mp hi; omega)]
  have hlast : (chunks ++ [b]).take (chunks.length + 1) = chunks ++ [b] :=
    List.take_of_length_le (by simp)
  rw [sent, List.length_append, List.length_singleton, List.range_succ, List.flatMap_append,
    hkept, List.flatMap_cons, List.flatMap_nil, List.append_nil, hlast]

/-- A block of few enough headers with trimmed values parses to those headers, whole; names and
values parse back from their bytes. -/
structure HeadersLawful : Prop where
  parse_block : ∀ headers : HeaderMap, headers ≠ .empty → headers.len ≤ maxHeaders →
    (∀ e ∈ headers.iter, e.2.Trimmed) →
    cr.parseHeaders (headerLines headers ++ crlf) maxHeaders =
      .complete (headerLines headers ++ crlf).length
        (headers.iter.map fun e => (e.1.bytes, e.2.bytes))
  name_back : ∀ n : HeaderName, cr.headerName n.bytes = some n
  value_back : ∀ v : HeaderValue, cr.headerValue v.bytes = some v

/-- Decoders undo encoders, and report an error at the end of a cut stream. -/
structure CodecLawful : Prop where
  decode : ∀ {c level chunks n rs p}, c ≠ .plain → cr.built c = true →
    Rest rs p (cr.encoded c level chunks) .eof →
    (cr.decoder c n rs).AtRest chunks.flatten .eof
  decode_cut : ∀ {c level chunks n rs p cut}, c ≠ .plain → cr.built c = true →
    cut <+: cr.encoded c level chunks → cut ≠ cr.encoded c level chunks → Rest rs p cut .eof →
    ∃ out e, out <+: chunks.flatten ∧ (cr.decoder c n rs).AtRest out (.failed e)

/-- What the decoders make of bytes: a decoder over a slice of a file gives bytes that depend on those
of the slice alone, and then ends or breaks off with an error. -/
def Decodes (decoded : Compression → Bytes → Bytes × Tail) : Prop :=
  ∀ {c n rs p bs}, c ≠ .plain → cr.built c = true → Rest rs p bs .eof →
    (cr.decoder c n rs).AtRest (decoded c bs).1 (decoded c bs).2

end Crates

end BodyArchive
