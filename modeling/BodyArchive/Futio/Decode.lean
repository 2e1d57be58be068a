import BodyArchive.Body.Exact
import BodyArchive.Futio.Tune
import BodyArchive.Io.Stream
import BodyArchive.Barc.Sample

/-!
# Decoding a response body

`decode_res_body` takes the compression that the headers name off a response body, and marks the
dialog as checked with `Encoding::Identity`. Header parsing (*hyperx*) and decompression (*flate2*
and *brotli*) are a parameter, `Decoders`.

`listed` are the codings that the headers name, outermost first, if the headers can be read. The
code passes over a header that it cannot read and takes off one compression at most;
`marks_identity_iff` says when the body is then what the mark says it is.
-/

namespace BodyArchive

/-- `hyperx::header::Encoding`. -/
inductive HyEncoding where
  | chunked
  | brotli
  | gzip
  | deflate
  | compress
  | identity
  | trailers
  | ext (name : Bytes)
  deriving DecidableEq, Repr

structure Decoders where
  /-- `ContentEncoding::parse_header`. -/
  parseHeader : List HeaderValue → Except Nat (List HyEncoding)
  /-- Whether the *brotli* feature is built in. -/
  brotli : Bool
  /-- What a compression decodes to. -/
  decode : Encoding → Bytes → Option Bytes
  /-- The stream that a decoder, with the given buffer size, makes of a body. -/
  stream : Encoding → Nat → BodyReader → Stream

/-- A decoder gives what the body decodes to, or ends in an error. -/
structure Decoders.Lawful (dec : Decoders) : Prop where
  stream_ok : ∀ {e n br p bs out}, Rest br p bs .eof → dec.decode e bs = some out →
    (dec.stream e n br).AtRest out .eof
  stream_err : ∀ {e n br p bs}, Rest br p bs .eof → dec.decode e bs = none →
    ∃ out err, (dec.stream e n br).AtRest out (.failed err)

def transferEncoding : HeaderName := ⟨ascii "transfer-encoding", by decide +kernel⟩

def contentEncoding : HeaderName := ⟨ascii "content-encoding", by decide +kernel⟩

/-! ## Finding encodings -/

section Find

variable (dec : Decoders)

/-- One value of a header: `res` collects compressions, and the flag whether `chunked` was
found. -/
def pushEncoding (st : List Encoding × Bool) (av : HyEncoding) : List Encoding × Bool :=
  match av with
  | .identity => st
  | .chunked => (st.1, true)
  | .deflate => (st.1 ++ [.deflate], st.2)
  | .gzip => (st.1 ++ [.gzip], st.2)
  | .ext s => if s = ascii "x-gzip" then (st.1 ++ [.gzip], st.2) else st
  | .brotli => (st.1 ++ [.brotli], st.2)
  | .compress => (st.1 ++ [.compress], st.2)
  | .trailers => st

/-- `parse_encodings`: the values in reverse, as they are in order of application. -/
def parseEncodings (raw : List HeaderValue) (res : List Encoding) : List Encoding × Bool :=
  match dec.parseHeader raw with
  | .ok encs => encs.reverse.foldl pushEncoding (res, false)
  | .error _ => (res, false)

/-- `find_encodings`. -/
def findEncodings (headers : HeaderMap) : List Encoding :=
  let (res, chunked) := parseEncodings dec (headers.getAll transferEncoding) []
  let (res, _) := parseEncodings dec (headers.getAll contentEncoding) res
  let res := if 1 < res.length then res.take 1 else res
  if chunked then .chunked :: res else res

/-- `find_chunked`. *hyperx* parses this header as it does the others. -/
def findChunked (headers : HeaderMap) : Bool :=
  match dec.parseHeader (headers.getAll transferEncoding) with
  | .ok encs => encs.any (· = .chunked)
  | .error _ => false

end Find

/-! ## Decompression -/

section Decompress

variable (dec : Decoders) (tune : Tunables)

/-- Read a body through a decoder. The estimate wraps. -/
def readDecoded (body : BodyImage) (compression : Encoding) (bufSize sizeEstimate : Nat) :
    Res FutioError BodyImage :=
  let lenEst := body.len * sizeEstimate % 2 ^ 64
  (Prog.mapErr .body (BodyImage.readFrom tune lenEst)
    (dec.stream compression bufSize body.reader)).1

/-- `decompress`. -/
def decompress (body : BodyImage) (compression : Encoding) : Res FutioError BodyImage :=
  match compression with
  | .gzip => readDecoded dec tune body .gzip 0 tune.sizeEstimateGzip
  | .deflate => readDecoded dec tune body .deflate 0 tune.sizeEstimateDeflate
  | .brotli =>
    if dec.brotli then
      readDecoded dec tune body .brotli tune.bufferSizeRam tune.sizeEstimateBrotli
    else .err (.unsupportedEncoding .brotli)
  | e => .err (.unsupportedEncoding e)

variable {http : HttpTypes}

def Dialog.setResDecoded (d : Dialog http) (decoded : List Encoding) : Dialog http :=
  { d with epi := { d.epi with resDecoded := decoded } }

def Dialog.setResBodyDecoded (d : Dialog http) (body : BodyImage) (decoded : List Encoding) :
    Dialog http :=
  { d with epi := { d.epi with resBody := body, resDecoded := decoded } }

/-- `decode_res_body`. -/
def decodeResBody : Prog (Dialog http) FutioError Bool := do
  let dialog ← Prog.get
  let encodings := findEncodings dec dialog.epi.resHeaders
  let compression := encodings.getLast?.filter (· ≠ .chunked)
  match compression with
  | some comp => do
    let newBody ← Prog.ofRes (decompress dec tune dialog.epi.resBody comp)
    Prog.set (dialog.setResBodyDecoded newBody (encodings ++ [.identity]))
    pure true
  | none => do
    Prog.set (dialog.setResDecoded (encodings ++ [.identity]))
    pure false

end Decompress

/-! ## What the headers list -/

section Listed

variable (dec : Decoders)

/-- Whether a coding changes what a body is: `chunked` is the transport's. -/
def HyEncoding.changes : HyEncoding → Bool
  | .identity => false
  | .chunked => false
  | _ => true

/-- The codings of a header that change a body, outermost first. What a header lists that cannot be
read is not known; one that is absent lists nothing. -/
def codings (raw : List HeaderValue) : Option (List HyEncoding) :=
  match dec.parseHeader raw with
  | .ok encs => some (encs.reverse.filter HyEncoding.changes)
  | .error _ => if raw = [] then some [] else none

/-- The codings of a body, outermost first: a transfer encoding is around a content encoding. -/
def listed (headers : HeaderMap) : Option (List HyEncoding) := do
  let transfer ← codings dec (headers.getAll transferEncoding)
  let content ← codings dec (headers.getAll contentEncoding)
  return transfer ++ content

/-- The compression that a coding is known as. -/
def HyEncoding.known : HyEncoding → Option Encoding
  | .deflate => some .deflate
  | .gzip => some .gzip
  | .ext s => if s = ascii "x-gzip" then some .gzip else none
  | .brotli => some .brotli
  | .compress => some .compress
  | _ => none

/-- The compressions known in a header, outermost first, as far as it can be read. -/
def compressionsOf (raw : List HeaderValue) : List Encoding :=
  ((codings dec raw).getD []).filterMap HyEncoding.known

/-- The compressions known in both headers. -/
def compressions (headers : HeaderMap) : List Encoding :=
  compressionsOf dec (headers.getAll transferEncoding) ++
    compressionsOf dec (headers.getAll contentEncoding)

/-- The compressions that are built in. -/
def Decoders.supports : Encoding → Bool
  | .gzip => true
  | .deflate => true
  | .brotli => dec.brotli
  | _ => false

/-- Remove a coding. -/
def remove (c : HyEncoding) (bs : Bytes) : Option Bytes :=
  c.known.bind fun e => if dec.supports e then dec.decode e bs else none

/-- Remove codings, the first one first. -/
def removeAll : List HyEncoding → Bytes → Option Bytes
  | [], bs => some bs
  | c :: cs, bs => (remove dec c bs).bind (removeAll cs)

/-- A body without any of the codings that the headers list. -/
def withoutCodings (headers : HeaderMap) (bs : Bytes) : Option Bytes :=
  (listed dec headers).bind fun cs => removeAll dec cs bs

variable {dec : Decoders}

theorem remove_eq {c : HyEncoding} {bs out : Bytes} (h : remove dec c bs = some out) :
    ∃ e, c.known = some e ∧ dec.decode e bs = some out := by
  obtain ⟨e, hk, hd⟩ := Option.bind_eq_some_iff.mp h
  split at hd
  · exact ⟨e, hk, hd⟩
  · cases hd

/-- Headers that can be read have the compressions known of what they list. -/
theorem compressions_of_listed {headers : HeaderMap} {cs : List HyEncoding}
    (h : listed dec headers = some cs) : compressions dec headers = cs.filterMap HyEncoding.known := by
  unfold listed at h
  obtain ⟨transfer, ht, h⟩ := Option.bind_eq_some_iff.mp h
  obtain ⟨content, hc, h⟩ := Option.bind_eq_some_iff.mp h
  cases h
  rw [compressions, compressionsOf, compressionsOf, ht, hc, List.filterMap_append]
  rfl

/-- When the first coding is known, it is the outermost known one. -/
theorem head_known {headers : HeaderMap} {c : HyEncoding} {cs : List HyEncoding} {e : Encoding}
    (h : listed dec headers = some (c :: cs)) (hk : c.known = some e) :
    (compressions dec headers).head? = some e := by
  rw [compressions_of_listed h, List.filterMap_cons, hk]
  rfl

/-- What is left without the codings: all of it when none is listed, and else what the rest of the
list leaves of what the first decodes to. -/
theorem withoutCodings_cases {headers : HeaderMap} {bs out : Bytes}
    (h : withoutCodings dec headers bs = some out) :
    listed dec headers = some [] ∧ out = bs ∨
    ∃ c rest e mid, listed dec headers = some (c :: rest) ∧ c.known = some e ∧
      remove dec c bs = some mid ∧ dec.decode e bs = some mid ∧ removeAll dec rest mid = some out := by
  obtain ⟨cs, hl, hall⟩ := Option.bind_eq_some_iff.mp h
  cases cs with
  | nil =>
    cases hall
    exact .inl ⟨hl, rfl⟩
  | cons c rest =>
    obtain ⟨mid, hremove, hrest⟩ := Option.bind_eq_some_iff.mp hall
    obtain ⟨e, hk, hd⟩ := remove_eq hremove
    exact .inr ⟨c, rest, e, mid, hl, hk, hremove, hd, hrest⟩

/-! ## What is found -/

theorem known_ne_chunked {c : HyEncoding} {e : Encoding} (h : c.known = some e) :
    e ≠ .chunked := by
  cases c with
  | ext s =>
    unfold HyEncoding.known at h
    simp only at h
    split at h <;> cases h
    intro h'
    cases h'
  | _ =>
    cases h <;>
      · intro h'
        cases h'

/-- The known ones of some values, whether or not those that change nothing are among them. -/
theorem filterMap_codings (encs : List HyEncoding) :
    (encs.filter HyEncoding.changes).filterMap HyEncoding.known =
      encs.filterMap HyEncoding.known := by
  induction encs with
  | nil => rfl
  | cons c cs ih =>
    cases c <;>
      simp [List.filter_cons, List.filterMap_cons, HyEncoding.known, HyEncoding.changes, ih]

theorem foldl_pushEncoding (encs : List HyEncoding) (st : List Encoding × Bool) :
    (encs.foldl pushEncoding st).1 = st.1 ++ encs.filterMap HyEncoding.known := by
  induction encs generalizing st with
  | nil => exact (List.append_nil _).symm
  | cons c cs ih =>
    rw [List.foldl_cons, ih]
    cases c with
    | ext s =>
      by_cases hs : s = ascii "x-gzip" <;>
        simp [pushEncoding, HyEncoding.known, hs]
    | _ => simp [List.filterMap_cons, pushEncoding, HyEncoding.known]

/-- A header adds the compressions known of it, and none if it cannot be read. -/
theorem parseEncodings_fst (raw : List HeaderValue) (res : List Encoding) :
    (parseEncodings dec raw res).1 = res ++ compressionsOf dec raw := by
  unfold parseEncodings compressionsOf codings
  cases dec.parseHeader raw with
  | error e =>
    dsimp only
    split <;> exact (List.append_nil _).symm
  | ok encs => rw [foldl_pushEncoding, Option.getD_some, filterMap_codings]

theorem foldl_pushEncoding_chunked (encs : List HyEncoding) (st : List Encoding × Bool) :
    (encs.foldl pushEncoding st).2 = (st.2 || encs.any (· = .chunked)) := by
  induction encs generalizing st with
  | nil => exact (Bool.or_false _).symm
  | cons c cs ih =>
    rw [List.foldl_cons, ih, List.any_cons]
    cases c with
    | ext s => by_cases hs : s = ascii "x-gzip" <;> simp [pushEncoding, hs]
    | _ => simp [pushEncoding]

/-- The flag that comes of the transfer encoding is what `find_chunked` finds. -/
theorem parseEncodings_snd (headers : HeaderMap) (res : List Encoding) :
    (parseEncodings dec (headers.getAll transferEncoding) res).2 = findChunked dec headers := by
  unfold parseEncodings findChunked
  cases dec.parseHeader (headers.getAll transferEncoding) with
  | error e => rfl
  | ok encs => rw [foldl_pushEncoding_chunked, Bool.false_or, List.any_reverse]

/-- **What is found** is the outermost known compression, behind `Chunked`. -/
theorem findEncodings_eq (headers : HeaderMap) :
    findEncodings dec headers =
      (if findChunked dec headers then [.chunked] else []) ++
        (compressions dec headers).take 1 := by
  have htake (r : List Encoding) : (if 1 < r.length then r.take 1 else r) = r.take 1 := by
    split
    · rfl
    · rw [List.take_of_length_le (by omega)]
  unfold findEncodings compressions
  simp only [htake, parseEncodings_fst, parseEncodings_snd, List.nil_append]
  split <;> rfl

theorem mem_compressions {headers : HeaderMap} {e : Encoding} (h : e ∈ compressions dec headers) :
    ∃ c : HyEncoding, c.known = some e := by
  rcases List.mem_append.mp h with h | h <;>
    · obtain ⟨c, -, hc⟩ := List.mem_filterMap.mp h
      exact ⟨c, hc⟩

/-- The compression that is removed: the outermost one known. -/
theorem compression_eq (headers : HeaderMap) :
    (findEncodings dec headers).getLast?.filter (· ≠ .chunked) =
      (compressions dec headers).head? := by
  rw [findEncodings_eq]
  cases hks : compressions dec headers with
  | nil =>
    rw [List.take_nil, List.append_nil, List.head?_nil]
    split <;> rfl
  | cons e ks =>
    obtain ⟨c, hc⟩ := mem_compressions (hks ▸ List.mem_cons_self : e ∈ compressions dec headers)
    have hne := known_ne_chunked hc
    rw [List.take_succ_cons, List.take_zero, List.getLast?_append]
    simp [hne]

end Listed

/-! ## What is decompressed -/

/-- The factor that a compression is estimated with. -/
def Tunables.sizeEstimate (tune : Tunables) : Encoding → Nat
  | .gzip => tune.sizeEstimateGzip
  | .deflate => tune.sizeEstimateDeflate
  | .brotli => tune.sizeEstimateBrotli
  | _ => 0

/-- The length that a body of `len` bytes is expected to decode to. The estimate wraps. -/
def Tunables.lenDecoded (tune : Tunables) (e : Encoding) (len : Nat) : Nat :=
  len * tune.sizeEstimate e % 2 ^ 64

/-- The bytes decode within the limits: the compression is built in, and what they decode to can be
taken, by its length and by the length that it is expected to have. -/
def Decodes (dec : Decoders) (tune : Tunables) (e : Encoding) (bs : Bytes) : Prop :=
  dec.supports e = true ∧
    ∃ out, dec.decode e bs = some out ∧ tune.Takes (tune.lenDecoded e bs.length) out.length

/-- Whatever a decoder makes of a body, the buffers for it can be allocated. -/
def Decoders.Allocatable (dec : Decoders) (tune : Tunables) (body : BodyImage) : Prop :=
  ∀ e n out t, (dec.stream e n body.reader).AtRest out t →
    tune.Allocatable (tune.lenDecoded e body.len) out.length

section Decompressed

variable {dec : Decoders} (tune : Tunables) {body : BodyImage} {bs : Bytes}

/-- A compression that is built in is read through its decoder. -/
theorem decompress_cases (dec : Decoders) (body : BodyImage) (e : Encoding) :
    (dec.supports e = true ∧
      ∃ n, decompress dec tune body e = readDecoded dec tune body e n (tune.sizeEstimate e)) ∨
    (dec.supports e = false ∧ decompress dec tune body e = .err (.unsupportedEncoding e)) := by
  cases e with
  | gzip => exact .inl ⟨rfl, 0, rfl⟩
  | deflate => exact .inl ⟨rfl, 0, rfl⟩
  | brotli =>
    by_cases hbuilt : dec.brotli = true
    · exact .inl ⟨hbuilt, tune.bufferSizeRam, by rw [decompress, if_pos hbuilt]; rfl⟩
    · exact .inr ⟨Bool.eq_false_iff.mpr hbuilt, by rw [decompress, if_neg hbuilt]⟩
  | chunked => exact .inr ⟨rfl, rfl⟩
  | compress => exact .inr ⟨rfl, rfl⟩
  | identity => exact .inr ⟨rfl, rfl⟩

/-- `read_from` never panics, so what it returns is what is read. -/
theorem readDecoded_cases (dec : Decoders) (body : BodyImage) (e : Encoding) (n est : Nat) :
    (∃ im r', BodyImage.readFrom tune (body.len * est % 2 ^ 64) (dec.stream e n body.reader) =
      (.ok im, r') ∧ readDecoded dec tune body e n est = .ok im) ∨
    (∃ err, readDecoded dec tune body e n est = .err (.body err)) := by
  rcases hx : BodyImage.readFrom tune (body.len * est % 2 ^ 64) (dec.stream e n body.reader)
    with ⟨im | err | msg, r'⟩
  · exact .inl ⟨im, r', rfl, by rw [readDecoded, Prog.mapErr_of_ok hx]⟩
  · exact .inr ⟨err, by rw [readDecoded, Prog.mapErr_of_err hx]⟩
  · exact absurd hx BodyImage.readFrom_no_panic

theorem readDecoded_ok (hdec : dec.Lawful) (hb : body.Backs bs) {e : Encoding} {n est : Nat}
    {im : BodyImage} (h : readDecoded dec tune body e n est = .ok im) :
    ∃ out, dec.decode e bs = some out ∧ im.Backs out := by
  obtain ⟨p, hrest⟩ := hb.reader_rest
  rcases readDecoded_cases tune dec body e n est with ⟨im', r', hx, him⟩ | ⟨err, herr⟩
  · obtain rfl : im' = im := Res.ok.inj (him.symm.trans h)
    cases hd : dec.decode e bs with
    | some out =>
      have hout : Rest (dec.stream e n body.reader) 0 out .eof := hdec.stream_ok hrest hd
      exact ⟨out, rfl, (BodyImage.readFrom_ok_backs hout (by simp) hx).2⟩
    | none =>
      -- A decoder that fails never comes to its end.
      obtain ⟨out, err, hout⟩ := hdec.stream_err (n := n) hrest hd
      have hfail : Rest (dec.stream e n body.reader) 0 out (.failed err) := hout
      cases (BodyImage.readFrom_ok_backs hfail (by simp) hx).1
  · rw [herr] at h
    cases h

/-- A body is read through a decoder exactly if what it decodes to can be taken. -/
theorem readDecoded_iff (hdec : dec.Lawful) (hb : body.Backs bs) {e : Encoding} {n est : Nat}
    (hroom : ∀ out, dec.decode e bs = some out → body.len * est % 2 ^ 64 ≤ tune.maxBodyRam →
      out.length + 1024 ≤ usizeMax) :
    (∃ im, readDecoded dec tune body e n est = .ok im) ↔
      ∃ out, dec.decode e bs = some out ∧ tune.Takes (body.len * est % 2 ^ 64) out.length := by
  obtain ⟨p, hrest⟩ := hb.reader_rest
  have hends {out : Bytes} (hd : dec.decode e bs = some out) :
      Prog.OkIff (tune.Takes (body.len * est % 2 ^ 64) out.length) (fun im _ => im.Backs out)
        (BodyImage.readFrom tune (body.len * est % 2 ^ 64) (dec.stream e n body.reader)) := by
    have hout : Rest (dec.stream e n body.reader) 0 out .eof := hdec.stream_ok hrest hd
    rcases BodyImage.readFrom_rest tune hout (by simp) (body.len * est % 2 ^ 64) (hroom out hd) with
      ⟨⟨-, htakes⟩, im, r', hr, him, -⟩ | ⟨hnot, err, r', hr⟩
    · exact .inl ⟨htakes, im, r', hr, him⟩
    · exact .inr ⟨fun htakes => hnot ⟨rfl, htakes⟩, err, r', hr⟩
  constructor
  · rintro ⟨im, him⟩
    obtain ⟨out, hd, -⟩ := readDecoded_ok tune hdec hb him
    rcases hends hd with ⟨htakes, -⟩ | ⟨-, err, r', hr⟩
    · exact ⟨out, hd, htakes⟩
    · rw [readDecoded, Prog.mapErr_of_err hr] at him
      cases him
  · rintro ⟨out, hd, htakes⟩
    obtain ⟨im, r', hr, -⟩ := (hends hd).ok htakes
    exact ⟨im, by rw [readDecoded, Prog.mapErr_of_ok hr]⟩

/-- **A body that was decompressed** is what its compression decodes to. -/
theorem decompress_ok (hdec : dec.Lawful) (hb : body.Backs bs) {e : Encoding} {im : BodyImage}
    (h : decompress dec tune body e = .ok im) :
    dec.supports e = true ∧ ∃ out, dec.decode e bs = some out ∧ im.Backs out := by
  rcases decompress_cases tune dec body e with ⟨hs, n, hread⟩ | ⟨-, herr⟩
  · exact ⟨hs, readDecoded_ok tune hdec hb (hread.symm.trans h)⟩
  · rw [herr] at h
    cases h

theorem decompress_no_panic {e : Encoding} {msg : String} :
    decompress dec tune body e ≠ .panic msg := by
  intro h
  rcases decompress_cases tune dec body e with ⟨-, n, hread⟩ | ⟨-, herr⟩
  · rcases readDecoded_cases tune dec body e n (tune.sizeEstimate e) with
      ⟨im, _, _, him⟩ | ⟨err, herr⟩
    · cases (hread.trans him).symm.trans h
    · cases (hread.trans herr).symm.trans h
  · cases herr.symm.trans h

/-- **A body is decompressed** exactly if its bytes decode within the limits. -/
theorem decompress_iff (hdec : dec.Lawful) (hb : body.Backs bs) {e : Encoding}
    (hroom : ∀ out, dec.decode e bs = some out → tune.lenDecoded e bs.length ≤ tune.maxBodyRam →
      out.length + 1024 ≤ usizeMax) :
    (∃ im, decompress dec tune body e = .ok im) ↔ Decodes dec tune e bs := by
  unfold Decodes
  rcases decompress_cases tune dec body e with ⟨hs, n, hread⟩ | ⟨hs, herr⟩
  · have hlen : body.len = bs.length := hb.1
    have hiff := @readDecoded_iff dec tune body bs hdec hb e n (tune.sizeEstimate e)
      (by rw [hlen]; exact hroom)
    rw [hlen] at hiff
    rw [hread, hiff, hs]
    exact ⟨fun h => ⟨rfl, h⟩, fun h => h.2⟩
  · constructor
    · rintro ⟨im, him⟩
      rw [herr] at him
      cases him
    · rintro ⟨hs', -⟩
      rw [hs] at hs'
      cases hs'

/-- Bytes that decode can be put into a buffer if the buffers for them can be allocated. -/
theorem Decoders.Allocatable.room (hdec : dec.Lawful) (hb : body.Backs bs)
    (h : dec.Allocatable tune body) {e : Encoding} {out : Bytes} (hd : dec.decode e bs = some out)
    (hram : tune.lenDecoded e bs.length ≤ tune.maxBodyRam) : out.length + 1024 ≤ usizeMax := by
  obtain ⟨p, hrest⟩ := hb.reader_rest
  have halloc := h e 0 out .eof (hdec.stream_ok hrest hd)
  rw [show body.len = bs.length from hb.1] at halloc
  have := (halloc.ram hram).2
  have : usizeMax = 2 ^ 64 - 1 := rfl
  have : isizeMax = 2 ^ 63 - 1 := rfl
  omega

end Decompressed

/-! ## The mark -/

section Mark

variable {dec : Decoders} {http : HttpTypes} (tune : Tunables)

/-! The three ways `decode_res_body` goes. -/

theorem decodeResBody_none {dialog : Dialog http}
    (h : (compressions dec dialog.epi.resHeaders).head? = none) :
    decodeResBody dec tune dialog =
      (.ok false,
        dialog.setResDecoded (findEncodings dec dialog.epi.resHeaders ++ [.identity])) := by
  rw [← compression_eq] at h
  unfold decodeResBody
  rw [Prog.get_bind]
  simp only [h]
  rfl

theorem decodeResBody_ok {dialog : Dialog http} {e : Encoding} {im : BodyImage}
    (h : (compressions dec dialog.epi.resHeaders).head? = some e)
    (him : decompress dec tune dialog.epi.resBody e = .ok im) :
    decodeResBody dec tune dialog =
      (.ok true, dialog.setResBodyDecoded im
        (findEncodings dec dialog.epi.resHeaders ++ [.identity])) := by
  rw [← compression_eq] at h
  unfold decodeResBody
  rw [Prog.get_bind]
  simp only [h, him]
  rfl

theorem decodeResBody_err {dialog : Dialog http} {e : Encoding} {err : FutioError}
    (h : (compressions dec dialog.epi.resHeaders).head? = some e)
    (herr : decompress dec tune dialog.epi.resBody e = .err err) :
    decodeResBody dec tune dialog = (.err err, dialog) := by
  rw [← compression_eq] at h
  unfold decodeResBody
  rw [Prog.get_bind]
  simp only [h, herr]
  rfl

/-- What `decode_res_body` promises of a dialog: when it is marked as identity, all that was
listed has been removed from the body; and what cannot be removed, or cannot even be read, is an
error that leaves the dialog as it was. -/
def MarksIdentity (dec : Decoders) (dialog : Dialog http) (bs : Bytes) : Prop :=
  ∀ x dialog', decodeResBody dec tune dialog = (x, dialog') →
    (∀ b, x = .ok b → dialog'.epi.resDecoded.getLast? = some .identity ∧
      ∃ out, withoutCodings dec dialog.epi.resHeaders bs = some out ∧
        dialog'.epi.resBody.Backs out) ∧
    (withoutCodings dec dialog.epi.resHeaders bs = none →
      (∃ e, x = .err e) ∧ dialog' = dialog)

/-- After a result, the promise comes to what is in the body then. -/
theorem marksIdentity_of_ok {dialog dialog' : Dialog http} {b : Bool} {bs out : Bytes}
    (hrun : decodeResBody dec tune dialog = (.ok b, dialog'))
    (hmark : dialog'.epi.resDecoded.getLast? = some .identity)
    (hout : dialog'.epi.resBody.Backs out) :
    MarksIdentity tune dec dialog bs ↔
      withoutCodings dec dialog.epi.resHeaders bs = some out := by
  constructor
  · intro h
    obtain ⟨-, out', hall, hout'⟩ := (h _ _ hrun).1 b rfl
    rwa [hout'.unique hout] at hall
  · intro hall x d hx
    rw [hrun] at hx
    cases hx
    refine ⟨fun _ _ => ⟨hmark, out, hall, hout⟩, fun hnone => ?_⟩
    rw [hall] at hnone
    cases hnone

/-- An error that leaves the dialog as it was breaks no promise. -/
theorem marksIdentity_of_err {dialog : Dialog http} {err : FutioError} {bs : Bytes}
    (hrun : decodeResBody dec tune dialog = (.err err, dialog)) :
    MarksIdentity tune dec dialog bs := by
  intro x dialog' hx
  rw [hrun] at hx
  cases hx
  exact ⟨fun b h => (by cases h), fun _ => ⟨⟨err, rfl⟩, rfl⟩⟩

/-- **The mark is right** exactly when the headers can be read and list nothing; or the outermost
compression known in them does not decode within the limits; or the headers can be read, that is what
they list first, and removing the rest of the list leaves its result as it is, as it does when there
is no rest. -/
theorem marks_identity_iff (hdec : dec.Lawful) (dialog : Dialog http) {bs : Bytes}
    (hb : dialog.epi.resBody.Backs bs) (halloc : dec.Allocatable tune dialog.epi.resBody) :
    MarksIdentity tune dec dialog bs ↔
      listed dec dialog.epi.resHeaders = some [] ∨
      (∃ e, (compressions dec dialog.epi.resHeaders).head? = some e ∧ ¬ Decodes dec tune e bs) ∨
      (∃ c rest out, listed dec dialog.epi.resHeaders = some (c :: rest) ∧
        remove dec c bs = some out ∧ removeAll dec rest out = some out) := by
  have hiff (e : Encoding) := @decompress_iff dec tune _ bs hdec hb e fun _ => halloc.room tune hdec hb
  cases hhead : (compressions dec dialog.epi.resHeaders).head? with
  | none =>
    -- Nothing known is listed, and the body stays as it is.
    rw [marksIdentity_of_ok tune (decodeResBody_none tune hhead) List.getLast?_concat hb]
    constructor
    · intro hall
      rcases withoutCodings_cases hall with ⟨hl, -⟩ | ⟨c, rest, e, mid, hl, hk, -⟩
      · exact .inl hl
      · cases hhead.symm.trans (head_known hl hk)
    · rintro (hl | ⟨e, he, -⟩ | ⟨c, rest, out, hl, hremove, -⟩)
      · rw [withoutCodings, hl]
        rfl
      · cases he
      · obtain ⟨e, hk, -⟩ := remove_eq hremove
        cases hhead.symm.trans (head_known hl hk)
  | some e =>
    rcases hdecomp : decompress dec tune dialog.epi.resBody e with im | err | msg
    · obtain ⟨-, out, hdecode, him⟩ := decompress_ok tune hdec hb hdecomp
      rw [marksIdentity_of_ok tune (decodeResBody_ok tune hhead hdecomp) List.getLast?_concat him]
      constructor
      · intro hall
        rcases withoutCodings_cases hall with ⟨hl, -⟩ | ⟨c, rest, e', mid, hl, hk, hremove, hd, hrest⟩
        · rw [compressions_of_listed hl] at hhead
          cases hhead
        · cases hhead.symm.trans (head_known hl hk)
          cases hdecode.symm.trans hd
          exact .inr (.inr ⟨c, rest, out, hl, hremove, hrest⟩)
      · rintro (hl | ⟨e', he', hnot⟩ | ⟨c, rest, out', hl, hremove, hrest⟩)
        · rw [compressions_of_listed hl] at hhead
          cases hhead
        · cases he'
          exact absurd ((hiff e).mp ⟨im, hdecomp⟩) hnot
        · obtain ⟨e', hk, hd⟩ := remove_eq hremove
          cases hhead.symm.trans (head_known hl hk)
          cases hdecode.symm.trans hd
          rw [withoutCodings, hl, Option.bind_some, removeAll, hremove]
          exact hrest
    · refine ⟨fun _ => .inr (.inl ⟨e, rfl, fun hdecodes => ?_⟩),
        fun _ => marksIdentity_of_err tune (decodeResBody_err tune hhead hdecomp)⟩
      obtain ⟨im, him⟩ := (hiff e).mpr hdecodes
      cases hdecomp.symm.trans him
    · exact absurd hdecomp (decompress_no_panic tune)

end Mark

/-! ## Two responses -/

namespace Sample

/-- The name of a coding. -/
def encodingNamed (name : Bytes) : HyEncoding :=
  if name = ascii "chunked" then .chunked
  else if name = ascii "br" then .brotli
  else if name = ascii "gzip" then .gzip
  else if name = ascii "deflate" then .deflate
  else if name = ascii "compress" then .compress
  else if name = ascii "identity" then .identity
  else if name = ascii "trailers" then .trailers
  else .ext name

/-- The names in a list of header values, each a list with commas. -/
def parseEncodingHeader (values : List HeaderValue) : List HyEncoding :=
  let names := values.flatMap fun v => (v.bytes.splitOn 44).map fun name =>
    ((name.dropWhile isBlank).reverse.dropWhile isBlank).reverse
  (names.filter (· ≠ [])).map encodingNamed

/-- Decoders that find every body cut. -/
def decoders : Decoders where
  parseHeader values := .ok (parseEncodingHeader values)
  brotli := true
  decode _ _ := none
  stream _ _ _ := ⟨[], some .unexpectedEof, []⟩

theorem decoders_lawful : decoders.Lawful where
  stream_ok := by
    intro e n br p bs out _ h
    cases h
  stream_err := by
    intro e n br p bs _ _
    exact ⟨[], .unexpectedEof, rfl, rfl, by simp, by simp [decoders]⟩

/-- A compression that puts one byte in front. -/
def strip : Bytes → Option Bytes
  | [] => none
  | _ :: bs => some bs

/-- What a decoder makes of all the bytes of a body. -/
def stripStream : Res IoError Bytes → Stream
  | .ok bs =>
    match strip bs with
    | some out => ⟨out, none, []⟩
    | none => ⟨[], some .unexpectedEof, []⟩
  | _ => ⟨[], some .unexpectedEof, []⟩

/-- Decoders of this compression, under all of its names. A header with a byte that is not ASCII is
not read. -/
def stripDecoders : Decoders where
  parseHeader values :=
    if values.all fun v => v.bytes.all (· < 128) then .ok (parseEncodingHeader values) else .error 0
  brotli := true
  decode _ := strip
  stream _ _ br := stripStream (readToEnd 64 br).1

theorem stripDecoders_lawful : stripDecoders.Lawful where
  stream_ok := by
    intro e n br p bs out h hd
    obtain ⟨br', hr⟩ := readToEnd_eof (n := 64) (by decide) h
    have hd' : strip bs = some out := hd
    show (stripStream (readToEnd 64 br).1).AtRest out .eof
    rw [hr, stripStream, hd']
    exact ⟨rfl, rfl, by decide, by simp⟩
  stream_err := by
    intro e n br p bs h hd
    obtain ⟨br', hr⟩ := readToEnd_eof (n := 64) (by decide) h
    have hd' : strip bs = none := hd
    refine ⟨[], .unexpectedEof, ?_⟩
    show (stripStream (readToEnd 64 br).1).AtRest [] (.failed .unexpectedEof)
    rw [hr, stripStream, hd']
    exact ⟨rfl, rfl, by decide, by simp⟩

/-- A response with a content encoding. -/
def encodedDialog (encoding : HeaderValue) (body : Bytes) : Dialog sampleHttp :=
  let d := dialog .http11 []
  { d with epi := { d.epi with
      resHeaders := .ofList [(contentEncoding, encoding)], resBody := .fromSlice body } }

def zstd : HeaderValue := ⟨ascii "zstd", by decide +kernel⟩

def gzip : HeaderValue := ⟨ascii "gzip", by decide +kernel⟩

/-- A value that is not UTF-8. -/
def unreadable : HeaderValue := ⟨[255], by decide +kernel⟩

end Sample

/-- A response body of an unknown coding is left as it is, and marked. -/
theorem zstd_marked :
    decodeResBody Sample.decoders (.new Tunables.calmDir)
        (Sample.encodedDialog Sample.zstd [40, 181, 47, 253]) =
      (.ok false,
        (Sample.encodedDialog Sample.zstd [40, 181, 47, 253]).setResDecoded [.identity]) ∧
    ¬ MarksIdentity (.new Tunables.calmDir) Sample.decoders
      (Sample.encodedDialog Sample.zstd [40, 181, 47, 253]) [40, 181, 47, 253] := by
  have hlisted : listed Sample.decoders
      (Sample.encodedDialog Sample.zstd [40, 181, 47, 253]).epi.resHeaders =
        some [.ext (ascii "zstd")] := by decide +kernel
  have hfind : findEncodings Sample.decoders
      (Sample.encodedDialog Sample.zstd [40, 181, 47, 253]).epi.resHeaders = [] := by
    decide +kernel
  have hrun := decodeResBody_none (.new Tunables.calmDir)
    (show (compressions Sample.decoders (Sample.encodedDialog Sample.zstd
      [40, 181, 47, 253]).epi.resHeaders).head? = none by
        rw [compressions_of_listed hlisted]
        decide +kernel)
  rw [hfind] at hrun
  refine ⟨hrun, fun h => ?_⟩
  obtain ⟨-, out, hout, -⟩ := (h _ _ hrun).1 false rfl
  rw [withoutCodings, hlisted] at hout
  cases hout

/-- So is a body with a header that cannot be read. -/
example : listed Sample.stripDecoders
      (Sample.encodedDialog Sample.unreadable [1, 2, 3]).epi.resHeaders = none ∧
    (decodeResBody Sample.stripDecoders (.new Tunables.calmDir)
      (Sample.encodedDialog Sample.unreadable [1, 2, 3])).1 = .ok false := by
  decide +kernel

/-- A response body of a known coding is decoded, and rightly marked. -/
theorem gzip_marked :
    MarksIdentity (.new Tunables.calmDir) Sample.stripDecoders
      (Sample.encodedDialog Sample.gzip [1, 2, 3]) [1, 2, 3] ∧
    (decodeResBody Sample.stripDecoders (.new Tunables.calmDir)
      (Sample.encodedDialog Sample.gzip [1, 2, 3])).1 = .ok true ∧
    (decodeResBody Sample.stripDecoders (.new Tunables.calmDir)
      (Sample.encodedDialog Sample.gzip [1, 2, 3])).2.epi.resBody = .fromSlice [2, 3] := by
  have hbody : (Sample.encodedDialog Sample.gzip [1, 2, 3]).epi.resBody.Backs [1, 2, 3] :=
    BodyImage.fromSlice_backs [1, 2, 3]
  have hlisted : listed Sample.stripDecoders
      (Sample.encodedDialog Sample.gzip [1, 2, 3]).epi.resHeaders = some [.gzip] := by
    decide +kernel
  have halloc : Sample.stripDecoders.Allocatable (.new Tunables.calmDir)
      (Sample.encodedDialog Sample.gzip [1, 2, 3]).epi.resBody := by
    rintro e n out t ⟨hbytes, -⟩
    have hlength : out.length = 2 := by
      rw [← hbytes]
      exact (by decide +kernel : (Sample.stripStream (readToEnd 64
        (Sample.encodedDialog Sample.gzip [1, 2, 3]).epi.resBody.reader).1).bytes.length = 2)
    exact ⟨by decide, fun _ => ⟨by decide, by rw [hlength]; decide⟩⟩
  refine ⟨(marks_identity_iff _ Sample.stripDecoders_lawful _ hbody halloc).mpr
    (.inr (.inr ⟨.gzip, [], [2, 3], hlisted, rfl, rfl⟩)), ?_, ?_⟩
  · decide +kernel
  · decide +kernel

end BodyArchive
