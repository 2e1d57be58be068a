import Mathlib
import BodyArchive.Http.Dialog
import BodyArchive.Barc.Record

/-!
# Crates to evaluate with

A header parser for the blocks an archive holds, and a codec that writes every byte behind a mark
and a mark at the end. They are `HeadersLawful` and `CodecLawful`, so what is proved of lawful
crates can be run.
-/

namespace BodyArchive

namespace Sample

/-! ## Headers -/

/-- A byte of a header name, in either case. -/
def isToken (b : UInt8) : Bool := isNameByte b || (65 ≤ b && b ≤ 90)

def lower (b : UInt8) : UInt8 := if 65 ≤ b && b ≤ 90 then b + 32 else b

def headerName (bs : Bytes) : Option HeaderName :=
  let name := bs.map lower
  if h : name ≠ [] ∧ name.length ≤ maxHeaderName ∧ ∀ b ∈ name, isNameByte b then some ⟨name, h⟩
  else none

def headerValue (bs : Bytes) : Option HeaderValue :=
  if h : ∀ b ∈ bs, isValueByte b then some ⟨bs, h⟩ else none

theorem lower_name {b : UInt8} (h : isNameByte b = true) : lower b = b := by
  have hall : ∀ n : Fin 256, isNameByte (UInt8.ofNat n) = true →
      lower (UInt8.ofNat n) = UInt8.ofNat n := by decide +kernel
  have := hall ⟨b.toNat, b.toNat_lt⟩
  simp only [UInt8.ofNat_toNat] at this
  exact this h

/-- Blanks around a value are no part of it. -/
def trim (bs : Bytes) : Bytes := ((bs.dropWhile isBlank).reverse.dropWhile isBlank).reverse

/-- Header lines up to an empty one, with room for some more headers. The error codes are those
of `httparse`'s enumeration. -/
def parseLines : Nat → Nat → List (Bytes × Bytes) → Bytes → Parsed
  | slots, size, heads, buf =>
    if buf.take 2 = crlf then .complete (size + 2) heads
    else match slots with
    | 0 => .error 5
    | slots + 1 =>
      let name := buf.takeWhile isToken
      match buf.drop name.length with
      | [] => .incomplete
      | sep :: rest =>
        if sep ≠ 58 ∨ name = [] then .error 0
        else
          let value := rest.takeWhile isValueByte
          let left := rest.drop value.length
          if left.length < 2 then .incomplete
          else if left.take 2 ≠ crlf then .error 1
          else parseLines slots (size + name.length + 1 + value.length + 2)
            (heads ++ [(name, trim value)]) (left.drop 2)

def parseHeaders (buf : Bytes) (slots : Nat) : Parsed := parseLines slots 0 [] buf

theorem takeWhile_stop {p : UInt8 → Bool} {a z : Bytes} {b : UInt8} (ha : ∀ x ∈ a, p x)
    (hb : p b = false) : (a ++ b :: z).takeWhile p = a := by
  rw [List.takeWhile_append_of_pos ha, List.takeWhile_cons_of_neg (by simp [hb]), List.append_nil]

theorem trim_trimmed {v : HeaderValue} (h : v.Trimmed) : trim v.bytes = v.bytes := by
  have stays : ∀ bs : Bytes, (∀ b, bs.head? = some b → isBlank b = false) →
      bs.dropWhile isBlank = bs := by
    intro bs hbs
    cases bs with
    | nil => rfl
    | cons b bs => rw [List.dropWhile_cons_of_neg (by simp [hbs b rfl])]
  rw [trim, stays _ h.1, stays _ (by simpa using h.2), List.reverse_reverse]

theorem trim_blank (bs : Bytes) : trim (32 :: bs) = trim bs := by
  rw [trim, trim, List.dropWhile_cons_of_pos (by decide)]

theorem name_ne_cr {n : HeaderName} (z : Bytes) : (n.bytes ++ z).take 2 ≠ crlf := by
  obtain ⟨bs, hne, -, hall⟩ := n
  cases bs with
  | nil => exact absurd rfl hne
  | cons b bs =>
    intro h
    have hb : b = 13 := by
      have hhead := congrArg List.head? h
      simpa [crlf] using hhead
    have := hall b (by simp)
    rw [hb] at this
    revert this
    decide

/-- One line of a block. -/
theorem parseLines_line (e : HeaderName × HeaderValue) (slots size : Nat)
    (heads : List (Bytes × Bytes)) (z : Bytes) :
    parseLines (slots + 1) size heads (headerLine e ++ z) =
      parseLines slots (size + (headerLine e).length) (heads ++ [(e.1.bytes, trim e.2.bytes)]) z := by
  obtain ⟨n, v⟩ := e
  have hline : headerLine (n, v) ++ z = n.bytes ++ 58 :: ((32 :: v.bytes) ++ 13 :: 10 :: z) := by
    have hsep : ascii ": " = [58, 32] := rfl
    simp [headerLine, hsep, crlf]
  have hname : (n.bytes ++ 58 :: ((32 :: v.bytes) ++ 13 :: 10 :: z)).takeWhile isToken = n.bytes :=
    takeWhile_stop (fun b hb => by simp [isToken, n.valid.2.2 b hb]) (by decide)
  have hvalue : ((32 :: v.bytes) ++ 13 :: 10 :: z).takeWhile isValueByte = 32 :: v.bytes := by
    refine takeWhile_stop (fun b hb => ?_) (by decide)
    rcases List.mem_cons.mp hb with rfl | hb
    · decide
    · exact v.valid b hb
  have hlen : (headerLine (n, v)).length = n.bytes.length + 1 + (32 :: v.bytes).length + 2 := by
    have hsep : (ascii ": ").length = 2 := rfl
    simp only [headerLine, List.length_append, List.length_cons, crlf_length, hsep]
    omega
  rw [hline, parseLines, if_neg (name_ne_cr _)]
  simp only [hname, List.drop_left]
  rw [if_neg (by simp [n.valid.1])]
  simp only [hvalue, List.drop_left]
  rw [if_neg (by simp), if_neg (by simp [crlf]), trim_blank, hlen]
  simp only [List.drop_succ_cons, List.drop_zero]
  congr 1
  omega

theorem parseLines_block (es : List (HeaderName × HeaderValue)) {slots : Nat}
    (hslots : es.length ≤ slots) (size : Nat) (heads : List (Bytes × Bytes)) :
    parseLines slots size heads (es.flatMap headerLine ++ crlf) =
      .complete (size + (es.flatMap headerLine ++ crlf).length)
        (heads ++ es.map fun e => (e.1.bytes, trim e.2.bytes)) := by
  induction es generalizing slots size heads with
  | nil =>
    cases slots <;> simp [parseLines, crlf]
  | cons e es ih =>
    obtain ⟨slots, rfl⟩ : ∃ k, slots = k + 1 := ⟨slots - 1, by simp at hslots; omega⟩
    rw [List.flatMap_cons, List.append_assoc, parseLines_line e, ih (by simpa using hslots)]
    simp only [List.length_append, List.map_cons, List.append_assoc, List.singleton_append,
      Nat.add_assoc]

/-- More lines than there is room for. -/
theorem parseLines_full (es : List (HeaderName × HeaderValue)) {slots : Nat}
    (hslots : slots < es.length) (size : Nat) (heads : List (Bytes × Bytes)) (z : Bytes) :
    parseLines slots size heads (es.flatMap headerLine ++ z) = .error 5 := by
  induction es generalizing slots size heads with
  | nil => cases hslots
  | cons e es ih =>
    rw [List.flatMap_cons, List.append_assoc]
    cases slots with
    | zero =>
      rw [parseLines, if_neg]
      rw [headerLine, List.append_assoc, List.append_assoc, List.append_assoc]
      exact name_ne_cr _
    | succ slots =>
      rw [parseLines_line e]
      exact ih (by simpa using hslots) _ _

/-! ## Compression -/

/-- Every byte behind a mark. -/
def marked (bs : Bytes) : Bytes := bs.flatMap fun b => [1, b]

/-- The bytes behind the marks, and whether the end was there. -/
def unmark : Bytes → Bytes × Bool
  | [0] => ([], true)
  | 1 :: b :: rest => (b :: (unmark rest).1, (unmark rest).2)
  | _ => ([], false)

def decoder (_ : Compression) (_ : Nat) (rs : ReadSlice) : Stream :=
  match (readToEnd copySize rs).1 with
  | .ok bs => ⟨(unmark bs).1, if (unmark bs).2 then none else some .unexpectedEof, []⟩
  | .err e => ⟨[], some e, []⟩
  | .panic _ => ⟨[], some .invalidData, []⟩
where copySize : Nat := 8192

def decoderReads (_ : Compression) (_ : Nat) (rs : ReadSlice) : Nat :=
  rs.file.env.length - (readToEnd decoder.copySize rs).2.file.env.length

theorem unmark_marked (bs : Bytes) : unmark (marked bs ++ [0]) = (bs, true) := by
  induction bs with
  | nil => rfl
  | cons b bs ih =>
    show unmark (1 :: b :: (marked bs ++ [0])) = _
    rw [unmark, ih]

/-- A cut marked text has some of the bytes, and no end. -/
theorem unmark_cut {bs cut : Bytes} (h : cut <+: marked bs ++ [0]) (hne : cut ≠ marked bs ++ [0]) :
    ∃ out, out <+: bs ∧ unmark cut = (out, false) := by
  induction bs generalizing cut with
  | nil =>
    match cut with
    | [] => exact ⟨[], List.prefix_rfl, rfl⟩
    | [x] =>
      obtain rfl : x = 0 := by
        obtain ⟨z, hz⟩ := h
        have := congrArg List.head? hz
        simpa [marked] using this
      exact absurd rfl hne
    | x :: y :: rest =>
      have := h.length_le
      simp [marked] at this
  | cons b bs ih =>
    have hcons : marked (b :: bs) ++ [0] = 1 :: b :: (marked bs ++ [0]) := rfl
    rw [hcons] at h hne
    match cut with
    | [] => exact ⟨[], List.nil_prefix, rfl⟩
    | [x] =>
      obtain rfl : x = 1 := (List.cons_prefix_cons.mp h).1
      exact ⟨[], List.nil_prefix, rfl⟩
    | x :: y :: rest =>
      obtain ⟨rfl, h'⟩ := List.cons_prefix_cons.mp h
      obtain ⟨rfl, h''⟩ := List.cons_prefix_cons.mp h'
      obtain ⟨out, hout, hun⟩ := ih h'' (fun heq => hne (by rw [heq]))
      refine ⟨y :: out, List.cons_prefix_cons.mpr ⟨rfl, hout⟩, ?_⟩
      rw [unmark, hun]

end Sample

/-- The sample crates. -/
def sampleCrates : Crates where
  parseHeaders := Sample.parseHeaders
  headerName := Sample.headerName
  headerValue := Sample.headerValue
  brotli := true
  emit _ _ chunks := Sample.marked (chunks.getLast?.getD [])
  finish _ _ _ := [0]
  close _ _ _ := []
  decoder := Sample.decoder
  decoderReads := Sample.decoderReads

theorem sampleCrates_headersLawful : sampleCrates.HeadersLawful where
  parse_block headers _ hlen htrim := by
    have hblock := Sample.parseLines_block headers.iter hlen 0 []
    have hvalues : headers.iter.map (fun e => (e.1.bytes, Sample.trim e.2.bytes)) =
        headers.iter.map fun e => (e.1.bytes, e.2.bytes) :=
      List.map_congr_left fun e he => by rw [Sample.trim_trimmed (htrim e he)]
    rw [hvalues] at hblock
    simpa [sampleCrates, Sample.parseHeaders, headerLines] using hblock
  name_back n := by
    have hlower : n.bytes.map Sample.lower = n.bytes :=
      (List.map_congr_left fun b hb => Sample.lower_name (n.valid.2.2 b hb)).trans
        (List.map_id n.bytes)
    show Sample.headerName n.bytes = some n
    rw [Sample.headerName]
    simp only [hlower]
    exact dif_pos n.valid
  value_back v := dif_pos v.valid

theorem sampleCrates_encoded (c : Compression) (level : Nat) (chunks : List Bytes) :
    sampleCrates.encoded c level chunks = Sample.marked chunks.flatten ++ [0] := by
  have hsent : sampleCrates.sent c level chunks = Sample.marked chunks.flatten := by
    induction chunks using List.reverseRecOn with
    | nil => rfl
    | append_singleton chunks b ih =>
      rw [sampleCrates.sent_append, ih]
      simp [sampleCrates, Sample.marked]
  rw [Crates.encoded, hsent]
  exact List.append_nil _

/-- A decoder over a slice that ends. -/
theorem Sample.decoder_eof {rs : ReadSlice} {p : Nat} {bs : Bytes} (h : Rest rs p bs .eof)
    (c : Compression) (n : Nat) :
    Sample.decoder c n rs =
      ⟨(unmark bs).1, if (unmark bs).2 then none else some .unexpectedEof, []⟩ := by
  obtain ⟨rs', hr⟩ := readToEnd_eof (n := decoder.copySize) (by decide) h
  rw [decoder, hr]

theorem sampleCrates_codecLawful : sampleCrates.CodecLawful where
  decode := by
    intro c level chunks n rs p _ _ h
    rw [sampleCrates_encoded] at h
    show Stream.AtRest (Sample.decoder c n rs) _ _
    rw [Sample.decoder_eof h, Sample.unmark_marked]
    exact ⟨rfl, rfl, by simp, by simp⟩
  decode_cut := by
    intro c level chunks n rs p cut _ _ hcut hne h
    rw [sampleCrates_encoded] at hcut hne
    obtain ⟨out, hout, hun⟩ := Sample.unmark_cut hcut hne
    refine ⟨out, .unexpectedEof, hout, ?_⟩
    show Stream.AtRest (Sample.decoder c n rs) _ _
    rw [Sample.decoder_eof h, hun]
    exact ⟨rfl, rfl, by simp, by simp⟩

/-- What the sample decoder makes of any bytes. -/
def Sample.decoded (_ : Compression) (bs : Bytes) : Bytes × Tail :=
  ((unmark bs).1, if (unmark bs).2 then .eof else .failed .unexpectedEof)

theorem sampleCrates_decodes : sampleCrates.Decodes Sample.decoded := by
  intro c n rs p bs _ _ h
  show Stream.AtRest (Sample.decoder c n rs) _ _
  rw [Sample.decoder_eof h, Sample.decoded]
  cases (Sample.unmark bs).2
  · exact ⟨rfl, rfl, by simp, by simp⟩
  · exact ⟨rfl, rfl, by simp, by simp⟩

/-! ## The types of HTTP -/

namespace Sample

/-- A byte of a URL: anything visible in ASCII. -/
def isUrlByte (b : UInt8) : Bool := 33 ≤ b && b ≤ 126

/-- A byte of a string that is a header value. -/
def isStrByte (b : UInt8) : Bool := b == 9 || (32 ≤ b && b ≤ 126)

/-- Texts of one kind of bytes. -/
def Text (p : UInt8 → Bool) : Type := { bs : Bytes // bs ≠ [] ∧ ∀ b ∈ bs, p b }

def Text.parse (p : UInt8 → Bool) (bs : Bytes) : Except Nat (Text p) :=
  if h : bs ≠ [] ∧ ∀ b ∈ bs, p b then .ok ⟨bs, h⟩ else .error 0

/-- Numbers of three digits. -/
def Status : Type := { n : Nat // 100 ≤ n ∧ n < 1000 }

def Status.text (s : Status) : Bytes :=
  [UInt8.ofNat (48 + s.val / 100), UInt8.ofNat (48 + s.val / 10 % 10),
    UInt8.ofNat (48 + s.val % 10)] ++ ascii (if s.val = 200 then " OK" else " <unknown status code>")

def Status.parse : Bytes → Except Nat Status
  | [a, b, c] =>
    if h : (49 ≤ a.toNat ∧ a.toNat ≤ 57) ∧ (48 ≤ b.toNat ∧ b.toNat ≤ 57) ∧
        (48 ≤ c.toNat ∧ c.toNat ≤ 57) then
      .ok ⟨(a.toNat - 48) * 100 + (b.toNat - 48) * 10 + (c.toNat - 48), by omega⟩
    else .error 0
  | _ => .error 0

theorem Status.parse_text (s : Status) : Status.parse (s.text.take 3) = .ok s := by
  obtain ⟨n, hlow, hhigh⟩ := s
  have digit (k : Nat) (hk : k < 10) : (UInt8.ofNat (48 + k)).toNat = 48 + k := by
    rw [UInt8.toNat_ofNat']
    exact Nat.mod_eq_of_lt (by omega)
  have ha := digit (n / 100) (by omega)
  have hb := digit (n / 10 % 10) (by omega)
  have hc := digit (n % 10) (by omega)
  simp only [Status.text, List.take_append_of_le_length, List.length_cons, List.length_nil,
    List.take_succ_cons, List.take_zero, Nat.reduceAdd, Nat.le_refl]
  rw [Status.parse, dif_pos (by omega)]
  congr 2
  rw [ha, hb, hc]
  omega

end Sample

def sampleHttp : HttpTypes where
  Uri := Sample.Text Sample.isUrlByte
  Method := Sample.Text Sample.isToken
  StatusCode := Sample.Status
  uriText u := u.val
  methodText m := m.val
  statusText := Sample.Status.text
  uri := Sample.Text.parse Sample.isUrlByte
  method := Sample.Text.parse Sample.isToken
  statusCode := Sample.Status.parse
  valueOfStr s :=
    if s.all Sample.isStrByte then Sample.headerValue s else none
  valueToStr v := if v.bytes.all Sample.isStrByte then some v.bytes else none

theorem sampleHttp_lawful : sampleHttp.Lawful where
  uri_back u := dif_pos u.property
  method_back m := dif_pos m.property
  status_length s := by
    show 3 ≤ (Sample.Status.text s).length
    simp [Sample.Status.text]
  status_back := Sample.Status.parse_text
  value_bytes := by
    intro s v h
    simp only [sampleHttp, Sample.headerValue] at h
    split at h
    · split at h <;> cases h
      rfl
    · cases h
  value_back := by
    intro s v h
    simp only [sampleHttp, Sample.headerValue] at h ⊢
    split at h
    · next hall =>
      split at h <;> cases h
      exact if_pos hall
    · cases h

/-! ## Tunables, records and dialogs -/

namespace Sample

def tunables (maxBodyRam maxBody : Nat) (h : maxBodyRam ≤ maxBody) : Tunables :=
  { Tunables.new (.ok ⟨[], File.quiet_own []⟩) with
    maxBodyRam := maxBodyRam, maxBody := maxBody, ram_le_max := h }

theorem tunables_tempOk {maxBodyRam maxBody : Nat} (h : maxBodyRam ≤ maxBody) :
    (tunables maxBodyRam maxBody h).TempOk := ⟨_, rfl⟩

/-- The header `a: x`. -/
def name : HeaderName := ⟨[97], by decide +kernel⟩

def value : HeaderValue := ⟨[120], by decide +kernel⟩

/-- A record with a response header and body, whose body is a file. -/
def contents : Contents := ⟨.empty, .empty, [], .ofList [(name, value)], [7, 8, 9]⟩

def record : Record :=
  ⟨.dialog, .empty, .empty, .empty, .ofList [(name, value)], ⟨.fsRead (File.quiet [7, 8, 9]), 3⟩⟩

theorem record_holds : record.Holds contents where
  rec_type := rfl
  meta_eq := rfl
  req_eq := rfl
  req_body := ⟨rfl, rfl, by simp⟩
  res_eq := rfl
  res_body := ⟨rfl, File.quiet_own _, rfl, by decide⟩

/-- A dialog without headers and bodies: `GET /`, answered with 200. -/
def dialog (version : Version) (resDecoded : List Encoding) : Dialog sampleHttp :=
  ⟨⟨⟨ascii "GET", by decide +kernel⟩, ⟨ascii "/", by decide +kernel⟩, .empty, .empty⟩,
    ⟨version, ⟨200, by decide⟩, .empty, .empty, resDecoded⟩⟩

end Sample

end BodyArchive
