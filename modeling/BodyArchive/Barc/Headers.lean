import BodyArchive.Barc.Crates

/-!
# Header blocks

`write_headers` and `read_headers`. A block is the lines of a header map and, in a plain record,
an empty line after them; an empty map has no bytes at all. A compressed record has no empty line,
and the reader adds it before parsing, so both parse the same bytes.
-/

namespace BodyArchive

/-- A part of a record: followed by CR+LF in a plain one, unless it is empty. -/
def pad (withCrlf : Bool) (bs : Bytes) : Bytes :=
  if withCrlf = true ∧ 0 < bs.length then bs ++ crlf else bs

theorem pad_false (bs : Bytes) : pad false bs = bs := rfl

@[simp] theorem pad_nil (withCrlf : Bool) : pad withCrlf [] = [] := by
  simp [pad]

theorem pad_true {bs : Bytes} (h : bs ≠ []) : pad true bs = bs ++ crlf :=
  if_pos ⟨rfl, List.length_pos_iff.mpr h⟩

theorem pad_eq_nil {withCrlf : Bool} {bs : Bytes} : pad withCrlf bs = [] ↔ bs = [] := by
  rw [pad]
  split
  · next h =>
    have := List.length_pos_iff.mp h.2
    simp [this]
  · exact Iff.rfl

/-- A non-empty part has more than the CR+LF. -/
theorem two_lt_pad_length {bs : Bytes} (h : bs ≠ []) : 2 < (pad true bs).length := by
  have := List.length_pos_iff.mpr h
  rw [pad_true h, List.length_append, crlf_length]
  omega

/-- The block of a header map. -/
def block (withCrlf : Bool) (headers : HeaderMap) : Bytes := pad withCrlf (headerLines headers)

theorem headerLine_length (e : HeaderName × HeaderValue) : 5 ≤ (headerLine e).length := by
  have := List.length_pos_iff.mpr e.1.valid.1
  have hsep : (ascii ": ").length = 2 := rfl
  simp only [headerLine, List.length_append, crlf_length, hsep]
  omega

theorem headerLines_eq_nil {headers : HeaderMap} : headerLines headers = [] ↔ headers = .empty := by
  rw [← Multimap.iter_eq_nil, headerLines, List.flatMap_eq_nil_iff]
  constructor
  · intro h
    cases hi : headers.iter with
    | nil => rfl
    | cons e es =>
      have hnil := h e (by rw [hi]; simp)
      have := headerLine_length e
      rw [hnil] at this
      simp at this
  · intro h e he
    rw [h] at he
    cases he

/-- The lines of a map that is not empty are more than two bytes. -/
theorem two_lt_headerLines {headers : HeaderMap} (h : headers ≠ .empty) :
    2 < (headerLines headers).length := by
  cases hi : headers.iter with
  | nil => exact absurd (Multimap.iter_eq_nil.mp hi) h
  | cons e es =>
    have := headerLine_length e
    rw [headerLines, hi, List.flatMap_cons, List.length_append]
    omega

/-! ## Writing -/

section Write

variable {W : Type} [Write W]

/-- The lines, one after the other; `size` counts the bytes so far. -/
def writeLines (size : Nat) : List (HeaderName × HeaderValue) → Prog W BarcError Nat
  | [] => pure size
  | (key, value) :: rest => do
    let n₁ ← writeAllLen key.bytes
    let n₂ ← writeAllLen (ascii ": ")
    let n₃ ← writeAllLen value.bytes
    let n₄ ← writeAllLen crlf
    writeLines (size + n₁ + n₂ + n₃ + n₄) rest

/-- CR+LF after a part that is not empty. -/
def writePadding (withCrlf : Bool) (size : Nat) : Prog W BarcError Nat :=
  if withCrlf = true ∧ 0 < size then do
    let n ← writeAllLen crlf
    pure (size + n)
  else pure size

def writeHeaders (withCrlf : Bool) (headers : HeaderMap) : Prog W BarcError Nat := do
  let size ← writeLines 0 headers.iter
  let size ← writePadding withCrlf size
  Prog.assert (size ≤ v2MaxHblock) "assertion failed: size <= V2_MAX_HBLOCK"
  pure size

variable {G : W → Bytes → Prop}

theorem writeAllLen_accepts (hG : Accepts G) {w : W} {got : Bytes} (hw : G w got) (bs : Bytes) :
    ∃ w', writeAllLen bs w = (.ok bs.length, w') ∧ G w' (got ++ bs) := by
  obtain ⟨w', hb, hw'⟩ := hG w got bs hw
  exact ⟨w', writeAllLen_of hb, hw'⟩

theorem writeLines_accepts (hG : Accepts G) (es : List (HeaderName × HeaderValue)) {w : W}
    {got : Bytes} (hw : G w got) (size : Nat) :
    ∃ w', writeLines size es w = (.ok (size + (es.flatMap headerLine).length), w') ∧
      G w' (got ++ es.flatMap headerLine) := by
  induction es generalizing w got size with
  | nil => exact ⟨w, by simp [writeLines], by simpa using hw⟩
  | cons e es ih =>
    obtain ⟨key, value⟩ := e
    obtain ⟨w₁, h₁, hw₁⟩ := writeAllLen_accepts hG hw key.bytes
    obtain ⟨w₂, h₂, hw₂⟩ := writeAllLen_accepts hG hw₁ (ascii ": ")
    obtain ⟨w₃, h₃, hw₃⟩ := writeAllLen_accepts hG hw₂ value.bytes
    obtain ⟨w₄, h₄, hw₄⟩ := writeAllLen_accepts hG hw₃ crlf
    obtain ⟨w', hrest, hw'⟩ := ih hw₄ (size + key.bytes.length + (ascii ": ").length +
      value.bytes.length + crlf.length)
    refine ⟨w', ?_, ?_⟩
    · rw [writeLines, Prog.bind_of_ok h₁, Prog.bind_of_ok h₂, Prog.bind_of_ok h₃,
        Prog.bind_of_ok h₄, hrest]
      simp only [List.flatMap_cons, headerLine, List.length_append, Nat.add_assoc]
    · simpa only [List.flatMap_cons, headerLine, List.append_assoc] using hw'

theorem writePadding_accepts (hG : Accepts G) {w : W} {got bs : Bytes} (hw : G w (got ++ bs))
    (withCrlf : Bool) :
    ∃ w', writePadding withCrlf bs.length w = (.ok (pad withCrlf bs).length, w') ∧
      G w' (got ++ pad withCrlf bs) := by
  by_cases hpad : withCrlf = true ∧ 0 < bs.length
  · obtain ⟨w', h, hw'⟩ := writeAllLen_accepts hG hw crlf
    refine ⟨w', ?_, ?_⟩
    · rw [writePadding, if_pos hpad, Prog.bind_of_ok h, pad, if_pos hpad, List.length_append]
      rfl
    · rwa [pad, if_pos hpad, ← List.append_assoc]
  · exact ⟨w, by rw [writePadding, if_neg hpad, pad, if_neg hpad]; rfl,
      by rwa [pad, if_neg hpad]⟩

/-- **`write_headers`** writes the block of a map and returns its length, unless that is over the
limit. -/
theorem writeHeaders_accepts (hG : Accepts G) {w : W} {got : Bytes} (hw : G w got)
    (withCrlf : Bool) (headers : HeaderMap) :
    Prog.OkElsePanic ((block withCrlf headers).length ≤ v2MaxHblock)
      (fun n w' => n = (block withCrlf headers).length ∧ G w' (got ++ block withCrlf headers))
      (writeHeaders withCrlf headers w) := by
  obtain ⟨w₁, h₁, hw₁⟩ : ∃ w₁, writeLines 0 headers.iter w =
      (.ok (0 + (headerLines headers).length), w₁) ∧ G w₁ (got ++ headerLines headers) :=
    writeLines_accepts hG headers.iter hw 0
  rw [Nat.zero_add] at h₁
  obtain ⟨w₂, h₂, hw₂⟩ : ∃ w₂, writePadding withCrlf (headerLines headers).length w₁ =
      (.ok (block withCrlf headers).length, w₂) ∧ G w₂ (got ++ block withCrlf headers) :=
    writePadding_accepts hG hw₁ withCrlf
  rw [writeHeaders, Prog.bind_of_ok h₁, Prog.bind_of_ok h₂]
  by_cases hle : (block withCrlf headers).length ≤ v2MaxHblock
  · refine .inl ⟨hle, _, w₂, ?_, rfl, hw₂⟩
    rw [Prog.bind_of_ok (Prog.assert_true (decide_eq_true hle) _ _)]
    rfl
  · exact .inr ⟨hle, _, w₂, Prog.bind_of_panic (Prog.assert_false (decide_eq_false hle) _ _)⟩

end Write

/-! ## Parsing and reading -/

section Read

variable (cr : Crates)

/-- Append parsed headers to a map, name by name and value by value. -/
def appendHeaders : HeaderMap → List (Bytes × Bytes) → Res BarcError HeaderMap
  | hmap, [] => .ok hmap
  | hmap, (name, value) :: rest =>
    match cr.headerName name with
    | none => .err (.invalidHeader .headerName)
    | some n =>
      match cr.headerValue value with
      | none => .err (.invalidHeader .headerValue)
      | some v => appendHeaders (hmap.append n v) rest

def parseHeaders (buf : Bytes) : Res BarcError HeaderMap :=
  match cr.parseHeaders buf maxHeaders with
  | .complete size heads =>
    if size = buf.length then appendHeaders cr .empty heads
    else .panic "assertion failed: size == buf.len()"
  | .incomplete => .err (.invalidHeader .tooManyHeaders)
  | .error code => .err (.invalidHeader (.httparse code))

def readHeaders {R : Type} [Read R] (withCrlf : Bool) (len : Nat) : Prog R BarcError HeaderMap :=
  if len = 0 then pure .empty else do
    Prog.assert (2 < len) "assertion failed: len > 2"
    let buf ← Prog.mapErr .io (readExact len)
    Prog.ofRes (parseHeaders cr (if withCrlf then buf else buf ++ crlf))

theorem appendHeaders_back (hcr : cr.HeadersLawful) (es : List (HeaderName × HeaderValue))
    (hmap : HeaderMap) :
    appendHeaders cr hmap (es.map fun e => (e.1.bytes, e.2.bytes)) =
      .ok (es.foldl (fun m e => m.append e.1 e.2) hmap) := by
  induction es generalizing hmap with
  | nil => rfl
  | cons e es ih =>
    simp only [List.map_cons, appendHeaders, hcr.name_back, hcr.value_back]
    exact ih (hmap.append e.1 e.2)

/-- **`read_headers`** of a block that is there is what the block parses to. -/
theorem readHeaders_rest {R : Type} [Source R] {r : R} {p : Nat} {blk z : Bytes} {t : Tail}
    (h : Rest r p (blk ++ z) t) (hlen : 2 < blk.length) (withCrlf : Bool) :
    ∃ r', readHeaders cr withCrlf blk.length r =
        (parseHeaders cr (if withCrlf then blk else blk ++ crlf), r') ∧
      Rest r' (p + blk.length) z t := by
  obtain ⟨r', hr, hrest⟩ := readExact_ok h (n := blk.length) (by simp)
  rw [List.take_left] at hr
  rw [List.drop_left] at hrest
  refine ⟨r', ?_, hrest⟩
  rw [readHeaders, if_neg (by omega), Prog.bind_of_ok (Prog.assert_true (by simpa using hlen) _ _),
    Prog.bind_of_ok (Prog.mapErr_of_ok hr)]
  rfl

/-- **`read_headers`** beyond the end of the stream is an error. -/
theorem readHeaders_short {R : Type} [Source R] {r : R} {p len : Nat} {bs : Bytes} {t : Tail}
    (h : Rest r p bs t) (ht : t ≠ .more) (hlen : 2 < len) (hshort : bs.length < len)
    (withCrlf : Bool) :
    ∃ r', readHeaders cr withCrlf len r = (.err (.io t.error), r') := by
  obtain ⟨r', hr, -⟩ := readExact_short h ht hshort
  refine ⟨r', ?_⟩
  rw [readHeaders, if_neg (by omega), Prog.bind_of_ok (Prog.assert_true (by simpa using hlen) _ _),
    Prog.bind_of_err (Prog.mapErr_of_err hr)]

end Read

end BodyArchive
