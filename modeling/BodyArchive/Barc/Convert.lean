import BodyArchive.Barc.Sample

/-!
# Dialogs as records, and back

A dialog becomes a record by writing its URL, method, version, status and list of decoded
encodings as meta headers; a record becomes a dialog by parsing them. The two directions have
tables of their own, and the table that parses is smaller: `dialog_back` says exactly which
dialogs come back.
-/

namespace BodyArchive

/-! ## The names of the meta headers -/

def hnameMetaUrl : HeaderName := ⟨ascii "url", by decide +kernel⟩

def hnameMetaMethod : HeaderName := ⟨ascii "method", by decide +kernel⟩

def hnameMetaResVersion : HeaderName := ⟨ascii "response-version", by decide +kernel⟩

def hnameMetaResStatus : HeaderName := ⟨ascii "response-status", by decide +kernel⟩

def hnameMetaResDecoded : HeaderName := ⟨ascii "response-decoded", by decide +kernel⟩

variable (http : HttpTypes)

/-! ## From a dialog -/

/-- A string as a header value. -/
def metaValue (s : Bytes) : Except BarcError HeaderValue :=
  match http.valueOfStr s with
  | some v => .ok v
  | none => .error (.invalidHeader .headerValue)

/-- The encodings, joined with commas. -/
def joinDecoded (resDecoded : List Encoding) : Bytes :=
  resDecoded.foldl
    (fun joined e => (if joined ≠ [] then joined ++ ascii ", " else joined) ++ e.text) []

/-- The header for the decoded encodings, if there are any. -/
def appendDecoded (resDecoded : List Encoding) (metaH : HeaderMap) : Except BarcError HeaderMap :=
  if resDecoded ≠ [] then do
    let v ← metaValue http (joinDecoded resDecoded)
    return metaH.append hnameMetaResDecoded v
  else .ok metaH

/-- `TryFrom<Dialog> for Record`. -/
def Record.tryFrom (dialog : Dialog http) : Except BarcError Record := do
  let prolog := dialog.pro
  let epilog := dialog.epi
  let url ← metaValue http (http.uriText prolog.url)
  let method ← metaValue http (http.methodText prolog.method)
  let version ← metaValue http epilog.version.debug
  let status ← metaValue http (http.statusText epilog.status)
  let metaHeaders ← appendDecoded http epilog.resDecoded
    ((((Multimap.empty.append hnameMetaUrl url).append hnameMetaMethod method).append
      hnameMetaResVersion version).append hnameMetaResStatus status)
  return ⟨.dialog, metaHeaders, prolog.reqHeaders, prolog.reqBody, epilog.resHeaders,
    epilog.resBody⟩

/-! ## From a record -/

inductive DialogConvertError where
  | noMetaUrl
  | invalidUrl (code : Nat)
  | noMetaMethod
  | invalidMethod (code : Nat)
  | noMetaResVersion
  | invalidVersion (bytes : Bytes)
  | noMetaResStatus
  | malformedMetaResStatus
  | invalidStatusCode (code : Nat)
  | invalidResDecoded (text : Bytes)
  deriving DecidableEq, Repr

/-- The versions known to the parser. -/
def versionOf (vb : Bytes) : Except DialogConvertError Version :=
  if vb = ascii "HTTP/0.9" then .ok .http09
  else if vb = ascii "HTTP/1.0" then .ok .http10
  else if vb = ascii "HTTP/1.1" then .ok .http11
  else if vb = ascii "HTTP/2.0" then .ok .http2
  else .error (.invalidVersion vb)

/-- The encodings known to the parser. -/
def encodingOf (enc : Bytes) : Except DialogConvertError Encoding :=
  if enc = ascii "chunked" then .ok .chunked
  else if enc = ascii "deflate" then .ok .deflate
  else if enc = ascii "gzip" then .ok .gzip
  else if enc = ascii "br" then .ok .brotli
  else .error (.invalidResDecoded enc)

/-- The white space that `str::trim` removes from a string of ASCII. -/
def isWhitespace (b : UInt8) : Bool := b == 32 || (9 ≤ b && b ≤ 13)

/-- `str::trim`. -/
def trimStr (s : Bytes) : Bytes := ((s.dropWhile isWhitespace).reverse.dropWhile isWhitespace).reverse

/-- The format `{:x?}` of a byte slice. -/
def debugHex (bs : Bytes) : Bytes :=
  ascii "[" ++ ((bs.map fun b => hexPad 1 b.toNat).intersperse (ascii ", ")).flatten ++ ascii "]"

/-- The parts of a list of encodings, each trimmed and parsed. -/
def encodingsOf : List Bytes → Except DialogConvertError (List Encoding)
  | [] => .ok []
  | enc :: rest => do
    let e ← encodingOf (trimStr enc)
    let es ← encodingsOf rest
    return e :: es

/-- The meta header for the URL, as parsed. -/
def metaUrl (metaH : HeaderMap) : Except DialogConvertError http.Uri :=
  match metaH.get hnameMetaUrl with
  | some uv => (http.uri uv.bytes).mapError .invalidUrl
  | none => .error .noMetaUrl

def metaMethod (metaH : HeaderMap) : Except DialogConvertError http.Method :=
  match metaH.get hnameMetaMethod with
  | some v => (http.method v.bytes).mapError .invalidMethod
  | none => .error .noMetaMethod

def metaVersion (metaH : HeaderMap) : Except DialogConvertError Version :=
  match metaH.get hnameMetaResVersion with
  | some v => versionOf v.bytes
  | none => .error .noMetaResVersion

def metaStatus (metaH : HeaderMap) : Except DialogConvertError http.StatusCode :=
  match metaH.get hnameMetaResStatus with
  | some v =>
    if 3 ≤ v.bytes.length then (http.statusCode (v.bytes.take 3)).mapError .invalidStatusCode
    else .error .malformedMetaResStatus
  | none => .error .noMetaResStatus

def metaDecoded (metaH : HeaderMap) : Except DialogConvertError (List Encoding) :=
  match metaH.get hnameMetaResDecoded with
  | some v =>
    match http.valueToStr v with
    | some dcds => encodingsOf (dcds.splitOn 44)
    | none => .error (.invalidResDecoded (debugHex v.bytes))
  | none => .ok []

/-- `TryFrom<Record> for Dialog`. -/
def Dialog.tryFrom (rec : Record) : Except DialogConvertError (Dialog http) := do
  let url ← metaUrl http rec.metaHeaders
  let method ← metaMethod http rec.metaHeaders
  let version ← metaVersion rec.metaHeaders
  let status ← metaStatus http rec.metaHeaders
  let resDecoded ← metaDecoded http rec.metaHeaders
  return ⟨⟨method, url, rec.reqHeaders, rec.reqBody⟩,
    ⟨version, status, rec.resHeaders, rec.resBody, resDecoded⟩⟩

/-! ## The tables -/

/-- The versions the parser has an entry for. -/
def Version.Known (v : Version) : Prop := v ≠ .http3

/-- The encodings the parser has an entry for. -/
def Encoding.Known (e : Encoding) : Prop := e ≠ .compress ∧ e ≠ .identity

instance : DecidablePred Version.Known := fun v => inferInstanceAs (Decidable (v ≠ .http3))

instance : DecidablePred Encoding.Known := fun e =>
  inferInstanceAs (Decidable (e ≠ .compress ∧ e ≠ .identity))

theorem versionOf_debug (v : Version) :
    versionOf v.debug = if v.Known then .ok v else .error (.invalidVersion v.debug) := by
  cases v <;> decide +kernel

theorem encodingOf_text (e : Encoding) :
    encodingOf e.text = if e.Known then .ok e else .error (.invalidResDecoded e.text) := by
  cases e <;> decide +kernel

theorem versionOf_eq_ok {v v' : Version} : versionOf v.debug = .ok v' ↔ v.Known ∧ v' = v := by
  rw [versionOf_debug]
  split <;> simp_all [eq_comm]

theorem encodingOf_eq_ok {e e' : Encoding} : encodingOf e.text = .ok e' ↔ e.Known ∧ e' = e := by
  rw [encodingOf_text]
  split <;> simp_all [eq_comm]

/-! ## The list of encodings -/

theorem text_ne_nil (e : Encoding) : e.text ≠ [] := by
  cases e <;> decide +kernel

theorem comma_not_mem_text (e : Encoding) : 44 ∉ e.text := by
  cases e <;> decide +kernel

theorem trimStr_text (e : Encoding) : trimStr e.text = e.text := by
  cases e <;> decide +kernel

theorem trimStr_space_text (e : Encoding) : trimStr (32 :: e.text) = e.text := by
  cases e <;> decide +kernel

/-- The parts between the commas of a joined list. -/
def decodedParts : List Encoding → List Bytes
  | [] => []
  | e :: es => e.text :: es.map fun e => 32 :: e.text

theorem joinDecoded_cons (e : Encoding) (es : List Encoding) :
    joinDecoded (e :: es) = e.text ++ es.flatMap fun e => ascii ", " ++ e.text := by
  have hfold : ∀ (es : List Encoding) (joined : Bytes), joined ≠ [] →
      es.foldl (fun joined e => (if joined ≠ [] then joined ++ ascii ", " else joined) ++ e.text)
        joined = joined ++ es.flatMap fun e => ascii ", " ++ e.text := by
    intro es
    induction es with
    | nil =>
      intro joined _
      simp
    | cons e es ih =>
      intro joined hne
      rw [List.foldl_cons, if_pos hne, ih _ (by simp [text_ne_nil])]
      simp only [List.flatMap_cons, List.append_assoc]
  rw [joinDecoded, List.foldl_cons, if_neg (by simp), List.nil_append, hfold es e.text (text_ne_nil e)]

theorem intercalate_parts (x : Bytes) (es : List Encoding) :
    [44].intercalate (x :: es.map fun e => 32 :: e.text) =
      x ++ es.flatMap fun e => ascii ", " ++ e.text := by
  have hsep : ascii ", " = [44, 32] := rfl
  induction es generalizing x with
  | nil => simp
  | cons e es ih => simp only [List.map_cons, List.intercalate_cons_cons, ih, List.flatMap_cons,
      hsep, List.append_assoc, List.cons_append, List.nil_append]

/-- **Splitting a joined list** at the commas gives its parts. -/
theorem splitOn_joinDecoded {es : List Encoding} (hne : es ≠ []) :
    (joinDecoded es).splitOn 44 = decodedParts es := by
  cases es with
  | nil => exact absurd rfl hne
  | cons e es =>
    rw [joinDecoded_cons, ← intercalate_parts]
    apply List.splitOn_intercalate
    · intro part hpart
      rcases List.mem_cons.mp hpart with rfl | hpart
      · exact comma_not_mem_text e
      · obtain ⟨e', -, rfl⟩ := List.mem_map.mp hpart
        simp [comma_not_mem_text]
    · simp

/-- Parsing the parts of a joined list succeeds when all encodings are known, and then gives the
list. -/
theorem encodingsOf_eq_ok {parts : List Bytes} {es ds : List Encoding}
    (h : parts.map trimStr = es.map Encoding.text) :
    encodingsOf parts = .ok ds ↔ (∀ e ∈ es, e.Known) ∧ ds = es := by
  induction es generalizing parts ds with
  | nil =>
    obtain rfl : parts = [] := by simpa using h
    simp [encodingsOf, eq_comm]
  | cons e es ih =>
    obtain ⟨part, rest, rfl, hpart, hrest⟩ := List.map_eq_cons_iff.mp h
    rw [encodingsOf, hpart, except_bind_eq_ok]
    constructor
    · rintro ⟨e', he', h'⟩
      obtain ⟨hknown, rfl⟩ := encodingOf_eq_ok.mp he'
      obtain ⟨es', hes', hds⟩ := except_bind_eq_ok.mp h'
      obtain ⟨hall, rfl⟩ := (ih hrest).mp hes'
      cases hds
      exact ⟨List.forall_mem_cons.mpr ⟨hknown, hall⟩, rfl⟩
    · rintro ⟨hall, rfl⟩
      obtain ⟨hknown, hall⟩ := List.forall_mem_cons.mp hall
      refine ⟨e, encodingOf_eq_ok.mpr ⟨hknown, rfl⟩, except_bind_eq_ok.mpr ⟨es, ?_, rfl⟩⟩
      exact (ih hrest).mpr ⟨hall, rfl⟩

theorem trimStr_parts (es : List Encoding) :
    (decodedParts es).map trimStr = es.map Encoding.text := by
  cases es with
  | nil => rfl
  | cons e es => simp [decodedParts, trimStr_text, trimStr_space_text]

/-! ## The meta headers of a dialog -/

variable {http}

theorem metaValue_eq_ok {s : Bytes} {v : HeaderValue} (h : metaValue http s = .ok v) :
    http.valueOfStr s = some v := by
  unfold metaValue at h
  split at h
  · next v' hv =>
    cases h
    exact hv
  · cases h

/-- What the meta headers of a record made from a dialog say. -/
structure Describes (metaH : HeaderMap) (d : Dialog http) : Prop where
  url : metaUrl http metaH = .ok d.pro.url
  method : metaMethod http metaH = .ok d.pro.method
  version : metaVersion metaH = versionOf d.epi.version.debug
  status : metaStatus http metaH = .ok d.epi.status
  decoded : ∀ ds, metaDecoded http metaH = .ok ds ↔
    (∀ e ∈ d.epi.resDecoded, e.Known) ∧ ds = d.epi.resDecoded

/-- The four headers that every record of a dialog has. -/
def headers₄ (url method version status : HeaderValue) : HeaderMap :=
  (((Multimap.empty.append hnameMetaUrl url).append hnameMetaMethod method).append
    hnameMetaResVersion version).append hnameMetaResStatus status

theorem getAll_headers₄ (url method version status : HeaderValue) :
    (headers₄ url method version status).getAll hnameMetaUrl = [url] ∧
      (headers₄ url method version status).getAll hnameMetaMethod = [method] ∧
      (headers₄ url method version status).getAll hnameMetaResVersion = [version] ∧
      (headers₄ url method version status).getAll hnameMetaResStatus = [status] ∧
      (headers₄ url method version status).getAll hnameMetaResDecoded = [] := by
  unfold headers₄
  refine ⟨?_, ?_, ?_, ?_, ?_⟩ <;>
    simp (disch := decide +kernel) [Multimap.getAll_append_ne]

/-- The header for the decoded encodings leaves the others as they are. -/
theorem get_appendDecoded {es : List Encoding} {m m' : HeaderMap}
    (h : appendDecoded http es m = .ok m') {k : HeaderName} (hk : k ≠ hnameMetaResDecoded) :
    m'.get k = m.get k := by
  unfold appendDecoded at h
  split at h
  · obtain ⟨v, -, hm⟩ := except_bind_eq_ok.mp h
    cases hm
    rw [Multimap.get, Multimap.getAll_append_ne m hk, Multimap.get]
  · cases h
    rfl

/-- The header for the decoded encodings is read back as the encodings, if they are known. -/
theorem metaDecoded_appendDecoded (hl : http.Lawful) {es ds : List Encoding} {m m' : HeaderMap}
    (hm : m.getAll hnameMetaResDecoded = []) (h : appendDecoded http es m = .ok m') :
    metaDecoded http m' = .ok ds ↔ (∀ e ∈ es, e.Known) ∧ ds = es := by
  unfold appendDecoded at h
  split at h
  · next hne =>
    obtain ⟨v, hv, hm'⟩ := except_bind_eq_ok.mp h
    cases hm'
    have hget : (m.append hnameMetaResDecoded v).get hnameMetaResDecoded = some v := by
      rw [Multimap.get, Multimap.getAll_append_self, hm]
      rfl
    rw [metaDecoded, hget]
    simp only [hl.value_back (metaValue_eq_ok hv), splitOn_joinDecoded hne]
    exact encodingsOf_eq_ok (trimStr_parts es)
  · next hnil =>
    cases h
    obtain rfl : es = [] := by simpa using hnil
    rw [metaDecoded, Multimap.get, hm]
    simp [eq_comm]

/-- **The meta headers describe the dialog** they are made from. -/
theorem describes_of (hl : http.Lawful) {d : Dialog http} {r : Record}
    (h : Record.tryFrom http d = .ok r) : Describes r.metaHeaders d := by
  obtain ⟨url, hurl, h₁⟩ := except_bind_eq_ok.mp h
  obtain ⟨method, hmethod, h₂⟩ := except_bind_eq_ok.mp h₁
  obtain ⟨version, hversion, h₃⟩ := except_bind_eq_ok.mp h₂
  obtain ⟨status, hstatus, h₄⟩ := except_bind_eq_ok.mp h₃
  obtain ⟨metaH, hmeta, h₅⟩ := except_bind_eq_ok.mp h₄
  cases h₅
  obtain ⟨g₁, g₂, g₃, g₄, g₅⟩ := getAll_headers₄ url method version status
  have get_of {k : HeaderName} {v : HeaderValue} (hk : k ≠ hnameMetaResDecoded)
      (hg : (headers₄ url method version status).getAll k = [v]) : metaH.get k = some v := by
    rw [get_appendDecoded hmeta hk]
    show ((headers₄ url method version status).getAll k).head? = some v
    rw [hg]
    rfl
  have hsize := hl.status_length d.epi.status
  constructor
  · rw [metaUrl, get_of (by decide +kernel) g₁]
    simp only [hl.value_bytes (metaValue_eq_ok hurl), hl.uri_back]
    rfl
  · rw [metaMethod, get_of (by decide +kernel) g₂]
    simp only [hl.value_bytes (metaValue_eq_ok hmethod), hl.method_back]
    rfl
  · rw [metaVersion, get_of (by decide +kernel) g₃]
    simp only [hl.value_bytes (metaValue_eq_ok hversion)]
  · rw [metaStatus, get_of (by decide +kernel) g₄]
    simp only [hl.value_bytes (metaValue_eq_ok hstatus), if_pos hsize, hl.status_back]
    rfl
  · intro ds
    exact metaDecoded_appendDecoded hl g₅ hmeta

/-- **A dialog comes back from its record** exactly when the parser knows its version and its
decoded encodings. -/
theorem dialog_back (hl : http.Lawful) {d : Dialog http} {r : Record}
    (h : Record.tryFrom http d = .ok r) :
    Dialog.tryFrom http r = .ok d ↔
      d.epi.version.Known ∧ ∀ e ∈ d.epi.resDecoded, e.Known := by
  have hd := describes_of hl h
  have hrest : r.reqHeaders = d.pro.reqHeaders ∧ r.reqBody = d.pro.reqBody ∧
      r.resHeaders = d.epi.resHeaders ∧ r.resBody = d.epi.resBody := by
    obtain ⟨url, -, h₁⟩ := except_bind_eq_ok.mp h
    obtain ⟨method, -, h₂⟩ := except_bind_eq_ok.mp h₁
    obtain ⟨version, -, h₃⟩ := except_bind_eq_ok.mp h₂
    obtain ⟨status, -, h₄⟩ := except_bind_eq_ok.mp h₃
    obtain ⟨metaH, -, h₅⟩ := except_bind_eq_ok.mp h₄
    cases h₅
    exact ⟨rfl, rfl, rfl, rfl⟩
  obtain ⟨hreqH, hreqB, hresH, hresB⟩ := hrest
  constructor
  · intro hback
    obtain ⟨url, -, h₁⟩ := except_bind_eq_ok.mp hback
    obtain ⟨method, -, h₂⟩ := except_bind_eq_ok.mp h₁
    obtain ⟨version, hversion, h₃⟩ := except_bind_eq_ok.mp h₂
    obtain ⟨status, -, h₄⟩ := except_bind_eq_ok.mp h₃
    obtain ⟨decoded, hdecoded, h₅⟩ := except_bind_eq_ok.mp h₄
    rw [hd.version] at hversion
    exact ⟨(versionOf_eq_ok.mp hversion).1, ((hd.decoded decoded).mp hdecoded).1⟩
  · rintro ⟨hv, hes⟩
    have hversion : metaVersion r.metaHeaders = .ok d.epi.version := by
      rw [hd.version]
      exact versionOf_eq_ok.mpr ⟨hv, rfl⟩
    have hdecoded : metaDecoded http r.metaHeaders = .ok d.epi.resDecoded :=
      (hd.decoded _).mpr ⟨hes, rfl⟩
    rw [Dialog.tryFrom, hd.url, hd.method, hversion, hd.status, hdecoded, hreqH, hreqB, hresH,
      hresB]
    rfl

theorem exists_of_any {ε α : Type} {x : Except ε α} {p : α → Prop} [DecidablePred p]
    (h : x.toOption.any (fun a => p a) = true) : ∃ a, x = .ok a ∧ p a := by
  cases x with
  | error e => cases h
  | ok a => exact ⟨a, rfl, of_decide_eq_true h⟩

/-- A dialog with two decoded encodings comes back. -/
theorem gzipDialog_back :
    ∃ r, Record.tryFrom sampleHttp (Sample.dialog .http11 [.chunked, .gzip]) = .ok r ∧
      Dialog.tryFrom sampleHttp r = .ok (Sample.dialog .http11 [.chunked, .gzip]) := by
  obtain ⟨r, hr, -⟩ : ∃ r,
      Record.tryFrom sampleHttp (Sample.dialog .http11 [.chunked, .gzip]) = .ok r ∧ True :=
    exists_of_any (by decide +kernel)
  exact ⟨r, hr, (dialog_back sampleHttp_lawful hr).mpr (by decide)⟩

/-- The error, if it is one. -/
def errorOf {ε α : Type} : Except ε α → Option ε
  | .ok _ => none
  | .error e => some e

/-- **A decoded dialog does not come back.** A response without any encoding, once decoded, has the
list `[identity]`; its record is rejected. And so is that of a response in HTTP/3. -/
theorem decodedDialog_rejected :
    (∃ r, Record.tryFrom sampleHttp (Sample.dialog .http11 [.identity]) = .ok r ∧
      errorOf (Dialog.tryFrom sampleHttp r) = some (.invalidResDecoded (ascii "identity"))) ∧
    (∃ r, Record.tryFrom sampleHttp (Sample.dialog .http3 []) = .ok r ∧
      errorOf (Dialog.tryFrom sampleHttp r) = some (.invalidVersion (ascii "HTTP/3.0"))) :=
  ⟨exists_of_any (by decide +kernel), exists_of_any (by decide +kernel)⟩

end BodyArchive
