import BodyArchive.Barc.Dialogs
import BodyArchive.Cli.Copy
import BodyArchive.Futio.Receive
import BodyArchive.Futio.Recorder

/-!
# Recording to a file

`barc record` requests a URL, removes the compression of the response unless it is told not to, and
appends the dialog to a file. Each of these can fail, and nothing is written before all of them are
done.

`recordings_archived` is about any number of runs on the same file, each with a server and a file
system of its own: behind what was there, the file has one record for each run that succeeded, in
order, with the response of that run; and a run that failed has left the file as it was.
-/

namespace BodyArchive.Cli

/-! ## The command -/

/-- What `record` fails with. -/
inductive RecordFlaw where
  | http (code : Nat)
  | request (e : RequestError)
  | barc (e : BarcError)
  /-- `quit!`. -/
  | clError (text : Bytes)
  deriving DecidableEq

def accept : HeaderName := ⟨ascii "accept", by decide +kernel⟩

def acceptLanguage : HeaderName := ⟨ascii "accept-language", by decide +kernel⟩

def acceptEncoding : HeaderName := ⟨ascii "accept-encoding", by decide +kernel⟩

def userAgentName : HeaderName := ⟨ascii "user-agent", by decide +kernel⟩

/-- `BROWSE_ACCEPT`. -/
def browseAccept : Bytes :=
  ascii "text/html, application/xhtml+xml, " ++ ascii "application/xml;q=0.9, " ++ ascii "*/*;q=0.8"

/-- `ACCEPT_ENCODINGS`, with or without the *brotli* feature. -/
def acceptEncodings (brotli : Bool) : Bytes :=
  if brotli then ascii "br, gzip, deflate" else ascii "gzip, deflate"

def version : Bytes := ascii "2.2.2"

/-- `user_agent`. -/
def userAgent : Bytes :=
  ascii "Mozilla/5.0 (compatible; body-image " ++ version ++ ascii "; " ++
    ascii "+https://crates.io/crates/body-image)"

/-- The arguments of the command. -/
structure RecordArgs where
  url : Bytes
  accept : Option Bytes
  decode : Bool
  strategy : Record → Encoder

/-- The tunables of the command. -/
def recordTunables (tempDir : TempDir) : RequestTunables := ⟨⟨.new tempDir, .direct⟩, none, some 60⟩

section Command

variable {http : HttpTypes} (builder : HttpBuilder http) (hyper : Hyper) (dec : Decoders)
  (cr : Crates) (tempDir : TempDir)

/-- The request that is made. -/
def recordRequest (args : RecordArgs) : Except Nat (RequestRecord http hyper.Body) :=
  (hyperRecorder builder hyper (.ok ())).record
    (builder.new
      |> builder.method (ascii "GET")
      |> builder.header accept (args.accept.getD browseAccept)
      |> builder.header acceptLanguage (ascii "en")
      |> builder.header acceptEncoding (acceptEncodings dec.brotli)
      |> builder.header userAgentName userAgent
      |> builder.uri args.url)

/-- Decode the response, if it is to be. An encoding that is not supported has a text of its own. -/
def decodeRecorded (decode : Bool) (dialog : Dialog http) : Res RecordFlaw (Dialog http) :=
  if decode = false then .ok dialog else
  match decodeResBody dec (Tunables.new tempDir) dialog with
  | (.ok _, dialog) => .ok dialog
  | (.err (.unsupportedEncoding enc), _) => .err (.clError (ascii "Unsupported encoding " ++ enc.text ++
      ascii "; use `--no-decode` flag to record anyway"))
  | (.err e, _) => .err (.request (.futio e))
  | (.panic msg, _) => .panic msg

/-- The `record` command implementation. Its state is the file, which may fail to open. -/
def record (args : RecordArgs)
    (fetch : RequestRecord http hyper.Body → Res RequestError (Dialog http))
    (opened : Except IoError Unit) : Prog OutFile RecordFlaw Unit := do
  let req ← Prog.mapErr .http (Prog.ofRes (.ofExcept (recordRequest builder hyper dec args)))
  let dialog ← Prog.mapErr .request (Prog.ofRes (fetch req))
  let dialog ← Prog.ofRes (decodeRecorded dec tempDir args.decode dialog)
  Prog.mapErr (fun e => .barc (.io e)) (Prog.ofRes (.ofExcept opened))
  let record ← Prog.mapErr .barc (Prog.ofRes (.ofExcept (Record.tryFrom http dialog)))
  let _ ← Prog.mapErr .barc (write cr record (args.strategy record))
  pure ()

/-- How `fetch` ends: as the request does, on a thread that is joined. -/
inductive Fetch (contentLength : HeaderMap → Option (Except Nat Nat)) (tune : RequestTunables)
    (script : List SendAttempt) (fault : Option IoError) (pro : Prolog http)
    (answer : Except Nat (Response http)) : Res RequestError (Dialog http) → Prop
  | joined {x : Res RequestError (Dialog http)} (hx : ∀ msg, x ≠ .panic msg)
      (h : RequestDialog dec contentLength tune script fault pro answer x) :
      Fetch contentLength tune script fault pro answer x
  | joinError {msg : String} (code : Nat)
      (h : RequestDialog dec contentLength tune script fault pro answer (.panic msg)) :
      Fetch contentLength tune script fault pro answer (.err (.other code))

end Command

/-! ## What is recorded -/

section Recorded

variable {http : HttpTypes} {builder : HttpBuilder http} {hyper : Hyper} {dec : Decoders}
  {cr : Crates} {tempDir : TempDir} {contentLength : HeaderMap → Option (Except Nat Nat)}

/-- The compression that is removed from a response with these headers. -/
def removed (dec : Decoders) (decode : Bool) (headers : HeaderMap) : Option Encoding :=
  if decode then (compressions dec headers).head? else none

/-- What a response is marked with. -/
def marks (dec : Decoders) (decode : Bool) (headers : HeaderMap) : List Encoding :=
  if decode then findEncodings dec headers ++ [.identity]
  else if findChunked dec headers then [.chunked] else []

/-- The bytes that the body of a response is recorded with. -/
def bodyRecorded (dec : Decoders) (decode : Bool) (headers : HeaderMap) (bs : Bytes) : Option Bytes :=
  match removed dec decode headers with
  | some e => if dec.supports e then dec.decode e bs else none
  | none => some bs

/-- The contents that a response is recorded with. -/
structure OfResponse (dec : Decoders) (decode : Bool) (pro : Prolog http) (res : Response http)
    (c : Contents) : Prop where
  complete : res.body.fault = none
  described : ∃ d : Dialog http, Describes c.metaHeaders d ∧ d.pro = pro ∧
    d.epi.version = res.version ∧ d.epi.status = res.status ∧
    d.epi.resDecoded = marks dec decode res.headers
  req_headers : c.reqHeaders = pro.reqHeaders
  req_body : c.reqBody = []
  res_headers : c.resHeaders = res.headers
  res_body : bodyRecorded dec decode res.headers res.body.chunks.flatten = some c.resBody

/-- The bytes do not decode, or what they decode to is too long, or may need a temporary file that
cannot be had. -/
def Undecodable (dec : Decoders) (tempDir : TempDir) (e : Encoding) (bs : Bytes) : Prop :=
  ∀ out, dec.decode e bs = some out →
    (Tunables.new tempDir).maxBody < out.length ∨ ¬ (Tunables.new tempDir).TempOk

/-- Removing a compression gives what it decodes to, or the reason why not. -/
theorem decompress_ends (hdec : dec.Lawful) {body : BodyImage} {bs : Bytes} (hb : body.Backs bs)
    (e : Encoding) :
    (∃ im out, decompress dec (.new tempDir) body e = .ok im ∧ dec.supports e = true ∧
      dec.decode e bs = some out ∧ im.Backs out) ∨
    (∃ be, decompress dec (.new tempDir) body e = .err (.body be) ∧ dec.supports e = true ∧
      Undecodable dec tempDir e bs) ∨
    (decompress dec (.new tempDir) body e = .err (.unsupportedEncoding e) ∧
      dec.supports e = false) := by
  rcases decompress_cases (Tunables.new tempDir) dec body e with ⟨hs, n, hread⟩ | ⟨hs, herr⟩
  swap
  · exact .inr (.inr ⟨herr, hs⟩)
  rcases readDecoded_cases (.new tempDir) dec body e n ((Tunables.new tempDir).sizeEstimate e) with
    ⟨im, _, _, him⟩ | ⟨be, hfail⟩
  · obtain ⟨-, out, hout, hback⟩ := decompress_ok (.new tempDir) hdec hb (hread.trans him)
    exact .inl ⟨im, out, hread.trans him, hs, hout, hback⟩
  · refine .inr (.inl ⟨be, hread.trans hfail, hs, fun out hout => ?_⟩)
    by_contra hwithin
    obtain ⟨hle, htemp⟩ := not_or.mp hwithin
    have hroom : ∀ out', dec.decode e bs = some out' →
        (Tunables.new tempDir).lenDecoded e bs.length ≤ (Tunables.new tempDir).maxBodyRam →
        out'.length + 1024 ≤ usizeMax := by
      intro out' hout' _
      rw [hout] at hout'
      cases hout'
      have hmax : (Tunables.new tempDir).maxBody + 1024 ≤ usizeMax := by
        show 1024 * 1024 * 1024 + 1024 ≤ usizeMax
        decide
      omega
    obtain ⟨im, him⟩ := (decompress_iff (.new tempDir) hdec hb hroom).mpr
      ⟨hs, out, hout, Tunables.takes_of_tempOk (not_not.mp htemp) (Nat.not_lt.mp hle)⟩
    cases him.symm.trans (hread.trans hfail)

/-- The reason why a body with these bytes was not decoded. -/
def DecodeCaused (dec : Decoders) (tempDir : TempDir) (headers : HeaderMap) (bs : Bytes) :
    RecordFlaw → Prop
  | .clError text => ∃ e, removed dec true headers = some e ∧ dec.supports e = false ∧
      text = ascii "Unsupported encoding " ++ e.text ++
        ascii "; use `--no-decode` flag to record anyway"
  | .request (.futio (.body _)) => ∃ e, removed dec true headers = some e ∧
      dec.supports e = true ∧ Undecodable dec tempDir e bs
  | _ => False

/-- The dialog of a whole response, as it is to be recorded. -/
structure Ready (dec : Decoders) (decode : Bool) (pro : Prolog http) (res : Response http)
    (d : Dialog http) : Prop where
  complete : res.body.fault = none
  pro_eq : d.pro = pro
  version_eq : d.epi.version = res.version
  status_eq : d.epi.status = res.status
  headers_eq : d.epi.resHeaders = res.headers
  decoded_eq : d.epi.resDecoded = marks dec decode res.headers
  body : ∃ out, bodyRecorded dec decode res.headers res.body.chunks.flatten = some out ∧
    d.epi.resBody.Backs out

/-- **Decoding a dialog**: only its body and its marks change. -/
theorem decodeRecorded_ends (hdec : dec.Lawful) {decode : Bool} {tune : Tunables} {pro : Prolog http}
    {res : Response http} {d : Dialog http} (h : Whole dec contentLength tune pro res d) :
    (∃ d', decodeRecorded dec tempDir decode d = .ok d' ∧ Ready dec decode pro res d') ∨
    ∃ e, decodeRecorded dec tempDir decode d = .err e ∧ decode = true ∧
      DecodeCaused dec tempDir res.headers res.body.chunks.flatten e := by
  cases decode with
  | false =>
    exact .inl ⟨d, rfl, h.complete, h.pro_eq, h.version_eq, h.status_eq, h.headers_eq, h.decoded_eq,
      _, rfl, h.body⟩
  | true =>
    have hmarks : findEncodings dec d.epi.resHeaders ++ [.identity] = marks dec true res.headers := by
      rw [h.headers_eq]
      rfl
    cases hremoved : removed dec true res.headers with
    | none =>
      have hhead : (compressions dec d.epi.resHeaders).head? = none :=
        h.headers_eq ▸ hremoved
      have hrun := decodeResBody_none (Tunables.new tempDir) hhead
      refine .inl ⟨d.setResDecoded (findEncodings dec d.epi.resHeaders ++ [Encoding.identity]), ?_,
        h.complete, h.pro_eq, h.version_eq, h.status_eq, h.headers_eq, hmarks, _, ?_, h.body⟩
      · rw [decodeRecorded, hrun]
        rfl
      · rw [bodyRecorded, hremoved]
    | some e =>
      have hhead : (compressions dec d.epi.resHeaders).head? = some e :=
        h.headers_eq ▸ hremoved
      rcases @decompress_ends dec tempDir hdec _ _ h.body e with
        ⟨im, out, hok, hs, hout, hback⟩ | ⟨be, herr, hs, hlong⟩ | ⟨herr, hs⟩
      · have hrun := decodeResBody_ok (Tunables.new tempDir) hhead hok
        refine .inl ⟨d.setResBodyDecoded im (findEncodings dec d.epi.resHeaders ++ [Encoding.identity]),
          ?_, h.complete, h.pro_eq, h.version_eq, h.status_eq, h.headers_eq, hmarks, out, ?_, hback⟩
        · rw [decodeRecorded, hrun]
          rfl
        · rw [bodyRecorded, hremoved]
          exact (if_pos hs).trans hout
      · have hrun := decodeResBody_err (Tunables.new tempDir) hhead herr
        exact .inr ⟨.request (.futio (.body be)), by rw [decodeRecorded, hrun]; rfl, rfl, e, hremoved,
          hs, hlong⟩
      · have hrun := decodeResBody_err (Tunables.new tempDir) hhead herr
        exact .inr ⟨.clError _, by rw [decodeRecorded, hrun]; rfl, rfl, e, hremoved, hs, rfl⟩

theorem except_bind_error {ε α β : Type} {x : Except ε α} {f : α → Except ε β} {P : ε → Prop}
    (hx : ∀ e, x = .error e → P e) (hf : ∀ a e, f a = .error e → P e) {e : ε}
    (h : (x >>= f) = .error e) : P e := by
  cases x with
  | error e' =>
    cases h
    exact hx _ rfl
  | ok a => exact hf a e h

/-- The texts that a dialog has in its meta headers. -/
def metaTexts (pro : Prolog http) (version : Version) (status : http.StatusCode)
    (resDecoded : List Encoding) : List Bytes :=
  [http.uriText pro.url, http.methodText pro.method, version.debug, http.statusText status] ++
    if resDecoded ≠ [] then [joinDecoded resDecoded] else []

/-- An error of a header value that cannot be made of one of the texts. -/
def NoValue (http : HttpTypes) (texts : List Bytes) (e : BarcError) : Prop :=
  e = .invalidHeader .headerValue ∧ ∃ s ∈ texts, http.valueOfStr s = none

theorem metaValue_error {texts : List Bytes} {s : Bytes} (hs : s ∈ texts) {e : BarcError}
    (h : metaValue http s = .error e) : NoValue http texts e := by
  unfold metaValue at h
  split at h
  · cases h
  · next hnone =>
    cases h
    exact ⟨rfl, s, hs, hnone⟩

theorem appendDecoded_error {texts : List Bytes} {resDecoded : List Encoding}
    (hs : resDecoded ≠ [] → joinDecoded resDecoded ∈ texts) {m : HeaderMap} {e : BarcError}
    (h : appendDecoded http resDecoded m = .error e) : NoValue http texts e := by
  unfold appendDecoded at h
  split at h
  · next hne =>
    exact except_bind_error (fun _ => metaValue_error (hs hne)) (fun _ _ h => by cases h) h
  · cases h

/-- A dialog that has no record has a text that cannot be a header value. -/
theorem tryFrom_error {d : Dialog http} {e : BarcError} (h : Record.tryFrom http d = .error e) :
    NoValue http (metaTexts d.pro d.epi.version d.epi.status d.epi.resDecoded) e := by
  refine except_bind_error (fun _ => metaValue_error (by simp [metaTexts])) (fun url _ h => ?_) h
  refine except_bind_error (fun _ => metaValue_error (by simp [metaTexts])) (fun method _ h => ?_) h
  refine except_bind_error (fun _ => metaValue_error (by simp [metaTexts])) (fun version _ h => ?_) h
  refine except_bind_error (fun _ => metaValue_error (by simp [metaTexts])) (fun status _ h => ?_) h
  exact except_bind_error (fun _ => appendDecoded_error fun hne => by simp [metaTexts, hne])
    (fun _ _ h => by cases h) h

/-- A request without a body. -/
theorem recordRequest_body {args : RecordArgs} {r : RequestRecord http hyper.Body}
    (h : recordRequest builder hyper dec args = .ok r) : r.prolog.reqBody.Backs [] := by
  obtain ⟨head, -, rfl⟩ := finish_eq_ok h
  exact ⟨rfl, rfl, by simp⟩

/-- What a run of `record` failed of. -/
def RecordCaused (builder : HttpBuilder http) (hyper : Hyper) (dec : Decoders) (tempDir : TempDir)
    (contentLength : HeaderMap → Option (Except Nat Nat)) (args : RecordArgs)
    (answer : Except Nat (Response http)) (script : List SendAttempt) (fault : Option IoError)
    (opened : Except IoError Unit) (e : RecordFlaw) : Prop :=
  (∃ he, e = .http he ∧ recordRequest builder hyper dec args = .error he) ∨
  (∃ re, e = .request re ∧ Caused contentLength (recordTunables tempDir) script fault answer re) ∨
  (args.decode = true ∧ ∃ res, answer = .ok res ∧
    DecodeCaused dec tempDir res.headers res.body.chunks.flatten e) ∨
  (∃ io, e = .barc (.io io) ∧ opened = .error io) ∨
  ∃ (r : RequestRecord http hyper.Body) (res : Response http) (be : BarcError), e = .barc be ∧
    recordRequest builder hyper dec args = .ok r ∧ answer = .ok res ∧
    NoValue http (metaTexts r.prolog res.version res.status (marks dec args.decode res.headers)) be

/-- A run of `record` that wrote a record: the frame it is in, and its contents. -/
structure Archived (builder : HttpBuilder http) (hyper : Hyper) (dec : Decoders) (cr : Crates)
    (args : RecordArgs) (answer : Except Nat (Response http)) (f : Frame) (c : Contents) : Prop where
  response : ∃ (r : RequestRecord http hyper.Body) (res : Response http),
    recordRequest builder hyper dec args = .ok r ∧ answer = .ok res ∧
      OfResponse dec args.decode r.prolog res c
  holds : f.Holds cr c
  compress : ∃ rec : Record, rec.Holds c ∧ f.head.compress = (args.strategy rec).mode

/-- A run of `record` whose response is over the limits of a record. -/
structure Exceeds (builder : HttpBuilder http) (hyper : Hyper) (dec : Decoders) (cr : Crates)
    (args : RecordArgs) (answer : Except Nat (Response http)) : Prop where
  response : ∃ (r : RequestRecord http hyper.Body) (res : Response http) (c : Contents)
    (rec : Record), recordRequest builder hyper dec args = .ok r ∧ answer = .ok res ∧
      OfResponse dec args.decode r.prolog res c ∧ rec.Holds c ∧
      ¬ c.Fits cr (args.strategy rec).mode

theorem call_ok {σ ε ε' α : Type} {f : ε → ε'} {x : Res ε α} {a : α} (h : x = .ok a) (s : σ) :
    Prog.mapErr f (Prog.ofRes x) s = (.ok a, s) := by
  subst h
  rfl

theorem call_err {σ ε ε' α : Type} {f : ε → ε'} {x : Res ε α} {e : ε} (h : x = .err e) (s : σ) :
    Prog.mapErr f (Prog.ofRes x) s = (.err (f e), s) := by
  subst h
  rfl

theorem call_value {σ ε ε' α : Type} {f : ε → ε'} (a : α) (s : σ) :
    Prog.mapErr f (Prog.ofRes (.ofExcept (.ok a))) s = (.ok a, s) := rfl

theorem call_error {σ ε ε' α : Type} {f : ε → ε'} (e : ε) (s : σ) :
    (Prog.mapErr f (Prog.ofRes (.ofExcept (.error e))) : Prog σ ε' α) s = (.err (f e), s) := rfl

/-- How a run of `record` ends on a file. -/
inductive RecordEnds (builder : HttpBuilder http) (hyper : Hyper) (dec : Decoders) (cr : Crates)
    (tempDir : TempDir) (contentLength : HeaderMap → Option (Except Nat Nat)) (args : RecordArgs)
    (answer : Except Nat (Response http)) (script : List SendAttempt) (fault : Option IoError)
    (opened : Except IoError Unit) (out : OutFile) : Res RecordFlaw Unit × OutFile → Prop
  | archived {f : Frame} {c : Contents} {out' : OutFile}
      (h : Archived builder hyper dec cr args answer f c)
      (hcontent : out'.content = out.content ++ f.bytes) :
      RecordEnds builder hyper dec cr tempDir contentLength args answer script fault opened out
        (.ok (), out')
  | failed {e : RecordFlaw}
      (h : RecordCaused builder hyper dec tempDir contentLength args answer script fault opened e) :
      RecordEnds builder hyper dec cr tempDir contentLength args answer script fault opened out
        (.err e, out)
  | exceeds {msg : String} {out' : OutFile} (h : Exceeds builder hyper dec cr args answer) :
      RecordEnds builder hyper dec cr tempDir contentLength args answer script fault opened out
        (.panic msg, out')

/-- The last step of the command: a frame more, unless the record is over the limits. -/
theorem write_ends {rec : Record} {c : Contents} (hholds : rec.Holds c) (enc : Encoder)
    {out : OutFile} (hout : out.Calm) :
    (∃ (f : Frame) (out' : OutFile), Prog.mapErr RecordFlaw.barc (write cr rec enc) out =
        (.ok out.content.length, out') ∧
      out'.content = out.content ++ f.bytes ∧ f.Holds cr c ∧ f.head.compress = enc.mode) ∨
    (¬ c.Fits cr enc.mode ∧
      ∃ msg out', Prog.mapErr RecordFlaw.barc (write cr rec enc) out = (.panic msg, out')) := by
  rcases BodyArchive.write_calm cr hout hholds enc with
    ⟨head, payload, out', hw, hmode, hlaid, hwritten⟩ | ⟨hover, msg, out', hw⟩
  · exact .inl ⟨⟨head, payload⟩, out', Prog.mapErr_of_ok hw, hwritten.content_eq, hlaid, hmode⟩
  · exact .inr ⟨hover, msg, out', by rw [Prog.mapErr, hw]⟩

/-- **One run of `record`** adds the frame of its response, or fails and leaves the file as it is. -/
theorem record_ends (hl : http.Lawful) (hdec : dec.Lawful) {args : RecordArgs}
    {answer : Except Nat (Response http)} {script : List SendAttempt} {fault : Option IoError}
    (opened : Except IoError Unit)
    {fetch : RequestRecord http hyper.Body → Res RequestError (Dialog http)}
    (hfetch : ∀ r, recordRequest builder hyper dec args = .ok r → Fetch dec contentLength
      (recordTunables tempDir) script fault r.prolog answer (fetch r))
    (hio : (SinkCore.new .empty (recordTunables tempDir).toFutioTunables script).Uninterrupted)
    {out : OutFile} (hout : out.Calm) :
    RecordEnds builder hyper dec cr tempDir contentLength args answer script fault opened out
      (record builder hyper dec cr tempDir args fetch opened out) := by
  unfold record
  cases hreq : recordRequest builder hyper dec args with
  | error he =>
    rw [Prog.bind_of_err (call_error he out)]
    exact .failed (.inl ⟨he, rfl, hreq⟩)
  | ok r =>
    rw [Prog.bind_of_ok (call_value r out)]
    have hended : (∃ res d, answer = .ok res ∧ fetch r = .ok d ∧
        Whole dec contentLength (recordTunables tempDir).image r.prolog res d) ∨
        ∃ e, fetch r = .err e ∧
          Caused contentLength (recordTunables tempDir) script fault answer e := by
      have hf := hfetch r hreq
      generalize fetch r = x at hf
      cases hf with
      | joined hx h => exact requestDialog_ends hio h
      | joinError code h =>
        -- The request does not panic.
        rcases @requestDialog_ends _ _ _ _ _ _ hio _ _ _ h with ⟨_, _, -, hx, -⟩ | ⟨_, hx, -⟩ <;>
          cases hx
    rcases hended with ⟨res, d, hres, hd, hwhole⟩ | ⟨e, he, hcaused⟩
    swap
    · rw [Prog.bind_of_err (call_err he out)]
      exact .failed (.inr (.inl ⟨e, rfl, hcaused⟩))
    rw [Prog.bind_of_ok (call_ok hd out)]
    rcases @decodeRecorded_ends http dec tempDir contentLength hdec args.decode _ _ _ _ hwhole with
      ⟨d', hdecode, hready⟩ | ⟨e, hdecode, hd, hcaused⟩
    swap
    · rw [hdecode, Prog.bind_of_err (Prog.ofRes_run _ _)]
      exact .failed (.inr (.inr (.inl ⟨hd, res, hres, hcaused⟩)))
    rw [hdecode, Prog.bind_of_ok (Prog.ofRes_run _ _)]
    cases opened with
    | error io =>
      rw [Prog.bind_of_err (call_error io out)]
      exact .failed (.inr (.inr (.inr (.inl ⟨io, rfl, rfl⟩))))
    | ok u =>
      rw [Prog.bind_of_ok (call_value u out)]
      cases hrec : Record.tryFrom http d' with
      | error e =>
        rw [Prog.bind_of_err (call_error e out)]
        have hnone := tryFrom_error hrec
        rw [hready.pro_eq, hready.version_eq, hready.status_eq, hready.decoded_eq] at hnone
        exact .failed (.inr (.inr (.inr (.inr ⟨r, res, e, rfl, hreq, hres, hnone⟩))))
      | ok rec =>
        rw [Prog.bind_of_ok (call_value rec out)]
        obtain ⟨body, hbody, hback⟩ := hready.body
        have hholds := tryFrom_holds hrec (hready.pro_eq ▸ recordRequest_body hreq) hback
        have hof : OfResponse dec args.decode r.prolog res
            ⟨rec.metaHeaders, d'.pro.reqHeaders, [], d'.epi.resHeaders, body⟩ :=
          ⟨hready.complete, ⟨d', describes_of hl hrec, hready.pro_eq, hready.version_eq,
            hready.status_eq, hready.decoded_eq⟩, hready.pro_eq ▸ rfl, rfl, hready.headers_eq, hbody⟩
        rcases @write_ends cr rec _ hholds (args.strategy rec) out hout with
          ⟨f, out', hw, hcontent, hf, hmode⟩ | ⟨hover, msg, out', hw⟩
        · rw [Prog.bind_of_ok hw]
          exact .archived ⟨⟨r, res, hreq, hres, hof⟩, hf, rec, hholds, hmode⟩ hcontent
        · rw [Prog.bind_of_panic hw]
          exact .exceeds ⟨r, res, _, rec, hreq, hres, hof, hholds, hover⟩

/-! ## Any number of runs -/

/-- A run of `record`: its arguments, what it meets, and its result. -/
structure RecordRun (http : HttpTypes) where
  args : RecordArgs
  answer : Except Nat (Response http)
  script : List SendAttempt
  fault : Option IoError
  opened : Except IoError Unit
  result : Res RecordFlaw Unit

/-- Runs of `record`, one after the other, on a file. Each run opens it anew. -/
inductive Recordings (builder : HttpBuilder http) (hyper : Hyper) (dec : Decoders) (cr : Crates)
    (tempDir : TempDir) (contentLength : HeaderMap → Option (Except Nat Nat)) :
    Bytes → List (RecordRun http) → Bytes → Prop
  | done (content : Bytes) :
      Recordings builder hyper dec cr tempDir contentLength content [] content
  | next {run : RecordRun http} {runs : List (RecordRun http)} {content : Bytes}
      {fetch : RequestRecord http hyper.Body → Res RequestError (Dialog http)} {out out' : OutFile}
      (hfetch : ∀ r, recordRequest builder hyper dec run.args = .ok r → Fetch dec contentLength
        (recordTunables tempDir) run.script run.fault r.prolog run.answer (fetch r))
      (hout : out.Calm)
      (hrun : record builder hyper dec cr tempDir run.args fetch run.opened out =
        (run.result, out'))
      (hrest : Recordings builder hyper dec cr tempDir contentLength out'.content runs content) :
      Recordings builder hyper dec cr tempDir contentLength out.content (run :: runs) content

/-- What a run leaves in the file: a frame with the response, or nothing. -/
inductive Leaves (builder : HttpBuilder http) (hyper : Hyper) (dec : Decoders) (cr : Crates)
    (tempDir : TempDir) (contentLength : HeaderMap → Option (Except Nat Nat)) (run : RecordRun http) :
    List (Frame × Contents) → Prop
  | archived {f : Frame} {c : Contents} (hresult : run.result = .ok ())
      (h : Archived builder hyper dec cr run.args run.answer f c) :
      Leaves builder hyper dec cr tempDir contentLength run [(f, c)]
  | failed {e : RecordFlaw} (hresult : run.result = .err e)
      (h : RecordCaused builder hyper dec tempDir contentLength run.args run.answer run.script
        run.fault run.opened e) : Leaves builder hyper dec cr tempDir contentLength run []

/-- **Runs add up**: the file grows by what each of them leaves. -/
theorem Recordings.leaves (hl : http.Lawful) (hdec : dec.Lawful) {runs : List (RecordRun http)}
    {content content' : Bytes}
    (h : Recordings builder hyper dec cr tempDir contentLength content runs content')
    (hio : ∀ run ∈ runs, (SinkCore.new .empty (recordTunables tempDir).toFutioTunables
      run.script).Uninterrupted)
    (hpanic : ∀ run ∈ runs, ∀ msg, run.result ≠ .panic msg) :
    ∃ left, List.Forall₂ (Leaves builder hyper dec cr tempDir contentLength) runs left ∧
      content' = content ++ archive (left.flatten.map Prod.fst) := by
  induction h with
  | done => exact ⟨[], .nil, (List.append_nil _).symm⟩
  | @next run runs content fetch out out' hfetch hout hrun hrest ih =>
    obtain ⟨left, hall, hcontent⟩ := ih (fun r hr => hio r (List.mem_cons_of_mem _ hr))
      (fun r hr => hpanic r (List.mem_cons_of_mem _ hr))
    have hends := @record_ends http builder hyper dec cr tempDir contentLength hl hdec _ _ _ _
      run.opened _ hfetch (hio run List.mem_cons_self) out hout
    rw [hrun] at hends
    generalize hx : (run.result, out') = x at hends
    cases hends with
    | @archived f c out₁ ha hgrown =>
      obtain ⟨hresult, rfl⟩ := Prod.mk.inj hx
      refine ⟨[(f, c)] :: left, .cons (.archived hresult ha) hall, ?_⟩
      rw [hcontent, hgrown, List.append_assoc]
      rfl
    | failed hcaused =>
      obtain ⟨hresult, rfl⟩ := Prod.mk.inj hx
      exact ⟨[] :: left, .cons (.failed hresult hcaused) hall, hcontent⟩
    | exceeds hover =>
      obtain ⟨hresult, -⟩ := Prod.mk.inj hx
      exact absurd hresult (hpanic run List.mem_cons_self _)

/-- A run panics only over a response that is over the limits of a record. -/
theorem Recordings.exceeds (hl : http.Lawful) (hdec : dec.Lawful) {runs : List (RecordRun http)}
    {content content' : Bytes}
    (h : Recordings builder hyper dec cr tempDir contentLength content runs content')
    (hio : ∀ run ∈ runs, (SinkCore.new .empty (recordTunables tempDir).toFutioTunables
      run.script).Uninterrupted) :
    ∀ run ∈ runs, ∀ msg, run.result = .panic msg →
      Exceeds builder hyper dec cr run.args run.answer := by
  induction h with
  | done => exact fun run hrun => absurd hrun List.not_mem_nil
  | @next run runs content fetch out out' hfetch hout hrun hrest ih =>
    intro r hr msg hresult
    rcases List.mem_cons.mp hr with rfl | hr
    · have hends := @record_ends http builder hyper dec cr tempDir contentLength hl hdec _ _ _ _
        r.opened _ hfetch (hio r List.mem_cons_self) out hout
      rw [hrun, hresult] at hends
      cases hends with
      | exceeds hover => exact hover
    · exact ih (fun r hr => hio r (List.mem_cons_of_mem _ hr)) r hr msg hresult

/-- What runs leave are frames with their contents. -/
theorem leaves_holds {runs : List (RecordRun http)} {left : List (List (Frame × Contents))}
    (h : List.Forall₂ (Leaves builder hyper dec cr tempDir contentLength) runs left) :
    ∀ p ∈ left.flatten, p.1.Holds cr p.2 := by
  induction h with
  | nil => exact fun p hp => absurd hp List.not_mem_nil
  | @cons run l runs left hrun _ ih =>
    intro p hp
    rcases List.mem_append.mp (List.flatten_cons ▸ hp) with hp | hp
    · cases hrun with
      | archived hresult ha =>
        rw [List.mem_singleton.mp hp]
        exact ha.holds
      | failed hresult hc => exact absurd hp List.not_mem_nil
    · exact ih p hp

/-- **Recordings are archived.** After any runs of `record` on a file, there is behind what was in it
one record for each run that succeeded, in order and with its response, and nothing of a run that
failed, which says of what. If it was an archive, all of it can be read, when the records can be. -/
theorem recordings_archived (hl : http.Lawful) (hdec : dec.Lawful) (hcodec : cr.CodecLawful)
    {runs : List (RecordRun http)} {content content' : Bytes}
    (h : Recordings builder hyper dec cr tempDir contentLength content runs content')
    (hio : ∀ run ∈ runs, (SinkCore.new .empty (recordTunables tempDir).toFutioTunables
      run.script).Uninterrupted) :
    (∀ run ∈ runs, ∀ msg, run.result = .panic msg →
      Exceeds builder hyper dec cr run.args run.answer) ∧
    ((∀ run ∈ runs, ∀ msg, run.result ≠ .panic msg) →
      ∃ left, List.Forall₂ (Leaves builder hyper dec cr tempDir contentLength) runs left ∧
        content' = content ++ archive (left.flatten.map Prod.fst) ∧
        ∀ (tune : Tunables) (old : ArchiveFile cr tune) (file : File), old.file.content = content →
          (∀ p ∈ left.flatten, Readable cr tune p.1.head.compress p.2) →
          file.Own → file.content = content' →
          ∃ rs rp rp', BodyArchive.Reads cr tune ⟨file, 0⟩ rs rp ∧
            List.Forall₂ Record.Holds (rs.map Prod.snd)
              (old.contents ++ left.flatten.map Prod.snd) ∧
            read cr tune rp = (.ok none, rp')) := by
  refine ⟨h.exceeds hl hdec hio, ?_⟩
  intro hpanic
  obtain ⟨left, hall, hcontent⟩ := h.leaves hl hdec hio hpanic
  refine ⟨left, hall, hcontent, ?_⟩
  intro tune old file hold hreadable hown hfile
  have hreads : List.Forall₂ (Frame.Reads cr tune) (left.flatten.map Prod.fst)
      (left.flatten.map Prod.snd) := by
    rw [List.forall₂_map_left_iff, List.forall₂_map_right_iff, List.forall₂_same]
    exact fun p hp => ⟨leaves_holds hall p hp, hreadable p hp⟩
  have hboth : file.content = archive old.frames ++ archive (left.flatten.map Prod.fst) := by
    rw [hfile, hcontent, ← hold, old.content_eq]
  obtain ⟨new, rfl, -, hnew⟩ := archive_file_append old.reads hreads hown hboth
  rw [← hnew]
  exact new.read_all hcodec

end Recorded

/-! ## Two runs -/

/-- The response in one chunk, as a dialog. -/
def sampleFetch (r : RequestRecord sampleHttp HyperContent) : Res RequestError (Dialog sampleHttp) :=
  .ok ⟨r.prolog, ⟨.http11, Sample.chunkResponse.status, .ofList [], .fromSlice [65, 66], []⟩⟩

theorem sampleFetch_joined (r : RequestRecord sampleHttp HyperContent) :
    Fetch Sample.decoders (fun _ => none) (recordTunables Tunables.calmDir) [] none r.prolog
      (.ok Sample.chunkResponse) (sampleFetch r) := by
  have hcx : (⟨0, .ready, true⟩ : Context).Allowed := by decide
  have hnew : Forwards Incoming.supply asyncBodySink Sample.chunkResponse.body
      (asyncBodySink.new (SinkCore.new (.withRam (recordTunables Tunables.calmDir).image.maxBodyRam)
        (recordTunables Tunables.calmDir).toFutioTunables [])) [] false [] false _ _ := .start
  have hitem := hnew.item [65, 66] (.chunk [65, 66] [] none)
  have hready := hitem.poll .ready ⟨0, .ready, true⟩ hcx rfl (.inr rfl)
  have hend := (hready.send rfl).ends .done
  refine .joined (fun msg h => by cases h) ?_
  exact .prepared rfl (.received rfl .direct hend hcx rfl rfl)

/-- One run with a line break in a header, and one that is answered. -/
def sampleRuns : List (RecordRun sampleHttp) :=
  [⟨⟨ascii "/", some [10], false, fun _ => .plain⟩, .ok Sample.chunkResponse, [], none, .ok (),
      .err (.http 0)⟩,
    ⟨⟨ascii "/", some [42], false, fun _ => .plain⟩, .ok Sample.chunkResponse, [], none, .ok (),
      .ok ()⟩]

/-- There is one record in the end. -/
theorem sampleRuns_archived : ∃ (content : Bytes) (f : Frame) (c : Contents),
    Recordings (Sample.httpBuilder sampleHttp) Sample.hyper Sample.decoders sampleCrates
      Tunables.calmDir (fun _ => none) [] sampleRuns content ∧
      content = f.bytes ∧ f.Holds sampleCrates c ∧ c.resBody = [65, 66] := by
  have hfirst : record (Sample.httpBuilder sampleHttp) Sample.hyper Sample.decoders sampleCrates
      Tunables.calmDir ⟨ascii "/", some [10], false, fun _ => .plain⟩ sampleFetch (.ok ())
        OutFile.empty = (.err (.http 0), OutFile.empty) := by
    decide +kernel
  have hsecond : (record (Sample.httpBuilder sampleHttp) Sample.hyper Sample.decoders sampleCrates
      Tunables.calmDir ⟨ascii "/", some [42], false, fun _ => .plain⟩ sampleFetch (.ok ())
        OutFile.empty).1 = .ok () := by
    decide +kernel
  rcases hrun : record (Sample.httpBuilder sampleHttp) Sample.hyper Sample.decoders sampleCrates
    Tunables.calmDir ⟨ascii "/", some [42], false, fun _ => .plain⟩ sampleFetch (.ok ())
      OutFile.empty with ⟨x, out⟩
  rw [hrun] at hsecond
  obtain rfl : x = .ok () := hsecond
  have hlast : Recordings (Sample.httpBuilder sampleHttp) Sample.hyper Sample.decoders sampleCrates
      Tunables.calmDir (fun _ => none) OutFile.empty.content
      [⟨⟨ascii "/", some [42], false, fun _ => .plain⟩, .ok Sample.chunkResponse, [], none, .ok (),
        .ok ()⟩] out.content :=
    .next (fun r _ => sampleFetch_joined r) rfl hrun (.done _)
  have hruns : Recordings (Sample.httpBuilder sampleHttp) Sample.hyper Sample.decoders sampleCrates
      Tunables.calmDir (fun _ => none) OutFile.empty.content sampleRuns out.content :=
    .next (fun r _ => sampleFetch_joined r) rfl hfirst hlast
  obtain ⟨-, hleft⟩ := recordings_archived sampleHttp_lawful Sample.decoders_lawful
    sampleCrates_codecLawful hruns (by simp [sampleRuns, SinkCore.Uninterrupted, SinkCore.new])
  obtain ⟨left, hall, hcontent, -⟩ := hleft (by simp [sampleRuns])
  cases hall with
  | cons h₁ hall =>
    cases hall with
    | cons h₂ hall =>
      cases hall
      cases h₁ with
      | archived hresult _ => cases hresult
      | failed _ _ =>
        cases h₂ with
        | failed hresult _ => cases hresult
        | @archived f c _ ha =>
          refine ⟨out.content, f, c, hruns, ?_, ha.holds, ?_⟩
          · rw [hcontent]
            exact List.append_nil _
          · obtain ⟨r, res, -, hres, hof⟩ := ha.response
            cases hres
            exact (Option.some.inj hof.res_body).symm

end BodyArchive.Cli
