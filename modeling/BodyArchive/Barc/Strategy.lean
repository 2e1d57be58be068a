import BodyArchive.Barc.Convert
import BodyArchive.Barc.Sample

/-!
# Compression strategies

A strategy compresses a record with enough compressible bytes: those of the bodies with a
compressible type, and those of the header blocks. `is_compressible` counts the bodies first, and
the blocks one by one only as long as the minimum is not reached. The main result is that leaving
off so early makes no difference to the sum over everything (`is_compressible_total`).
-/

namespace BodyArchive

/-- The largest `u64`. -/
def u64Max : Nat := 2 ^ 64 - 1

/-- What a content type is parsed with: `HeaderValue::to_str`, and the *mime* crate's parser, which
gives the type and the subtype in lower case. -/
structure MimeCrate where
  toStr : HeaderValue → Option Bytes
  parse : Bytes → Option (Bytes × Bytes)

/-- The methods a strategy has of its own. -/
structure CompressStrategy where
  minLen : Nat
  /-- `(len as f64 * self.non_compressible_coef()) as u64`. -/
  discount : Nat → Nat
  checkIdentity : Bool
  min_len_le : minLen ≤ u64Max

/-- The running lengths of `is_compressible`. -/
structure Tally where
  clen : Nat
  minLen : Nat

/-! ## The test -/

def contentType : HeaderName := ⟨ascii "content-type", by decide +kernel⟩

/-- The bytes of the lines, counted. -/
def lenOfHeaders (headers : HeaderMap) : Nat :=
  headers.iter.foldl (fun size e => size + e.1.bytes.length + e.2.bytes.length + 4) 0

def isIdentity (decoded : Option HeaderValue) : Bool :=
  match decoded with
  | some hv => decide (ascii "identity" <:+ hv.bytes)
  | none => false

section Types

variable (mime : MimeCrate)

def isCompressibleTypeStr (ctypeStr : Bytes) : Bool :=
  match mime.parse (trimStr ctypeStr) with
  | some (type, subtype) =>
    if type = ascii "text" then true
    else if type = ascii "application" then
      [ascii "html", ascii "javascript", ascii "json", ascii "xml", ascii "atom", ascii "rss",
        ascii "x-font-opentype", ascii "x-font-truetype", ascii "x-font-ttf",
        ascii "xhtml"].contains subtype
    else if type = ascii "image" then subtype == ascii "svg"
    else if type = ascii "font" then
      [ascii "opentype", ascii "otf", ascii "ttf"].contains subtype
    else false
  | none => false

def isCompressibleType (ctype : Option HeaderValue) : Bool :=
  match ctype with
  | some v =>
    match mime.toStr v with
    | some ctypeStr => isCompressibleTypeStr mime ctypeStr
    | none => false
  | none => false

end Types

namespace CompressStrategy

variable (strategy : CompressStrategy) (mime : MimeCrate)

/-- `clen += len`. -/
def addLen (len : Nat) : Prog Tally Empty Unit := fun t =>
  if t.clen + len ≤ u64Max then (.ok (), { t with clen := t.clen + len })
  else (.panic "attempt to add with overflow", t)

/-- `min_len.saturating_add(…)`. -/
def discountLen (len : Nat) : Prog Tally Empty Unit := fun t =>
  (.ok (), { t with minLen := min (t.minLen + strategy.discount len) u64Max })

/-- A body, on one side or the other. -/
def countBody (len : Nat) (compressible : Bool) : Prog Tally Empty Unit :=
  if 0 < len then
    if compressible then addLen len else discountLen strategy len
  else pure ()

/-- Where the length became sufficient, if it did by now. -/
def reached (stage : String) : Prog Tally Empty (Option String) := do
  let t ← Prog.get
  return if t.minLen ≤ t.clen then some stage else none

/-- A header block, if it is still needed. -/
def countHeaders (headers : HeaderMap) (stage : String) (sufficient : Option String) :
    Prog Tally Empty (Option String) :=
  if sufficient.isNone then do
    addLen (lenOfHeaders headers)
    reached stage
  else pure sufficient

def resCompressible (rec : Record) : Bool :=
  (!strategy.checkIdentity || isIdentity (rec.metaHeaders.get hnameMetaResDecoded)) &&
    isCompressibleType mime (rec.resHeaders.get contentType)

def reqCompressible (rec : Record) : Bool :=
  isCompressibleType mime (rec.reqHeaders.get contentType)

/-- The steps of `is_compressible`, on its two running lengths. -/
def tally (rec : Record) : Prog Tally Empty Bool := do
  countBody strategy rec.resBody.len (resCompressible strategy mime rec)
  countBody strategy rec.reqBody.len (reqCompressible mime rec)
  let sufficient ← reached "bodies"
  let sufficient ← countHeaders rec.resHeaders "res_headers" sufficient
  let sufficient ← countHeaders rec.reqHeaders "req_headers" sufficient
  let sufficient ← countHeaders rec.metaHeaders "meta (all)" sufficient
  return sufficient.isSome

def isCompressible (rec : Record) : Res Empty Bool :=
  (tally strategy mime rec ⟨0, strategy.minLen⟩).1

/-- `wrap_encoder`: that of `GzipCompressStrategy` and `BrotliCompressStrategy`, for the encoder of
theirs. -/
def wrapEncoder (enc : Encoder) (rec : Record) : Res Empty Encoder :=
  match isCompressible strategy mime rec with
  | .ok true => .ok enc
  | .ok false => .ok .plain
  | .panic msg => .panic msg

/-! ## The plain total -/

/-- The bytes of a body that count. -/
def counted (len : Nat) (compressible : Bool) : Nat := if compressible then len else 0

/-- What a body adds to the minimum. -/
def discounted (len : Nat) (compressible : Bool) : Nat :=
  if 0 < len ∧ compressible = false then strategy.discount len else 0

/-- The compressible bytes of a record: of its bodies, and of its header blocks as they are written
without CRLF padding. -/
def total (rec : Record) : Nat :=
  counted rec.resBody.len (resCompressible strategy mime rec) +
    counted rec.reqBody.len (reqCompressible mime rec) +
    (block false rec.resHeaders).length + (block false rec.reqHeaders).length +
    (block false rec.metaHeaders).length

/-- The minimum, and the discounts. -/
def needed (rec : Record) : Nat :=
  min (strategy.minLen +
    discounted strategy rec.resBody.len (resCompressible strategy mime rec) +
    discounted strategy rec.reqBody.len (reqCompressible mime rec)) u64Max

end CompressStrategy

/-! ## The two lengths of a header block -/

theorem foldl_line_lengths (es : List (HeaderName × HeaderValue)) (size : Nat) :
    es.foldl (fun size e => size + e.1.bytes.length + e.2.bytes.length + 4) size =
      size + (es.flatMap headerLine).length := by
  induction es generalizing size with
  | nil => rfl
  | cons e es ih =>
    have hsep : (ascii ": ").length = 2 := rfl
    rw [List.foldl_cons, ih, List.flatMap_cons, List.length_append, headerLine]
    simp only [List.length_append, crlf_length, hsep]
    omega

/-- **`len_of_headers`** is the length of the block that `write_headers` writes. -/
theorem lenOfHeaders_eq (headers : HeaderMap) :
    lenOfHeaders headers = (block false headers).length := by
  rw [lenOfHeaders, foldl_line_lengths, Nat.zero_add, block, pad_false, headerLines]

section Write

variable {W : Type} [Write W]

theorem writeAllLen_eq_ok {bs : Bytes} {w w' : W} {n : Nat} (h : writeAllLen bs w = (.ok n, w')) :
    n = bs.length := by
  obtain ⟨u, w₁, -, hret⟩ := Prog.bind_eq_ok h
  cases hret
  rfl

theorem writeLines_eq_ok (es : List (HeaderName × HeaderValue)) {size n : Nat} {w w' : W}
    (h : writeLines size es w = (.ok n, w')) : n = size + (es.flatMap headerLine).length := by
  induction es generalizing size w with
  | nil =>
    cases h
    rfl
  | cons e es ih =>
    obtain ⟨key, value⟩ := e
    obtain ⟨n₁, w₁, h₁, hrest₁⟩ := Prog.bind_eq_ok h
    obtain ⟨n₂, w₂, h₂, hrest₂⟩ := Prog.bind_eq_ok hrest₁
    obtain ⟨n₃, w₃, h₃, hrest₃⟩ := Prog.bind_eq_ok hrest₂
    obtain ⟨n₄, w₄, h₄, hrest₄⟩ := Prog.bind_eq_ok hrest₃
    rw [ih hrest₄, writeAllLen_eq_ok h₁, writeAllLen_eq_ok h₂, writeAllLen_eq_ok h₃,
      writeAllLen_eq_ok h₄, List.flatMap_cons, headerLine]
    simp only [List.length_append]
    omega

/-- Whatever the writer, the length reported is that of the block. -/
theorem writeHeaders_eq_ok {headers : HeaderMap} {w w' : W} {n : Nat}
    (h : writeHeaders false headers w = (.ok n, w')) : n = (block false headers).length := by
  obtain ⟨size, w₁, hlines, hrest⟩ := Prog.bind_eq_ok h
  obtain ⟨size', w₂, hpad, hrest'⟩ := Prog.bind_eq_ok hrest
  obtain ⟨u, w₃, hassert, hret⟩ := Prog.bind_eq_ok hrest'
  cases hret
  have hsize := writeLines_eq_ok headers.iter hlines
  rw [Nat.zero_add] at hsize
  cases hpad
  exact hsize

end Write

namespace CompressStrategy

variable {strategy : CompressStrategy} {mime : MimeCrate}

/-! ## Leaving off early -/

theorem addLen_run {t : Tally} {len : Nat} (h : t.clen + len ≤ u64Max) :
    addLen len t = (.ok (), { t with clen := t.clen + len }) := by
  rw [addLen, if_pos h]

theorem countBody_run {t : Tally} {len : Nat} {compressible : Bool}
    (h : t.clen + counted len compressible ≤ u64Max) (hmin : t.minLen ≤ u64Max) :
    countBody strategy len compressible t = (.ok (), ⟨t.clen + counted len compressible,
      min (t.minLen + discounted strategy len compressible) u64Max⟩) := by
  unfold countBody
  by_cases hlen : 0 < len
  · cases compressible with
    | true =>
      have hadd := addLen_run h
      simp only [counted, if_true] at hadd
      simp [hlen, counted, discounted, hadd, hmin]
    | false => simp [hlen, counted, discounted, discountLen]
  · have hzero : len = 0 := Nat.eq_zero_of_not_pos hlen
    subst hzero
    simp [counted, discounted, hmin]

/-- Whether the total so far suffices is known, and the total is there as long as it does not. -/
def Decided (needed sum : Nat) (sufficient : Option String) (t : Tally) : Prop :=
  t.minLen = needed ∧ sufficient.isSome = decide (needed ≤ sum) ∧
    (sufficient = none → t.clen = sum)

theorem reached_decided {t : Tally} (stage : String) :
    ∃ sufficient, reached stage t = (.ok sufficient, t) ∧
      Decided t.minLen t.clen sufficient t := by
  refine ⟨if t.minLen ≤ t.clen then some stage else none, rfl, rfl, ?_, fun _ => rfl⟩
  by_cases h : t.minLen ≤ t.clen
  · simp [h]
  · simp [h]

/-- Another block: it can only matter while the total does not suffice. -/
theorem countHeaders_decided {needed sum : Nat} {sufficient : Option String} {t : Tally}
    (h : Decided needed sum sufficient t) (headers : HeaderMap) (stage : String)
    (hsum : sum + (block false headers).length ≤ u64Max) :
    ∃ sufficient' t', countHeaders headers stage sufficient t = (.ok sufficient', t') ∧
      Decided needed (sum + (block false headers).length) sufficient' t' := by
  obtain ⟨rfl, hsome, hclen⟩ := h
  cases sufficient with
  | some s =>
    have henough : t.minLen ≤ sum := of_decide_eq_true hsome.symm
    refine ⟨some s, t, rfl, rfl, ?_, fun hnone => by cases hnone⟩
    rw [decide_eq_true (Nat.le_trans henough (Nat.le_add_right _ _))]
    rfl
  | none =>
    have hsum' := hclen rfl
    subst hsum'
    obtain ⟨sufficient', hrun, hdecided⟩ :=
      reached_decided (t := { t with clen := t.clen + (block false headers).length }) stage
    refine ⟨sufficient', _, ?_, hdecided⟩
    unfold countHeaders
    rw [lenOfHeaders_eq]
    show (addLen _ >>= fun _ => reached stage) t = _
    rw [Prog.bind_of_ok (addLen_run hsum), hrun]

/-- **Both bodies**: one running length is their compressible bytes, the other what is needed. -/
theorem bodies_run (rec : Record) {res req : Bool}
    (h : counted rec.resBody.len res + counted rec.reqBody.len req ≤ u64Max) :
    (do countBody strategy rec.resBody.len res
        countBody strategy rec.reqBody.len req : Prog Tally Empty Unit) ⟨0, strategy.minLen⟩ =
      (.ok (), ⟨counted rec.resBody.len res + counted rec.reqBody.len req,
        min (strategy.minLen + discounted strategy rec.resBody.len res +
          discounted strategy rec.reqBody.len req) u64Max⟩) := by
  have hres : countBody strategy rec.resBody.len res ⟨0, strategy.minLen⟩ =
      (.ok (), ⟨0 + counted rec.resBody.len res,
        min (strategy.minLen + discounted strategy rec.resBody.len res) u64Max⟩) := by
    apply countBody_run
    · dsimp only
      omega
    · exact strategy.min_len_le
  rw [Nat.zero_add] at hres
  -- a saturated minimum stays saturated
  have hsat : ∀ a b : Nat, min (min a u64Max + b) u64Max = min (a + b) u64Max := by
    intro a b
    omega
  rw [Prog.bind_of_ok hres, countBody_run h (Nat.min_le_right _ _), hsat]

theorem tally_run (rec : Record) (h : total strategy mime rec ≤ u64Max) :
    ∃ t, tally strategy mime rec ⟨0, strategy.minLen⟩ =
      (.ok (decide (needed strategy mime rec ≤ total strategy mime rec)), t) := by
  unfold total at h ⊢
  have hbodies := @bodies_run strategy rec (resCompressible strategy mime rec)
    (reqCompressible mime rec) (by omega)
  generalize ht : (⟨counted rec.resBody.len (resCompressible strategy mime rec) +
    counted rec.reqBody.len (reqCompressible mime rec), _⟩ : Tally) = t₁ at hbodies
  obtain ⟨sufficient₁, hrun₁, hdecided₁⟩ := @reached_decided t₁ "bodies"
  subst ht
  obtain ⟨sufficient₂, t₂, hrun₂, hdecided₂⟩ :=
    countHeaders_decided hdecided₁ rec.resHeaders "res_headers" (by dsimp only; omega)
  obtain ⟨sufficient₃, t₃, hrun₃, hdecided₃⟩ :=
    countHeaders_decided hdecided₂ rec.reqHeaders "req_headers" (by dsimp only; omega)
  obtain ⟨sufficient₄, t₄, hrun₄, -, hsome, -⟩ :=
    countHeaders_decided hdecided₃ rec.metaHeaders "meta (all)" (by dsimp only; omega)
  obtain ⟨u, s₁, hres, hreq⟩ := Prog.bind_eq_ok hbodies
  refine ⟨t₄, ?_⟩
  unfold tally
  rw [Prog.bind_of_ok hres, Prog.bind_of_ok hreq, Prog.bind_of_ok hrun₁, Prog.bind_of_ok hrun₂,
    Prog.bind_of_ok hrun₃, Prog.bind_of_ok hrun₄]
  show (Res.ok sufficient₄.isSome, t₄) = _
  rw [hsome]
  rfl

/-- **The early-exit compression test equals the plain total.** A record is compressible if its
compressible bytes are at least what is needed, whichever step decides; and the length of a header
block in that total is the one that `write_headers` reports. -/
theorem is_compressible_total (strategy : CompressStrategy) (mime : MimeCrate) (rec : Record)
    (h : total strategy mime rec ≤ u64Max) :
    isCompressible strategy mime rec =
        .ok (decide (needed strategy mime rec ≤ total strategy mime rec)) ∧
      ∀ {W : Type} [Write W] (headers : HeaderMap) {w : W},
        (∀ {n w'}, writeHeaders false headers w = (.ok n, w') → n = lenOfHeaders headers) ∧
        ∀ {G : W → Bytes → Prop} {got : Bytes}, Accepts G → G w got →
          Prog.OkElsePanic (lenOfHeaders headers ≤ v2MaxHblock)
            (fun n w' => n = lenOfHeaders headers ∧ G w' (got ++ block false headers))
            (writeHeaders false headers w) := by
  constructor
  · obtain ⟨t, hrun⟩ := tally_run rec h
    rw [isCompressible, hrun]
  · intro W _ headers w
    rw [lenOfHeaders_eq]
    exact ⟨writeHeaders_eq_ok, fun hG hw => writeHeaders_accepts hG hw false headers⟩

/-- What a strategy of gzip or brotli wraps the file with. -/
theorem wrapEncoder_total {rec : Record} (h : total strategy mime rec ≤ u64Max) (enc : Encoder) :
    wrapEncoder strategy mime enc rec =
      .ok (if needed strategy mime rec ≤ total strategy mime rec then enc else .plain) := by
  obtain ⟨t, hrun⟩ := tally_run rec h
  rw [wrapEncoder, isCompressible, hrun]
  by_cases hneeded : needed strategy mime rec ≤ total strategy mime rec
  · simp [hneeded]
  · simp [hneeded]

end CompressStrategy

namespace Sample

/-! ## A record that its response headers decide -/

/-- Types without parameters or suffix. -/
def mime : MimeCrate where
  toStr v := if v.bytes.all isStrByte then some v.bytes else none
  parse s :=
    match s.span (fun b => b != 47) with
    | (type, _ :: subtype) => some (type.map lower, subtype.map lower)
    | (_, []) => none

def textHtml : HeaderValue := ⟨ascii "text/html", by decide +kernel⟩

/-- The request body has no type. -/
def htmlRecord : Record :=
  ⟨.dialog, .empty, .empty, ⟨.ram [[120, 121]], 2⟩, .ofList [(contentType, textHtml)],
    ⟨.ram [[60, 112, 62]], 3⟩⟩

/-- A minimum over the bodies alone. -/
def halfStrategy : CompressStrategy := ⟨20, fun len => len / 2, false, by decide⟩

theorem html_compressible :
    halfStrategy.isCompressible mime htmlRecord =
        .ok (decide (halfStrategy.needed mime htmlRecord ≤ halfStrategy.total mime htmlRecord)) ∧
      ∀ {W : Type} [Write W] (headers : HeaderMap) {w : W},
        (∀ {n w'}, writeHeaders false headers w = (.ok n, w') → n = lenOfHeaders headers) ∧
        ∀ {G : W → Bytes → Prop} {got : Bytes}, Accepts G → G w got →
          Prog.OkElsePanic (lenOfHeaders headers ≤ v2MaxHblock)
            (fun n w' => n = lenOfHeaders headers ∧ G w' (got ++ block false headers))
            (writeHeaders false headers w) :=
  CompressStrategy.is_compressible_total halfStrategy mime htmlRecord (by decide +kernel)

example : halfStrategy.isCompressible mime htmlRecord = .ok true := by decide +kernel

end Sample

end BodyArchive
