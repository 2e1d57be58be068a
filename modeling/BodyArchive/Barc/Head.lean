import BodyArchive.Data.Hex
import BodyArchive.Http.Header
import BodyArchive.Body.Sink

/-!
# Record heads

The 54 bytes in front of every record: five lengths in hexadecimal, the record type and the
compression. `RecordHead.format` is what the writer puts there, `parseRecordHead` what the reader
makes of it, and a head within the size limits comes back from its format (`parse_format`).

A head is read by a loop of its own, which tells an empty file from a cut head;
`readRecordHead_rest` gives its result for any coming bytes.
-/

namespace BodyArchive

inductive RecordType where
  | reserved
  | dialog
  deriving DecidableEq, Repr

inductive Compression where
  | plain
  | gzip
  | brotli
  deriving DecidableEq, Repr

/-- The cause of an `InvalidHeader` error. -/
inductive Flaw where
  | tooManyHeaders
  | httparse (code : Nat)
  | headerName
  | headerValue
  deriving DecidableEq, Repr

inductive BarcError where
  | body (e : BodyError)
  | io (e : IoError)
  | unknownRecordType (b : UInt8)
  | unknownCompression (b : UInt8)
  | decoderUnsupported (c : Compression)
  | readIncompleteRecHead (size : Nat)
  | readInvalidRecHead
  | readInvalidRecHeadHex (d : UInt8)
  | invalidHeader (flaw : Flaw)
  deriving DecidableEq, Repr

namespace RecordType

def flag : RecordType → UInt8
  | .reserved => 82
  | .dialog => 68

def fromByte (f : UInt8) : Except BarcError RecordType :=
  if f = 82 then .ok .reserved
  else if f = 68 then .ok .dialog
  else .error (.unknownRecordType f)

theorem fromByte_flag (r : RecordType) : fromByte r.flag = .ok r := by
  cases r <;> rfl

end RecordType

namespace Compression

def flag : Compression → UInt8
  | .plain => 80
  | .gzip => 90
  | .brotli => 66

def fromByte (f : UInt8) : Except BarcError Compression :=
  if f = 80 then .ok .plain
  else if f = 90 then .ok .gzip
  else if f = 66 then .ok .brotli
  else .error (.unknownCompression f)

theorem fromByte_flag (c : Compression) : fromByte c.flag = .ok c := by
  cases c <;> rfl

end Compression

/-! ## Sizes -/

def v2HeadSize : Nat := 54

def v2MaxRecord : Nat := 0xffff_ffff_ffff

def v2MaxHblock : Nat := 0xf_ffff

def v2MaxReqBody : Nat := 0xff_ffff_ffff

def crlf : Bytes := [13, 10]

@[simp] theorem crlf_length : crlf.length = 2 := rfl

/-! ## The head and its format -/

/-- A record head; `metaH`, `reqH` and `resH` are header block lengths, `reqB` that of the
request body. The length of the response body is what remains of `len`. -/
structure RecordHead where
  len : Nat
  recType : RecordType
  compress : Compression
  metaH : Nat
  reqH : Nat
  reqB : Nat
  resH : Nat
  deriving DecidableEq, Repr

namespace RecordHead

/-- The place holder written first. -/
def v2Reserve : RecordHead := ⟨0, .reserved, .plain, 0, 0, 0, 0⟩

/-- The input ranges that `write_record_head` asserts. -/
structure Fits (h : RecordHead) : Prop where
  len_le : h.len ≤ v2MaxRecord
  meta_le : h.metaH ≤ v2MaxHblock
  req_le : h.reqH ≤ v2MaxHblock
  body_le : h.reqB ≤ v2MaxReqBody
  res_le : h.resH ≤ v2MaxHblock

/-- The ranges in the order of the assertions. -/
theorem fits_iff (h : RecordHead) : (h.len ≤ v2MaxRecord ∧ h.metaH ≤ v2MaxHblock ∧
    h.reqH ≤ v2MaxHblock ∧ h.reqB ≤ v2MaxReqBody ∧ h.resH ≤ v2MaxHblock) ↔ h.Fits :=
  ⟨fun ⟨h₁, h₂, h₃, h₄, h₅⟩ => ⟨h₁, h₂, h₃, h₄, h₅⟩, fun ⟨h₁, h₂, h₃, h₄, h₅⟩ => ⟨h₁, h₂, h₃, h₄, h₅⟩⟩

theorem v2Reserve_fits : v2Reserve.Fits :=
  ⟨Nat.zero_le _, Nat.zero_le _, Nat.zero_le _, Nat.zero_le _, Nat.zero_le _⟩

def format (h : RecordHead) : Bytes :=
  ascii "BARC2 " ++ hexPad 12 h.len ++ [32, h.recType.flag, h.compress.flag, 32] ++
    hexPad 5 h.metaH ++ [32] ++ hexPad 5 h.reqH ++ [32] ++ hexPad 10 h.reqB ++ [32] ++
    hexPad 5 h.resH ++ crlf ++ crlf

theorem format_eq (h : RecordHead) : h.format = [ascii "BARC2 ", hexPad 12 h.len, [32],
    [h.recType.flag], [h.compress.flag], [32], hexPad 5 h.metaH, [32], hexPad 5 h.reqH, [32],
    hexPad 10 h.reqB, [32], hexPad 5 h.resH, crlf, crlf].flatten := by
  simp [format]

/-- The widths of the fields of a head within the limits. -/
theorem Fits.widths {h : RecordHead} (hf : h.Fits) :
    (hexPad 12 h.len).length = 12 ∧ (hexPad 5 h.metaH).length = 5 ∧
      (hexPad 5 h.reqH).length = 5 ∧ (hexPad 10 h.reqB).length = 10 ∧
      (hexPad 5 h.resH).length = 5 := by
  obtain ⟨h₁, h₂, h₃, h₄, h₅⟩ := hf
  simp only [v2MaxRecord, v2MaxHblock, v2MaxReqBody] at h₁ h₂ h₃ h₄ h₅
  refine ⟨hexPad_length (by omega) ?_, hexPad_length (by omega) ?_, hexPad_length (by omega) ?_,
    hexPad_length (by omega) ?_, hexPad_length (by omega) ?_⟩ <;> omega

theorem Fits.format_length {h : RecordHead} (hf : h.Fits) : h.format.length = v2HeadSize := by
  obtain ⟨h₁, h₂, h₃, h₄, h₅⟩ := hf.widths
  have hm : (ascii "BARC2 ").length = 6 := rfl
  simp only [format, List.length_append, List.length_cons, List.length_nil, crlf_length, hm, h₁,
    h₂, h₃, h₄, h₅, v2HeadSize]

end RecordHead

/-! ## Parsing -/

/-- The bytes `buf[i..j]`. -/
def byteRange (buf : Bytes) (i j : Nat) : Bytes := (buf.take j).drop i

theorem byteRange_flatten (before : List Bytes) {f : Bytes} {rest : List Bytes} {i j : Nat}
    (hi : before.flatten.length = i) (hj : i + f.length = j) :
    byteRange (before ++ f :: rest).flatten i j = f := by
  subst hi hj
  rw [byteRange, List.flatten_append, List.flatten_cons, List.take_length_add_append,
    List.drop_left, List.take_left]

theorem getD_flatten (before : List Bytes) {b : UInt8} {rest : List Bytes} {i : Nat}
    (hi : before.flatten.length = i) : (before ++ [b] :: rest).flatten.getD i 0 = b := by
  subst hi
  simp

/-- A hexadecimal field of a head. -/
def parseHexField (buf : Bytes) (i j : Nat) : Except BarcError Nat :=
  match parseHex (byteRange buf i j) with
  | .ok n => .ok n
  | .error d => .error (.readInvalidRecHeadHex d)

/-- What `read_record_head` makes of 54 bytes. -/
def parseRecordHead (buf : Bytes) : Except BarcError RecordHead := do
  if byteRange buf 0 6 ≠ ascii "BARC2 " then throw .readInvalidRecHead
  let len ← parseHexField buf 6 18
  let recType ← RecordType.fromByte (buf.getD 19 0)
  let compress ← Compression.fromByte (buf.getD 20 0)
  let metaH ← parseHexField buf 22 27
  let reqH ← parseHexField buf 28 33
  let reqB ← parseHexField buf 34 44
  let resH ← parseHexField buf 45 50
  return ⟨len, recType, compress, metaH, reqH, reqB, resH⟩

/-- The fields of a head, at their places. -/
theorem format_fields {l m q b s : Bytes} {t c : UInt8} (hl : l.length = 12) (hm : m.length = 5)
    (hq : q.length = 5) (hb : b.length = 10) (hs : s.length = 5) {buf : Bytes}
    (h : buf = [ascii "BARC2 ", l, [32], [t], [c], [32], m, [32], q, [32], b, [32], s, crlf,
      crlf].flatten) :
    byteRange buf 0 6 = ascii "BARC2 " ∧ byteRange buf 6 18 = l ∧ buf.getD 19 0 = t ∧
      buf.getD 20 0 = c ∧ byteRange buf 22 27 = m ∧ byteRange buf 28 33 = q ∧
      byteRange buf 34 44 = b ∧ byteRange buf 45 50 = s := by
  have hx : (ascii "BARC2 ").length = 6 := rfl
  generalize ascii "BARC2 " = x at h hx
  subst h
  refine ⟨byteRange_flatten [] rfl ?_, byteRange_flatten [x] ?_ ?_, getD_flatten [x, l, [32]] ?_,
    getD_flatten [x, l, [32], [t]] ?_, byteRange_flatten [x, l, [32], [t], [c], [32]] ?_ ?_,
    byteRange_flatten [x, l, [32], [t], [c], [32], m, [32]] ?_ ?_,
    byteRange_flatten [x, l, [32], [t], [c], [32], m, [32], q, [32]] ?_ ?_,
    byteRange_flatten [x, l, [32], [t], [c], [32], m, [32], q, [32], b, [32]] ?_ ?_⟩
  all_goals
    try simp only [List.flatten_cons, List.flatten_nil, List.length_append, List.length_cons,
      List.length_nil]
    omega

theorem parseHexField_of {buf : Bytes} {i j w n : Nat} (h : byteRange buf i j = hexPad w n)
    (hw : 0 < w) (hn : n < 16 ^ w) : parseHexField buf i j = .ok n := by
  rw [parseHexField, h, parseHex_hexPad hw hn]

/-- **A head within the limits comes back from its format.** -/
theorem parse_format {h : RecordHead} (hf : h.Fits) : parseRecordHead h.format = .ok h := by
  obtain ⟨hl, hm, hq, hb, hs⟩ := hf.widths
  obtain ⟨l₁, l₂, l₃, l₄, l₅⟩ := hf
  simp only [v2MaxRecord, v2MaxHblock, v2MaxReqBody] at l₁ l₂ l₃ l₄ l₅
  obtain ⟨f₀, f₁, f₂, f₃, f₄, f₅, f₆, f₇⟩ := format_fields hl hm hq hb hs h.format_eq
  rw [parseRecordHead, f₀, f₂, f₃, parseHexField_of f₁ (by omega) (by omega),
    parseHexField_of f₄ (by omega) (by omega), parseHexField_of f₅ (by omega) (by omega),
    parseHexField_of f₆ (by omega) (by omega), parseHexField_of f₇ (by omega) (by omega),
    RecordType.fromByte_flag, Compression.fromByte_flag, if_neg (by simp)]
  rfl

/-! ## Writing a head -/

/-- The assertions on the input ranges. -/
def assertFits {σ : Type} (head : RecordHead) : Prog σ BarcError Unit := do
  Prog.assert (head.len ≤ v2MaxRecord) "len exceeded"
  Prog.assert (head.metaH ≤ v2MaxHblock) "meta exceeded"
  Prog.assert (head.reqH ≤ v2MaxHblock) "req_h exceeded"
  Prog.assert (head.reqB ≤ v2MaxReqBody) "req_b exceeded"
  Prog.assert (head.resH ≤ v2MaxHblock) "res_h exceeded"

theorem assertFits_ends {σ : Type} (head : RecordHead) (s : σ) :
    Prog.OkElsePanic head.Fits (fun _ s' => s' = s) (assertFits head s) := by
  refine Prog.OkElsePanic.congr ?_ head.fits_iff
  rw [assertFits]
  refine Prog.OkElsePanic.assert_bind fun _ => ?_
  refine Prog.OkElsePanic.assert_bind fun _ => ?_
  refine Prog.OkElsePanic.assert_bind fun _ => ?_
  exact Prog.OkElsePanic.assert_bind fun _ => .assert _ s

theorem assertFits_of {head : RecordHead} (hf : head.Fits) {σ : Type} (s : σ) :
    assertFits head s = (.ok (), s) := by
  rcases assertFits_ends head s with ⟨-, _, s', h, rfl⟩ | ⟨hn, -⟩
  · exact h
  · exact absurd hf hn

section Write

variable {W : Type} [Write W]

/-- `write_all_len`. -/
def writeAllLen (bs : Bytes) : Prog W BarcError Nat := do
  Prog.mapErr .io (writeAll bs)
  pure bs.length

def writeRecordHead (head : RecordHead) : Prog W BarcError Unit := do
  assertFits head
  let size ← writeAllLen head.format
  Prog.assert (size = v2HeadSize) "wrong record head size"

theorem writeAllLen_of {bs : Bytes} {w w' : W} (h : writeAll bs w = (.ok (), w')) :
    writeAllLen bs w = (.ok bs.length, w') := by
  rw [writeAllLen, Prog.bind_of_ok (Prog.mapErr_of_ok h)]
  rfl

/-- A head over the limits is not written. -/
theorem writeRecordHead_panics {head : RecordHead} (hf : ¬ head.Fits) (w : W) :
    ∃ msg w', writeRecordHead head w = (.panic msg, w') := by
  rcases assertFits_ends head w with ⟨hp, -⟩ | ⟨-, msg, w', h⟩
  · exact absurd hp hf
  · exact ⟨msg, w', by rw [writeRecordHead, Prog.bind_of_panic h]⟩

/-- A head within the limits is written as its format. -/
theorem writeRecordHead_of {head : RecordHead} (hf : head.Fits) {w w' : W}
    (h : writeAll head.format w = (.ok (), w')) : writeRecordHead head w = (.ok (), w') := by
  rw [writeRecordHead, Prog.bind_of_ok (assertFits_of hf w), Prog.bind_of_ok (writeAllLen_of h),
    hf.format_length, Prog.assert_true (by simp)]

end Write

/-! ## Reading a head -/

section Read

variable {R : Type}

/-- One round of `read_record_head_buf`: `got` holds the bytes read so far. -/
def readRecordHeadBufStep [Read R] (got : Bytes) : Prog R BarcError (Bytes ⊕ Bytes) := do
  match ← tryRead (v2HeadSize - got.length) with
  | .ok [] => pure (.inr got)
  | .ok bs =>
    if v2HeadSize ≤ (got ++ bs).length then pure (.inr (got ++ bs)) else pure (.inl (got ++ bs))
  | .error .interrupted => pure (.inl got)
  | .error e => Prog.throw (.io e)

/-- `read_record_head_buf`: like `read_exact`, but 0 bytes read (an end of file) can be told
from a part of a head. -/
def readRecordHeadBuf [Read R] : Prog R BarcError Bytes :=
  Prog.loop Read.fuel readRecordHeadBufStep []

/-- The head in the bytes that were read: none at the end of the file, or an error. -/
def headOf (buf : Bytes) : Except BarcError (Option RecordHead) :=
  if buf.length = 0 then .ok none
  else if buf.length ≠ v2HeadSize then .error (.readIncompleteRecHead buf.length)
  else
    match parseRecordHead buf with
    | .ok rh => .ok (some rh)
    | .error e => .error e

def readRecordHead [Read R] : Prog R BarcError (Option RecordHead) := do
  let buf ← readRecordHeadBuf
  Prog.ofRes (.ofExcept (headOf buf))

/-- There is no head in no bytes, and only there. -/
theorem headOf_none {buf : Bytes} : headOf buf = .ok none ↔ buf.length = 0 := by
  rw [headOf]
  split
  · next hz => exact ⟨fun _ => hz, fun _ => rfl⟩
  · next hz =>
    constructor
    · intro h
      split at h
      · cases h
      · split at h <;> cases h
    · intro h
      exact absurd h hz

theorem headOf_some {buf : Bytes} {head : RecordHead} (h : headOf buf = .ok (some head)) :
    buf.length = v2HeadSize := by
  rw [headOf] at h
  split at h
  · cases h
  · split at h
    · cases h
    · next hfull => simpa using hfull

theorem readRecordHeadBufStep_decreasing [Read R] :
    Prog.Decreasing Read.fuel (readRecordHeadBufStep (R := R)) := by
  intro got r got' r' h
  rw [readRecordHeadBufStep] at h
  rcases hr : Read.read r (v2HeadSize - got.length) with ⟨(e | bs), r₁⟩ <;>
    rw [Prog.bind_of_ok (tryRead_of hr)] at h
  · cases e <;> cases h
    exact Read.fuel_interrupted hr
  · cases bs with
    | nil => cases h
    | cons b bs =>
      simp only at h
      split at h <;> cases h
      exact Read.fuel_bytes hr (by simp)

/-- What holds of no bytes, and is kept by every read that adds to them or is interrupted, holds of
the bytes that are returned. -/
theorem readRecordHeadBuf_rule [Read R] (I : Bytes → R → Prop)
    (hbytes : ∀ got r n bs r', I got r → Read.read r n = (.ok bs, r') → I (got ++ bs) r')
    (hinter : ∀ got r n r', I got r → Read.read r n = (.error .interrupted, r') → I got r')
    {r r' : R} {buf : Bytes} (h : I [] r) (hr : readRecordHeadBuf r = (.ok buf, r')) : I buf r' := by
  have hloop := Prog.loop_rule readRecordHeadBufStep_decreasing I
    (fun x => ∀ buf, x.1 = .ok buf → I buf x.2) ?_ [] r h
  · rw [readRecordHeadBuf] at hr
    rw [hr] at hloop
    exact hloop buf rfl
  intro got r₁ hI
  rw [readRecordHeadBufStep]
  rcases hread : Read.read r₁ (v2HeadSize - got.length) with ⟨e | bs, r₂⟩ <;>
    rw [Prog.bind_of_ok (tryRead_of hread)]
  · cases e with
    | interrupted => exact hinter got r₁ _ r₂ hI hread
    | _ =>
      intro buf hbuf
      cases hbuf
  · have hnext := hbytes got r₁ _ bs r₂ hI hread
    cases bs with
    | nil =>
      intro buf hbuf
      cases hbuf
      rwa [List.append_nil] at hnext
    | cons b bs =>
      show Prog.After _ _ ((if _ then _ else _ : Prog R BarcError (Bytes ⊕ Bytes)) r₂)
      split
      · intro buf hbuf
        cases hbuf
        exact hnext
      · exact hnext

/-- A head that was returned comes from a buffer of its length. -/
theorem readRecordHead_eq_some [Read R] {r r' : R} {head : RecordHead}
    (hr : readRecordHead r = (.ok (some head), r')) :
    ∃ buf, readRecordHeadBuf r = (.ok buf, r') ∧ headOf buf = .ok (some head) ∧
      buf.length = v2HeadSize := by
  obtain ⟨buf, r₁, hbuf, hhead⟩ := Prog.bind_eq_ok hr
  rw [Prog.ofRes_run] at hhead
  obtain ⟨hof, rfl⟩ := Prod.mk.inj hhead
  have hof' := Res.ofExcept_ok hof
  exact ⟨buf, hbuf, hof', headOf_some hof'⟩

/-- Reading a head takes from what can still be read. -/
theorem readRecordHead_fuel [Read R] {r r' : R} {head : RecordHead}
    (hr : readRecordHead r = (.ok (some head), r')) : Read.fuel r' < Read.fuel r := by
  obtain ⟨buf, hbuf, -, hlen⟩ := readRecordHead_eq_some hr
  have hfuel := readRecordHeadBuf_rule
    (fun got r₁ => Read.fuel r₁ ≤ Read.fuel r ∧ (got ≠ [] → Read.fuel r₁ < Read.fuel r))
    (fun got r₁ n bs r₂ h hread => ?_) (fun got r₁ n r₂ h hread => ?_)
    ⟨Nat.le_refl _, fun hne => absurd rfl hne⟩ hbuf
  · refine hfuel.2 (List.ne_nil_of_length_pos ?_)
    rw [hlen]
    decide
  · have hle := Read.fuel_le hread
    refine ⟨Nat.le_trans hle h.1, fun hne => ?_⟩
    by_cases hbs : bs = []
    · rw [hbs, List.append_nil] at hne
      exact Nat.lt_of_le_of_lt hle (h.2 hne)
    · exact Nat.lt_of_lt_of_le (Read.fuel_bytes hread hbs) h.1
  · have hlt := Read.fuel_interrupted hread
    exact ⟨by omega, fun _ => by omega⟩

/-- **The bytes of a head**: the first 54 that come, or fewer at the end. -/
theorem readRecordHeadBuf_rest [Source R] {r : R} {p : Nat} {bs : Bytes} {t : Tail}
    (h : Rest r p bs t) (hmore : t = .more → v2HeadSize ≤ bs.length)
    (hfail : ∀ e, t ≠ .failed e) :
    ∃ r', readRecordHeadBuf r = (.ok (bs.take v2HeadSize), r') ∧
      Rest r' (p + (bs.take v2HeadSize).length) (bs.drop v2HeadSize) t := by
  refine Prog.loop_rule readRecordHeadBufStep_decreasing
    (fun got r => got.length < v2HeadSize ∧ got = bs.take got.length ∧ got.length ≤ bs.length ∧
      Rest r (p + got.length) (bs.drop got.length) t)
    (fun x => ∃ r', x = (.ok (bs.take v2HeadSize), r') ∧
      Rest r' (p + (bs.take v2HeadSize).length) (bs.drop v2HeadSize) t)
    ?_ [] r ⟨by decide, by simp, by simp, by simpa using h⟩
  rintro got r ⟨hlt, hgot, hle, hrest⟩
  have hdrop : (bs.drop got.length).length = bs.length - got.length := List.length_drop
  rw [readRecordHeadBufStep]
  rcases Source.step hrest (n := v2HeadSize - got.length) (by omega)
      (fun ht => by have := hmore ht; omega) with
    ⟨k, r', hr, hkn, hkl, hpos, -, hrest'⟩ | ⟨r', hr, hrest'⟩ | ⟨-, e, r', he, -⟩
  · rw [Prog.bind_of_ok (tryRead_of hr)]
    have hlk : ((bs.drop got.length).take k).length = k := by
      rw [List.length_take]; omega
    have hnext : got ++ (bs.drop got.length).take k = bs.take (got.length + k) := by
      rw [List.take_add, ← hgot]
    rw [List.drop_drop, Nat.add_assoc] at hrest'
    cases hc : (bs.drop got.length).take k with
    | nil =>
      -- Nothing came: the stream has ended.
      have hk : k = 0 := by rw [← hlk, hc]; rfl
      have hall : bs.length ≤ got.length := by
        by_contra hlt'
        have := hpos (List.ne_nil_of_length_pos (by omega))
        omega
      have hfull : bs.take v2HeadSize = got := by
        rw [hgot, List.take_of_length_le (by omega), List.take_of_length_le (by omega)]
      subst hk
      refine ⟨r', by rw [hfull], ?_⟩
      rw [hfull, List.drop_of_length_le (by omega)]
      rwa [Nat.add_zero, List.drop_of_length_le hall] at hrest'
    | cons b rest =>
      rw [hc] at hnext hlk
      simp only [hnext, List.length_take]
      by_cases hfull : v2HeadSize ≤ got.length + k
      · have hk : got.length + k = v2HeadSize := by omega
        rw [if_pos (by omega)]
        rw [hk] at hrest' ⊢
        refine ⟨r', rfl, ?_⟩
        rwa [Nat.min_eq_left (by omega)]
      · rw [if_neg (by omega)]
        refine ⟨?_, ?_, ?_, ?_⟩
        · rw [List.length_take]; omega
        · rw [List.take_eq_take_iff, List.length_take]; omega
        · rw [List.length_take]; omega
        · rwa [List.length_take, Nat.min_eq_left (by omega)]
  · rw [Prog.bind_of_ok (tryRead_of hr)]
    exact ⟨hlt, hgot, hle, hrest'⟩
  · exact absurd he (hfail e)

theorem readRecordHead_rest [Source R] {r : R} {p : Nat} {bs : Bytes} {t : Tail}
    (h : Rest r p bs t) (hmore : t = .more → v2HeadSize ≤ bs.length)
    (hfail : ∀ e, t ≠ .failed e) :
    ∃ r', readRecordHead r = (.ofExcept (headOf (bs.take v2HeadSize)), r') ∧
      Rest r' (p + (bs.take v2HeadSize).length) (bs.drop v2HeadSize) t := by
  obtain ⟨r', hr, hrest⟩ := readRecordHeadBuf_rest h hmore hfail
  exact ⟨r', by rw [readRecordHead, Prog.bind_of_ok hr]; rfl, hrest⟩

theorem headOf_format {head : RecordHead} (hf : head.Fits) : headOf head.format = .ok (some head) := by
  rw [headOf, hf.format_length, if_neg (by decide), if_neg (by simp), parse_format hf]

end Read

end BodyArchive
