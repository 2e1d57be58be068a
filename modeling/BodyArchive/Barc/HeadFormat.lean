import BodyArchive.Barc.Head
import BodyArchive.Io.Stream

/-!
# The heads that are accepted

`write_record_head` has the layout of a head as a format string, `read_record_head` as the indices of
its fields. What lies between the fields, and after the last one, is written but not looked at when it
is read. `head_accepted_iff` says what comes of that for any 54 bytes.

The other half is how the bytes are gathered: `readRecordHeadBufInto` is the loop with its buffer and
the slice into it, and `head_reading_chunking` says that it does not matter in what pieces they come.
-/

namespace BodyArchive

/-! ## Fields and separators -/

/-- The fields of a head: the marker, five hexadecimal numbers, and two flags. -/
structure HeadFields (b : Bytes) : Prop where
  marker : byteRange b 0 6 = ascii "BARC2 "
  len : ∀ d ∈ byteRange b 6 18, (hexVal d).isSome
  recType : b.getD 19 0 ∈ [RecordType.reserved.flag, RecordType.dialog.flag]
  compress : b.getD 20 0 ∈ [Compression.plain.flag, Compression.gzip.flag, Compression.brotli.flag]
  metaH : ∀ d ∈ byteRange b 22 27, (hexVal d).isSome
  reqH : ∀ d ∈ byteRange b 28 33, (hexVal d).isSome
  reqB : ∀ d ∈ byteRange b 34 44, (hexVal d).isSome
  resH : ∀ d ∈ byteRange b 45 50, (hexVal d).isSome

/-- What lies between the fields, and the suffix. -/
structure HeadSeparators (b : Bytes) : Prop where
  after_len : b.getD 18 0 = 32
  after_flags : b.getD 21 0 = 32
  after_meta : b.getD 27 0 = 32
  after_req : b.getD 33 0 = 32
  after_body : b.getD 44 0 = 32
  suffix : byteRange b 50 54 = crlf ++ crlf

theorem parseHexFrom_ok_iff {v : Nat} {bs : Bytes} :
    (∃ n, parseHexFrom v bs = .ok n) ↔ ∀ d ∈ bs, (hexVal d).isSome := by
  induction bs generalizing v with
  | nil => exact ⟨fun _ d hd => absurd hd List.not_mem_nil, fun _ => ⟨v, rfl⟩⟩
  | cons d ds ih =>
    rw [parseHexFrom, List.forall_mem_cons]
    cases hexVal d with
    | none => simp
    | some x => simpa using ih

theorem parseHexField_ok_iff {b : Bytes} {i j : Nat} :
    (∃ n, parseHexField b i j = .ok n) ↔ ∀ d ∈ byteRange b i j, (hexVal d).isSome := by
  rw [← @parseHexFrom_ok_iff 0]
  unfold parseHexField parseHex
  cases parseHexFrom 0 (byteRange b i j) with
  | ok n => exact ⟨fun _ => ⟨n, rfl⟩, fun _ => ⟨n, rfl⟩⟩
  | error d => simp

theorem RecordType.fromByte_ok_iff {f : UInt8} {r : RecordType} :
    RecordType.fromByte f = .ok r ↔ f = r.flag := by
  constructor
  · intro h
    unfold RecordType.fromByte at h
    split at h
    · cases h
      assumption
    split at h
    · cases h
      assumption
    cases h
  · intro h
    rw [h, RecordType.fromByte_flag]

theorem Compression.fromByte_ok_iff {f : UInt8} {c : Compression} :
    Compression.fromByte f = .ok c ↔ f = c.flag := by
  constructor
  · intro h
    unfold Compression.fromByte at h
    split at h
    · cases h
      assumption
    split at h
    · cases h
      assumption
    split at h
    · cases h
      assumption
    cases h
  · intro h
    rw [h, Compression.fromByte_flag]

/-- What is parsed, field by field. -/
theorem parseRecordHead_ok_iff {b : Bytes} {h : RecordHead} :
    parseRecordHead b = .ok h ↔ byteRange b 0 6 = ascii "BARC2 " ∧
      parseHexField b 6 18 = .ok h.len ∧ b.getD 19 0 = h.recType.flag ∧
      b.getD 20 0 = h.compress.flag ∧ parseHexField b 22 27 = .ok h.metaH ∧
      parseHexField b 28 33 = .ok h.reqH ∧ parseHexField b 34 44 = .ok h.reqB ∧
      parseHexField b 45 50 = .ok h.resH := by
  constructor
  · intro hp
    unfold parseRecordHead at hp
    by_cases hmarker : byteRange b 0 6 = ascii "BARC2 "
    · rw [if_neg (not_not_intro hmarker)] at hp
      obtain ⟨len, hlen, h₁⟩ := except_bind_eq_ok.mp hp
      obtain ⟨recType, hrec, h₂⟩ := except_bind_eq_ok.mp h₁
      obtain ⟨compress, hcompress, h₃⟩ := except_bind_eq_ok.mp h₂
      obtain ⟨metaH, hmeta, h₄⟩ := except_bind_eq_ok.mp h₃
      obtain ⟨reqH, hreq, h₅⟩ := except_bind_eq_ok.mp h₄
      obtain ⟨reqB, hbody, h₆⟩ := except_bind_eq_ok.mp h₅
      obtain ⟨resH, hres, h₇⟩ := except_bind_eq_ok.mp h₆
      cases h₇
      exact ⟨hmarker, hlen, RecordType.fromByte_ok_iff.mp hrec,
        Compression.fromByte_ok_iff.mp hcompress, hmeta, hreq, hbody, hres⟩
    · rw [if_pos hmarker] at hp
      cases hp
  · rintro ⟨hmarker, hlen, hrec, hcompress, hmeta, hreq, hbody, hres⟩
    unfold parseRecordHead
    rw [if_neg (not_not_intro hmarker), hlen, hrec, hcompress, hmeta, hreq, hbody, hres,
      RecordType.fromByte_flag, Compression.fromByte_flag]
    rfl

/-- **A head is parsed from its fields** and from nothing else. -/
theorem parses_iff_fields {b : Bytes} : (∃ h, parseRecordHead b = .ok h) ↔ HeadFields b := by
  constructor
  · rintro ⟨h, hp⟩
    obtain ⟨hmarker, hlen, hrec, hcompress, hmeta, hreq, hbody, hres⟩ := parseRecordHead_ok_iff.mp hp
    refine ⟨hmarker, parseHexField_ok_iff.mp ⟨_, hlen⟩, ?_, ?_, parseHexField_ok_iff.mp ⟨_, hmeta⟩,
      parseHexField_ok_iff.mp ⟨_, hreq⟩, parseHexField_ok_iff.mp ⟨_, hbody⟩,
      parseHexField_ok_iff.mp ⟨_, hres⟩⟩
    · rw [hrec]
      cases h.recType <;> decide
    · rw [hcompress]
      cases h.compress <;> decide
  · intro hf
    obtain ⟨len, hlen⟩ := parseHexField_ok_iff.mpr hf.len
    obtain ⟨metaH, hmeta⟩ := parseHexField_ok_iff.mpr hf.metaH
    obtain ⟨reqH, hreq⟩ := parseHexField_ok_iff.mpr hf.reqH
    obtain ⟨reqB, hbody⟩ := parseHexField_ok_iff.mpr hf.reqB
    obtain ⟨resH, hres⟩ := parseHexField_ok_iff.mpr hf.resH
    obtain ⟨recType, hrec⟩ : ∃ r : RecordType, b.getD 19 0 = r.flag := by
      have h := hf.recType
      simp only [List.mem_cons, List.not_mem_nil, or_false] at h
      rcases h with h | h
      · exact ⟨_, h⟩
      · exact ⟨_, h⟩
    obtain ⟨compress, hcompress⟩ : ∃ c : Compression, b.getD 20 0 = c.flag := by
      have h := hf.compress
      simp only [List.mem_cons, List.not_mem_nil, or_false] at h
      rcases h with h | h | h
      · exact ⟨_, h⟩
      · exact ⟨_, h⟩
      · exact ⟨_, h⟩
    exact ⟨⟨len, recType, compress, metaH, reqH, reqB, resH⟩, parseRecordHead_ok_iff.mpr
      ⟨hf.marker, hlen, hrec, hcompress, hmeta, hreq, hbody, hres⟩⟩

/-! An incomplete head is found by its length, and in no other way. -/

/-- The result is not that a head is incomplete. -/
def NotIncomplete {α : Type} (x : Except BarcError α) : Prop :=
  ∀ n, x ≠ .error (.readIncompleteRecHead n)

theorem NotIncomplete.bind {α β : Type} {x : Except BarcError α} {f : α → Except BarcError β}
    (hx : NotIncomplete x) (hf : ∀ a, NotIncomplete (f a)) : NotIncomplete (x >>= f) := by
  intro n h
  cases x with
  | ok a => exact hf a n h
  | error e =>
    apply hx n
    cases h
    rfl

theorem parseHexField_notIncomplete (b : Bytes) (i j : Nat) : NotIncomplete (parseHexField b i j) := by
  intro n h
  unfold parseHexField at h
  split at h <;> cases h

theorem parseRecordHead_notIncomplete (b : Bytes) : NotIncomplete (parseRecordHead b) := by
  have hrec (f : UInt8) : NotIncomplete (RecordType.fromByte f) := by
    intro n h
    unfold RecordType.fromByte at h
    split at h
    · cases h
    split at h <;> cases h
  have hcompress (f : UInt8) : NotIncomplete (Compression.fromByte f) := by
    intro n h
    unfold Compression.fromByte at h
    split at h
    · cases h
    split at h
    · cases h
    split at h <;> cases h
  unfold parseRecordHead
  split
  · intro n h
    cases h
  · refine .bind (parseHexField_notIncomplete _ _ _) fun _ => ?_
    refine .bind (hrec _) fun _ => .bind (hcompress _) fun _ => ?_
    refine .bind (parseHexField_notIncomplete _ _ _) fun _ => ?_
    refine .bind (parseHexField_notIncomplete _ _ _) fun _ => ?_
    refine .bind (parseHexField_notIncomplete _ _ _) fun _ => ?_
    refine .bind (parseHexField_notIncomplete _ _ _) fun _ => ?_
    intro n h
    cases h

theorem headOf_incomplete {buf : Bytes} {n : Nat}
    (h : headOf buf = .error (.readIncompleteRecHead n)) :
    0 < n ∧ n ≠ v2HeadSize ∧ buf.length = n := by
  unfold headOf at h
  split at h
  · cases h
  · next hpos =>
    split at h
    · next hshort =>
      cases h
      exact ⟨Nat.pos_of_ne_zero hpos, hshort, rfl⟩
    · cases hp : parseRecordHead buf with
      | ok rh =>
        rw [hp] at h
        cases h
      | error e =>
        rw [hp] at h
        cases h
        exact absurd hp (parseRecordHead_notIncomplete buf n)

/-! ## The layout -/

theorem byteRange_append {b : Bytes} {i j k : Nat} (hij : i ≤ j) (hjk : j ≤ k) (hk : k ≤ b.length) :
    byteRange b i j ++ byteRange b j k = byteRange b i k := by
  unfold byteRange
  have hsplit : b.take k = b.take j ++ (b.take k).drop j := by
    conv_lhs => rw [← List.take_append_drop j (b.take k), List.take_take, Nat.min_eq_left hjk]
  have hlen : i ≤ (b.take j).length := by
    rw [List.length_take]
    omega
  conv_rhs => rw [hsplit, List.drop_append_of_le_length hlen]

theorem byteRange_length {b : Bytes} {i j : Nat} (hj : j ≤ b.length) :
    (byteRange b i j).length = j - i := by
  rw [byteRange, List.length_drop, List.length_take, Nat.min_eq_left hj]

theorem byteRange_single {b : Bytes} {i : Nat} (hi : i < b.length) :
    byteRange b i (i + 1) = [b.getD i 0] := by
  have hlen : (b.take i).length = i := List.length_take_of_le (Nat.le_of_lt hi)
  have hget : b.getD i 0 = b[i] := by simp [hi]
  have hdrop := @List.drop_left _ (b.take i) [b[i]]
  rw [hlen] at hdrop
  rw [byteRange, List.take_succ_eq_append_getElem hi, hget, hdrop]

/-- 54 bytes, cut at the fields. -/
theorem head_split {b : Bytes} (hb : b.length = v2HeadSize) :
    b = [byteRange b 0 6, byteRange b 6 18, [b.getD 18 0], [b.getD 19 0], [b.getD 20 0],
      [b.getD 21 0], byteRange b 22 27, [b.getD 27 0], byteRange b 28 33, [b.getD 33 0],
      byteRange b 34 44, [b.getD 44 0], byteRange b 45 50, byteRange b 50 54].flatten := by
  have h54 : b.length = 54 := hb
  have hone {i : Nat} (hi : i < 54) : [b.getD i 0] = byteRange b i (i + 1) :=
    (byteRange_single (by omega)).symm
  have hglue {i j k : Nat} (hij : i ≤ j) (hjk : j ≤ k) (hk : k ≤ 54) :
      byteRange b i j ++ byteRange b j k = byteRange b i k :=
    byteRange_append hij hjk (by omega)
  have hall : byteRange b 0 54 = b := by
    rw [byteRange, List.drop_zero, List.take_of_length_le (by omega)]
  simp only [List.flatten_cons, List.flatten_nil, List.append_nil]
  rw [hone (by decide : 18 < 54), hone (by decide : 19 < 54), hone (by decide : 20 < 54),
    hone (by decide : 21 < 54), hone (by decide : 27 < 54), hone (by decide : 33 < 54),
    hone (by decide : 44 < 54)]
  rw [hglue (i := 45) (j := 50) (k := 54) (by decide) (by decide) (by decide),
    hglue (i := 44) (j := 45) (k := 54) (by decide) (by decide) (by decide),
    hglue (i := 34) (j := 44) (k := 54) (by decide) (by decide) (by decide),
    hglue (i := 33) (j := 34) (k := 54) (by decide) (by decide) (by decide),
    hglue (i := 28) (j := 33) (k := 54) (by decide) (by decide) (by decide),
    hglue (i := 27) (j := 28) (k := 54) (by decide) (by decide) (by decide),
    hglue (i := 22) (j := 27) (k := 54) (by decide) (by decide) (by decide),
    hglue (i := 21) (j := 22) (k := 54) (by decide) (by decide) (by decide),
    hglue (i := 20) (j := 21) (k := 54) (by decide) (by decide) (by decide),
    hglue (i := 19) (j := 20) (k := 54) (by decide) (by decide) (by decide),
    hglue (i := 18) (j := 19) (k := 54) (by decide) (by decide) (by decide),
    hglue (i := 6) (j := 18) (k := 54) (by decide) (by decide) (by decide),
    hglue (i := 0) (j := 6) (k := 54) (by decide) (by decide) (by decide), hall]

theorem format_separators {h : RecordHead} (hf : h.Fits) : HeadSeparators h.format := by
  obtain ⟨hl, hm, hq, hb, hs⟩ := hf.widths
  have hx : (ascii "BARC2 ").length = 6 := rfl
  have heq := h.format_eq
  generalize ascii "BARC2 " = x at heq hx
  generalize hexPad 12 h.len = l at heq hl
  generalize hexPad 5 h.metaH = m at heq hm
  generalize hexPad 5 h.reqH = q at heq hq
  generalize hexPad 10 h.reqB = o at heq hb
  generalize hexPad 5 h.resH = s at heq hs
  rw [heq]
  refine ⟨getD_flatten [x, l] ?_, getD_flatten [x, l, [32], [_], [_]] ?_,
    getD_flatten [x, l, [32], [_], [_], [32], m] ?_,
    getD_flatten [x, l, [32], [_], [_], [32], m, [32], q] ?_,
    getD_flatten [x, l, [32], [_], [_], [32], m, [32], q, [32], o] ?_, ?_⟩
  case refine_6 =>
    have hsuffix := @byteRange_flatten [x, l, [32], [h.recType.flag], [h.compress.flag], [32], m, [32],
      q, [32], o, [32], s] (crlf ++ crlf) [] 50 54
    simp only [List.flatten_cons, List.flatten_nil, List.append_nil, List.cons_append,
      List.nil_append, List.length_append, List.length_cons, crlf_length] at hsuffix ⊢
    exact hsuffix (by omega) trivial
  all_goals
    simp only [List.flatten_cons, List.flatten_nil, List.length_append, List.length_cons,
      List.length_nil]
    omega

/-- A number that was parsed is written as the digits that were there. -/
theorem hexPad_of_field {b : Bytes} {i j n : Nat} (hj : j ≤ b.length) (hij : i < j)
    (h : parseHexField b i j = .ok n) : hexPad (j - i) n = byteRange b i j ∧ n < 16 ^ (j - i) := by
  have hlen := @byteRange_length b i j hj
  unfold parseHexField at h
  cases hp : parseHex (byteRange b i j) with
  | error d =>
    rw [hp] at h
    cases h
  | ok m =>
    rw [hp] at h
    cases h
    have hlt := parseHex_lt hp
    rw [hlen] at hlt
    refine ⟨?_, hlt⟩
    rw [hexPad_eq (by omega) hlt, ← hlen, hexFixed_of_parseHex hp]

/-- **A head with the right separators** is what is written for the head that is read. -/
theorem format_of_parse {b : Bytes} (hb : b.length = v2HeadSize) {h : RecordHead}
    (hp : parseRecordHead b = .ok h) (hsep : HeadSeparators b) : h.Fits ∧ h.format = b := by
  have h54 : b.length = 54 := hb
  obtain ⟨hmarker, hlen, hrec, hcompress, hmeta, hreq, hbody, hres⟩ := parseRecordHead_ok_iff.mp hp
  obtain ⟨hlen, hlen'⟩ := hexPad_of_field (by omega) (by decide) hlen
  obtain ⟨hmeta, hmeta'⟩ := hexPad_of_field (by omega) (by decide) hmeta
  obtain ⟨hreq, hreq'⟩ := hexPad_of_field (by omega) (by decide) hreq
  obtain ⟨hbody, hbody'⟩ := hexPad_of_field (by omega) (by decide) hbody
  obtain ⟨hres, hres'⟩ := hexPad_of_field (by omega) (by decide) hres
  have hsuffix := hsep.suffix
  constructor
  · refine ⟨?_, ?_, ?_, ?_, ?_⟩ <;> simp only [v2MaxRecord, v2MaxHblock, v2MaxReqBody] <;> omega
  · rw [h.format_eq]
    conv_rhs => rw [head_split hb, hmarker, ← hlen, hsep.after_len, hrec, hcompress, hsep.after_flags,
      ← hmeta, hsep.after_meta, ← hreq, hsep.after_req, ← hbody, hsep.after_body, ← hres, hsuffix]
    simp only [List.flatten_cons, List.flatten_nil, List.append_nil]

/-! ## What is accepted -/

/-- What `write_record_head` writes: the format of a head within the limits, and nothing of another. -/
theorem writeRecordHead_iff {h : RecordHead} {b : Bytes} :
    writeRecordHead h ([] : Bytes) = (.ok (), b) ↔ h.Fits ∧ h.format = b := by
  constructor
  · intro hw
    by_cases hf : h.Fits
    · have hok : writeRecordHead h ([] : Bytes) = (.ok (), h.format) := writeRecordHead_of hf rfl
      rw [hok] at hw
      cases hw
      exact ⟨hf, rfl⟩
    · obtain ⟨msg, w', hpanic⟩ := writeRecordHead_panics hf ([] : Bytes)
      rw [hpanic] at hw
      cases hw
  · rintro ⟨hf, rfl⟩
    exact writeRecordHead_of hf rfl

section Accepted

variable {R : Type} [Source R]

/-- **Which heads are accepted.** 54 bytes are read as a head exactly if they are what is written for
that head, provided that their separators and suffix are right or one of their fields is wrong: nothing
else is looked at. -/
theorem head_accepted_iff {r : R} {p : Nat} {b : Bytes} (hb : b.length = v2HeadSize)
    (hr : Rest r p b .eof) :
    (∀ h, (readRecordHead r).1 = .ok (some h) ↔ writeRecordHead h ([] : Bytes) = (.ok (), b)) ↔
      (HeadFields b → HeadSeparators b) := by
  obtain ⟨r', hread, -⟩ := readRecordHead_rest hr
    (fun ht => by cases ht) (fun e ht => by cases ht)
  have hparse (h : RecordHead) : (readRecordHead r).1 = .ok (some h) ↔ parseRecordHead b = .ok h := by
    have h54 : b.length ≠ 0 := by
      rw [hb]
      decide
    rw [hread, List.take_of_length_le (Nat.le_of_eq hb), headOf, if_neg h54,
      if_neg (not_not_intro hb)]
    cases parseRecordHead b with
    | ok h' =>
      constructor
      · intro h₁
        cases h₁
        rfl
      · intro h₁
        cases h₁
        rfl
    | error e =>
      constructor
      · intro h₁
        cases h₁
      · intro h₁
        cases h₁
  constructor
  · intro hexact hfields
    obtain ⟨h, hp⟩ := parses_iff_fields.mpr hfields
    obtain ⟨hf, rfl⟩ := writeRecordHead_iff.mp ((hexact h).mp ((hparse h).mpr hp))
    exact format_separators hf
  · intro hcond h
    rw [hparse, writeRecordHead_iff]
    constructor
    · intro hp
      exact format_of_parse hb hp (hcond (parses_iff_fields.mp ⟨h, hp⟩))
    · rintro ⟨hf, rfl⟩
      exact parse_format hf

end Accepted

/-- A head that is written is accepted. -/
theorem reserved_head_accepted :
    (RecordHead.v2Reserve.format.length = v2HeadSize ∧
      Rest (Stream.mk RecordHead.v2Reserve.format none []) 0 RecordHead.v2Reserve.format .eof) ∧
    ((∀ h, (readRecordHead (Stream.mk RecordHead.v2Reserve.format none [])).1 = .ok (some h) ↔
      writeRecordHead h ([] : Bytes) = (.ok (), RecordHead.v2Reserve.format)) ↔
      (HeadFields RecordHead.v2Reserve.format → HeadSeparators RecordHead.v2Reserve.format)) :=
  have hlen := RecordHead.v2Reserve_fits.format_length
  have hrest : Rest (Stream.mk RecordHead.v2Reserve.format none []) 0
      RecordHead.v2Reserve.format .eof :=
    Stream.rest_iff.mpr ⟨rfl, rfl, by decide, fun _ hd => absurd hd List.not_mem_nil⟩
  ⟨⟨hlen, hrest⟩, head_accepted_iff hlen hrest⟩

/-- The head of a reservation, with another byte after the record length, and another suffix. -/
def damagedHead : Bytes := (RecordHead.v2Reserve.format.set 18 88).take 50 ++ ascii "XXXX"

/-- **A head with wrong separators is accepted**, although nothing like it is ever written. -/
theorem damaged_head_accepted :
    damagedHead.length = v2HeadSize ∧
    (readRecordHead (Stream.mk damagedHead none [])).1 = .ok (some RecordHead.v2Reserve) ∧
    writeRecordHead RecordHead.v2Reserve ([] : Bytes) ≠ (.ok (), damagedHead) ∧
    ¬ ∀ h, (readRecordHead (Stream.mk damagedHead none [])).1 = .ok (some h) ↔
      writeRecordHead h ([] : Bytes) = (.ok (), damagedHead) := by
  have hread : (readRecordHead (Stream.mk damagedHead none [])).1 = .ok (some RecordHead.v2Reserve) := by
    decide +kernel
  have hwrite : writeRecordHead RecordHead.v2Reserve ([] : Bytes) ≠ (.ok (), damagedHead) := by
    decide +kernel
  exact ⟨by decide +kernel, hread, hwrite, fun hall => hwrite ((hall _).mp hread)⟩

/-! ## The buffer of a head -/

/-- The buffer, where the slice into it starts, and the bytes read so far. -/
structure HeadBuf where
  buf : Bytes
  start : Nat
  size : Nat

/-- A buffer that begins with these bytes, and the slice behind them. -/
def HeadBuf.of (got : Bytes) : HeadBuf :=
  ⟨got ++ List.replicate (v2HeadSize - got.length) 0, got.length, got.length⟩

section Into

variable {R : Type} [Read R]

/-- One round of `read_record_head_buf` on its buffer. Taking a slice from behind its end would
panic. -/
def readRecordHeadBufIntoStep (s : HeadBuf) : Prog R BarcError (HeadBuf ⊕ Nat × Bytes) := do
  match ← tryRead (s.buf.length - s.start) with
  | .ok [] => pure (.inr (s.size, s.buf))
  | .ok bs => do
    let buf := s.buf.take s.start ++ bs ++ s.buf.drop (s.start + bs.length)
    let size := s.size + bs.length
    if v2HeadSize ≤ size then pure (.inr (size, buf))
    else do
      Prog.assert (bs.length ≤ s.buf.length - s.start) "range start index out of range for slice"
      pure (.inl ⟨buf, s.start + bs.length, size⟩)
  | .error .interrupted => pure (.inl s)
  | .error e => Prog.throw (.io e)

/-- `read_record_head_buf`, into the buffer of zeros that `read_record_head` has. -/
def readRecordHeadBufInto : Prog R BarcError (Nat × Bytes) :=
  Prog.loop Read.fuel readRecordHeadBufIntoStep (.of [])

theorem readRecordHeadBufIntoStep_decreasing :
    Prog.Decreasing Read.fuel (readRecordHeadBufIntoStep (R := R)) := by
  intro s r s' r' h
  rw [readRecordHeadBufIntoStep] at h
  rcases hr : Read.read r (s.buf.length - s.start) with ⟨e | bs, r₁⟩ <;>
    rw [Prog.bind_of_ok (tryRead_of hr)] at h
  · cases e <;> cases h
    exact Read.fuel_interrupted hr
  · cases bs with
    | nil => cases h
    | cons b bs =>
      simp only at h
      split at h
      · cases h
      · obtain ⟨u, r₂, hassert, h₂⟩ := Prog.bind_eq_ok h
        obtain ⟨-, rfl⟩ := Prog.assert_eq_ok hassert
        cases h₂
        exact Read.fuel_bytes hr (by simp)

/-- Bytes read into the slice move it behind them. -/
theorem HeadBuf.of_append (got bs : Bytes) :
    HeadBuf.of (got ++ bs) =
      ⟨(HeadBuf.of got).buf.take got.length ++ bs ++
        (HeadBuf.of got).buf.drop (got.length + bs.length),
        got.length + bs.length, got.length + bs.length⟩ := by
  have hdrop : (List.replicate (v2HeadSize - got.length) (0 : UInt8)).drop bs.length =
      List.replicate (v2HeadSize - (got ++ bs).length) 0 := by
    rw [List.drop_replicate, List.length_append, Nat.sub_sub]
  unfold HeadBuf.of
  rw [List.take_left, List.drop_length_add_append, hdrop, List.length_append]

/-- **The buffer holds what was read**, and the slice is never taken from behind its end, whatever the
reader does. -/
theorem readRecordHeadBufInto_eq (r : R) :
    readRecordHeadBufInto r =
      (readRecordHeadBuf >>= fun got => pure (got.length, (HeadBuf.of got).buf)) r := by
  refine Prog.loop_rule readRecordHeadBufStep_decreasing
    (fun got r₁ => got.length < v2HeadSize ∧
      Prog.loop Read.fuel readRecordHeadBufIntoStep (.of got) r₁ = readRecordHeadBufInto r)
    (fun x => readRecordHeadBufInto r =
      ((fun _ => x) >>= fun got => pure (got.length, (HeadBuf.of got).buf) : Prog R BarcError _) r)
    ?_ [] r ⟨by decide, rfl⟩
  rintro got r₁ ⟨hlt, hsame⟩
  have hv := @readRecordHeadBufIntoStep_decreasing R _
  have hroom : (HeadBuf.of got).buf.length - (HeadBuf.of got).start = v2HeadSize - got.length := by
    show (got ++ List.replicate (v2HeadSize - got.length) 0).length - got.length = _
    rw [List.length_append, List.length_replicate]
    omega
  rw [readRecordHeadBufStep]
  rcases hread : Read.read r₁ (v2HeadSize - got.length) with ⟨e | bs, r₂⟩ <;>
    rw [Prog.bind_of_ok (tryRead_of hread)]
  · cases e with
    | interrupted =>
      have hnext : readRecordHeadBufIntoStep (.of got) r₁ = (.ok (.inl (.of got)), r₂) := by
        rw [readRecordHeadBufIntoStep, hroom, Prog.bind_of_ok (tryRead_of hread)]
        rfl
      exact ⟨hlt, (Prog.loop_of_next hv hnext).symm.trans hsame⟩
    | _ =>
      refine hsame.symm.trans (Prog.loop_of_err hv ?_)
      rw [readRecordHeadBufIntoStep, hroom, Prog.bind_of_ok (tryRead_of hread)]
      rfl
  · have hlen := Read.read_length hread
    cases bs with
    | nil =>
      have hend : readRecordHeadBufIntoStep (.of got) r₁ =
          (.ok (.inr (got.length, (HeadBuf.of got).buf)), r₂) := by
        rw [readRecordHeadBufIntoStep, hroom, Prog.bind_of_ok (tryRead_of hread)]
        rfl
      exact hsame.symm.trans (Prog.loop_of_done hv hend)
    | cons b bs =>
      have hfill := HeadBuf.of_append got (b :: bs)
      have hsize : got.length + (b :: bs).length = (got ++ b :: bs).length :=
        List.length_append.symm
      have hstep : readRecordHeadBufIntoStep (.of got) r₁ =
          (if v2HeadSize ≤ (got ++ b :: bs).length then
            pure (.inr ((got ++ b :: bs).length, (HeadBuf.of (got ++ b :: bs)).buf))
          else do
            Prog.assert ((b :: bs).length ≤ v2HeadSize - got.length)
              "range start index out of range for slice"
            pure (.inl (.of (got ++ b :: bs))) :
            Prog R BarcError (HeadBuf ⊕ Nat × Bytes)) r₂ := by
        rw [readRecordHeadBufIntoStep, hroom, Prog.bind_of_ok (tryRead_of hread), hfill, ← hsize]
        rfl
      show Prog.After _ _ ((if _ then _ else _ : Prog R BarcError (Bytes ⊕ Bytes)) r₂)
      by_cases hfull : v2HeadSize ≤ (got ++ b :: bs).length
      · rw [if_pos hfull] at hstep ⊢
        exact hsame.symm.trans (Prog.loop_of_done hv hstep)
      · rw [if_neg hfull, Prog.bind_of_ok (Prog.assert_true (decide_eq_true hlen) _ _)] at hstep
        rw [if_neg hfull]
        exact ⟨Nat.lt_of_not_le hfull, (Prog.loop_of_next hv hstep).symm.trans hsame⟩

/-- **Reading a head does not depend on the pieces it comes in.** For every stream, however it is
delivered: the loop ends, with the first 54 bytes at the start of its buffer, or fewer if there are no
more, and takes no byte beyond them; no head is found exactly in an empty stream, and an incomplete
one exactly in a stream that is too short. -/
theorem head_reading_chunking {r : R} {bs : Bytes} (h : Yields r bs) :
    (∃ r', readRecordHeadBufInto r = (.ok (min v2HeadSize bs.length,
        bs.take v2HeadSize ++ List.replicate (v2HeadSize - bs.length) 0), r') ∧
      Yields r' (bs.drop v2HeadSize)) ∧
    (∃ r', readRecordHead r = (.ofExcept (headOf (bs.take v2HeadSize)), r') ∧
      Yields r' (bs.drop v2HeadSize)) ∧
    ((readRecordHead r).1 = .ok none ↔ bs = []) ∧
    ∀ n, (readRecordHead r).1 = .err (.readIncompleteRecHead n) ↔
      0 < n ∧ n < v2HeadSize ∧ bs.length = n := by
  obtain ⟨src, rfl, hrest⟩ := h.rest
  have hmore : Tail.eof = .more → v2HeadSize ≤ bs.length := fun ht => by cases ht
  have hfail : ∀ e, Tail.eof ≠ .failed e := fun e ht => by cases ht
  obtain ⟨r₁, hbuf, hrest₁⟩ := readRecordHeadBuf_rest hrest hmore hfail
  obtain ⟨r₂, hhead, hrest₂⟩ := readRecordHead_rest hrest hmore hfail
  have hlen : (bs.take v2HeadSize).length = min v2HeadSize bs.length := List.length_take
  refine ⟨⟨r₁, ?_, Source.yields hrest₁⟩, ⟨r₂, hhead, Source.yields hrest₂⟩, ?_, ?_⟩
  · have hzeros : v2HeadSize - min v2HeadSize bs.length = v2HeadSize - bs.length := by omega
    rw [readRecordHeadBufInto_eq, Prog.bind_of_ok hbuf, HeadBuf.of, hlen, hzeros]
    rfl
  · rw [hhead]
    constructor
    · intro hnone
      have hz := headOf_none.mp (Res.ofExcept_ok hnone)
      have h54 : 0 < v2HeadSize := by decide
      exact List.eq_nil_of_length_eq_zero (by omega)
    · rintro rfl
      rfl
  · intro n
    rw [hhead]
    constructor
    · intro herr
      have herr' : headOf (bs.take v2HeadSize) = .error (.readIncompleteRecHead n) := by
        cases hof : headOf (bs.take v2HeadSize) with
        | ok x =>
          rw [hof] at herr
          cases herr
        | error e =>
          rw [hof] at herr
          cases herr
          rfl
      obtain ⟨hpos, hne, hn⟩ := headOf_incomplete herr'
      omega
    · rintro ⟨hpos, hlt, hn⟩
      rw [headOf, hlen, if_neg (by omega), if_pos (by omega)]
      show Res.err (BarcError.readIncompleteRecHead _) = _
      rw [Nat.min_eq_right (by omega), hn]

end Into

/-- Two bytes that come one at a time, with an interrupt between them. -/
theorem short_head_chunking :
    Yields (Stream.mk [66, 65] none [.upTo 1, .interrupted, .upTo 1]) [66, 65] ∧
    (readRecordHead (Stream.mk [66, 65] none [.upTo 1, .interrupted, .upTo 1])).1 =
      .err (.readIncompleteRecHead 2) :=
  have hyields : Yields (Stream.mk [66, 65] none [.upTo 1, .interrupted, .upTo 1]) [66, 65] :=
    Source.yields (p := 0) (Stream.rest_iff.mpr ⟨rfl, rfl, by decide, by decide⟩)
  ⟨hyields, ((head_reading_chunking hyields).2.2.2 2).mpr (by decide)⟩

end BodyArchive
