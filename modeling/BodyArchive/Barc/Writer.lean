import BodyArchive.Barc.Record

/-!
# Writing records

`BarcWriter::write`: a reserved head goes to the end of the file, the record after it, and then
the final head over the reserved one. `write_calm` is its whole effect when the file operations
succeed: it appends a head and a payload that lay out the record (`Written`), or one of its
assertions fails, and then the record is not within the limits.
-/

namespace BodyArchive

section Parts

variable {W : Type} [Write W]

/-- `write_body`. -/
def writeBody (withCrlf : Bool) (body : BodyImage) : Prog W BarcError Nat := do
  let size ← Prog.mapErr .body body.writeTo
  writePadding withCrlf size

theorem writeBody_accepts {G : W → Bytes → Prop} (hG : Accepts G) {w : W} {got : Bytes}
    (hw : G w got) (withCrlf : Bool) {body : BodyImage} {bs : Bytes} (hb : body.Backs bs) :
    ∃ w', writeBody withCrlf body w = (.ok (pad withCrlf bs).length, w') ∧
      G w' (got ++ pad withCrlf bs) := by
  obtain ⟨w₁, h₁, hw₁⟩ := hb.writeTo hG hw
  obtain ⟨w₂, h₂, hw₂⟩ := writePadding_accepts hG hw₁ withCrlf
  refine ⟨w₂, ?_, hw₂⟩
  rw [writeBody, Prog.bind_of_ok (Prog.mapErr_of_ok h₁), h₂]

end Parts

variable (cr : Crates)

/-- The parts of a record, through an encoder, and the head with the lengths observed. -/
def writeParts (rec : Record) : Prog (EncodeWrapper cr) BarcError RecordHead := do
  let compress := (← Prog.get).mode
  let withCrlf := compress.withCrlf
  let metaH ← writeHeaders withCrlf rec.metaHeaders
  let reqH ← writeHeaders withCrlf rec.reqHeaders
  let reqB ← writeBody withCrlf rec.reqBody
  let resH ← writeHeaders withCrlf rec.resHeaders
  let len := metaH + reqH + resH + reqB
  Prog.assert (len + rec.resBody.len + 2 ≤ v2MaxRecord) "body exceeds size limit"
  let resB ← writeBody withCrlf rec.resBody
  EncodeWrapper.finish
  pure ⟨len + resB, rec.recType, compress, metaH, reqH, reqB, resH⟩

/-- `write_record`, with the encoder that the strategy wraps the file in. -/
def writeRecord (rec : Record) (enc : Encoder) : Prog OutFile BarcError RecordHead := fun f =>
  let x := writeParts cr rec ⟨f, enc, []⟩
  (x.1, x.2.file)

/-- `BarcWriter::write`. -/
def write (rec : Record) (enc : Encoder) : Prog OutFile BarcError Nat := do
  -- The initial head is a place holder.
  let start ← Prog.mapErr .io OutFile.seekEnd
  writeRecordHead .v2Reserve
  Prog.mapErr .io OutFile.flush
  let head ← writeRecord cr rec enc
  -- The new offset gives the total length.
  let stop ← Prog.mapErr .io OutFile.tell
  Prog.assert (start + v2HeadSize ≤ stop) "assertion failed: end >= (start + (V2_HEAD_SIZE as u64))"
  let len := stop - start - v2HeadSize
  Prog.assert (head.compress ≠ .plain ∨ head.len = len) "assertion failed: orig_len == head.len"
  let _ ← Prog.mapErr .io (OutFile.seekStart start)
  writeRecordHead { head with len }
  let _ ← Prog.mapErr .io OutFile.seekEnd
  Prog.mapErr .io OutFile.flush
  pure start

/-! ## When the file operations succeed -/

/-- The parts of a record are written as its contents have them, or are over a limit. -/
theorem writeParts_fed {f : OutFile} {enc : Encoder} {w : EncodeWrapper cr}
    (hw : EncodeWrapper.Fed f enc w []) {rec : Record} {c : Contents} (hr : rec.Holds c) :
    Prog.OkElsePanic (c.Within enc.mode.withCrlf)
      (fun head w' => ∃ payload, Encodes cr enc.mode (c.parts enc.mode.withCrlf) payload ∧
        f.Grown payload w'.file ∧
        head = ⟨(c.parts enc.mode.withCrlf).length, .dialog, enc.mode,
          (block enc.mode.withCrlf c.metaHeaders).length,
          (block enc.mode.withCrlf c.reqHeaders).length,
          (pad enc.mode.withCrlf c.reqBody).length,
          (block enc.mode.withCrlf c.resHeaders).length⟩)
      (writeParts cr rec w) := by
  have hG : Accepts fun (w : EncodeWrapper cr) got => EncodeWrapper.Fed f enc w got :=
    EncodeWrapper.fed_accepts f enc
  have hmode : w.mode = enc.mode := by rw [EncodeWrapper.mode, hw.enc_eq]
  rw [writeParts, Prog.get_bind, hmode]
  generalize hcrlf : enc.mode.withCrlf = withCrlf
  refine Prog.OkElsePanic.congr ?_ (c.within_iff withCrlf)
  obtain ⟨htype, hmeta, hreq, hreqB, hres, hresB⟩ := hr
  rw [hmeta, hreq, hres]
  refine (writeHeaders_accepts hG hw withCrlf c.metaHeaders).bind ?_
  rintro - n₁ w₁ ⟨hn₁, hw₁⟩
  refine (writeHeaders_accepts hG hw₁ withCrlf c.reqHeaders).bind ?_
  rintro - n₂ w₂ ⟨hn₂, hw₂⟩
  obtain ⟨w₃, h₃, hw₃⟩ := writeBody_accepts hG hw₂ withCrlf hreqB
  refine Prog.OkElsePanic.bind_ok h₃ ?_
  refine (writeHeaders_accepts hG hw₃ withCrlf c.resHeaders).bind ?_
  rintro - n₄ w₄ ⟨hn₄, hw₄⟩
  have hfore : n₁ + n₂ + n₄ + (pad withCrlf c.reqBody).length = (c.fore withCrlf).length := by
    rw [hn₁, hn₂, hn₄]
    simp only [Contents.fore, List.length_append]
    omega
  have hlen : rec.resBody.len = c.resBody.length := hresB.1
  simp only [hfore, hlen]
  refine Prog.OkElsePanic.assert_bind fun _ => ?_
  obtain ⟨w₅, h₅, hw₅⟩ := writeBody_accepts hG hw₄ withCrlf hresB
  refine Prog.OkElsePanic.bind_ok h₅ ?_
  obtain ⟨w₆, payload, h₆, henc, hgrown⟩ := EncodeWrapper.finish_fed hw₅
  have hparts : [] ++ block withCrlf c.metaHeaders ++ block withCrlf c.reqHeaders ++
      pad withCrlf c.reqBody ++ block withCrlf c.resHeaders ++ pad withCrlf c.resBody =
      c.parts withCrlf := by
    simp only [Contents.parts, Contents.fore, List.nil_append]
  rw [hparts] at henc
  refine Prog.OkElsePanic.bind_ok h₆ (.inl ⟨trivial, _, w₆, rfl, payload, henc, hgrown, ?_⟩)
  rw [hn₁, hn₂, hn₄, htype, Contents.parts, List.length_append]

/-- The writes of one record: the place holder, the payload piece by piece, the final head. -/
def recordOps (start : Nat) (pieces : List Bytes) (head : RecordHead) : List FileOp :=
  ⟨start, RecordHead.v2Reserve.format⟩ :: FileOp.place (start + v2HeadSize) pieces ++
    [⟨start, head.format⟩]

/-- `f'` is `f` after a record has been written at its end. -/
structure Written (f : OutFile) (head : RecordHead) (payload : Bytes) (f' : OutFile) : Prop where
  calm : f'.Calm
  content_eq : f'.content = f.content ++ (head.format ++ payload)
  log_eq : ∃ pieces, pieces.flatten = payload ∧
    f'.log = f.log ++ recordOps f.content.length pieces head

/-- All limits on a record, its encoded form included. -/
structure Contents.Fits (c : Contents) (mode : Compression) : Prop where
  within : c.Within mode.withCrlf
  req_body_le : (pad mode.withCrlf c.reqBody).length ≤ v2MaxReqBody
  payload_le : ∀ payload, Encodes cr mode (c.parts mode.withCrlf) payload →
    payload.length ≤ v2MaxRecord

/-- A record is written as its contents have it, if the lengths observed are within the limits. -/
theorem writeRecord_calm {f : OutFile} (hf : f.Calm) (hpos : f.pos = f.content.length)
    {rec : Record} {c : Contents} (hr : rec.Holds c) (enc : Encoder) :
    Prog.OkElsePanic (c.Within enc.mode.withCrlf)
      (fun head f' => ∃ payload, Encodes cr enc.mode (c.parts enc.mode.withCrlf) payload ∧
        f.Grown payload f' ∧
        head = ⟨(c.parts enc.mode.withCrlf).length, .dialog, enc.mode,
          (block enc.mode.withCrlf c.metaHeaders).length,
          (block enc.mode.withCrlf c.reqHeaders).length,
          (pad enc.mode.withCrlf c.reqBody).length,
          (block enc.mode.withCrlf c.resHeaders).length⟩)
      (writeRecord cr rec enc f) := by
  rcases writeParts_fed cr (EncodeWrapper.fed_start hf hpos enc) hr with
    ⟨hp, head, w', hw, hq⟩ | ⟨hp, msg, w', hw⟩
  · exact .inl ⟨hp, head, w'.file, by rw [writeRecord, hw], hq⟩
  · exact .inr ⟨hp, msg, w'.file, by rw [writeRecord, hw]⟩

/-- The final head goes over the reserved one. -/
theorem put_head {f : OutFile} {head : RecordHead} (hf : head.Fits) {a z : Bytes}
    (hc : f.content = a ++ (RecordHead.v2Reserve.format ++ z)) (hpos : f.pos = a.length) :
    (f.put head.format).content = a ++ (head.format ++ z) := by
  rw [OutFile.put_content, hc, hpos, ← List.append_assoc, FileOp.apply_over, List.append_assoc]
  rw [hf.format_length, RecordHead.v2Reserve_fits.format_length]

theorem format_ne_nil {head : RecordHead} (hf : head.Fits) : head.format ≠ [] := by
  intro h
  have := hf.format_length
  rw [h] at this
  cases this

theorem writeRecordHead_calm {f : OutFile} (h : f.Calm) {head : RecordHead} (hf : head.Fits) :
    writeRecordHead head f = (.ok (), f.put head.format) := by
  refine writeRecordHead_of hf ?_
  rw [OutFile.writeAll_def, OutFile.write_calm h (format_ne_nil hf)]

/-- **`BarcWriter::write`** when the file operations succeed: it returns the offset of the record
and has written it, or an assertion fails on a record that is over the limits. -/
theorem write_calm {f : OutFile} (hf : f.Calm) {rec : Record} {c : Contents} (hr : rec.Holds c)
    (enc : Encoder) :
    (∃ head payload f', write cr rec enc f = (.ok f.content.length, f') ∧
      head.compress = enc.mode ∧ Laid cr c head payload ∧ Written f head payload f') ∨
    (¬ c.Fits cr enc.mode ∧ ∃ msg f', write cr rec enc f = (.panic msg, f')) := by
  have hres := RecordHead.v2Reserve_fits
  -- The place holder goes to the end of the file.
  obtain ⟨f₁, hseek, hcalm₁, hc₁, hpos₁, hlog₁⟩ : ∃ f₁, Prog.mapErr .io OutFile.seekEnd f =
      ((.ok f.content.length : Res BarcError Nat), f₁) ∧ f₁.Calm ∧ f₁.content = f.content ∧
      f₁.pos = f.content.length ∧ f₁.log = f.log :=
    ⟨_, Prog.mapErr_of_ok (OutFile.seekTo_calm hf _), hf, rfl, rfl, rfl⟩
  have hreserve := writeRecordHead_calm hcalm₁ hres
  have hcalm₂ := hcalm₁.put RecordHead.v2Reserve.format
  have hc₂ : (f₁.put RecordHead.v2Reserve.format).content =
      f.content ++ RecordHead.v2Reserve.format := by
    rw [OutFile.put_content, hpos₁, hc₁, FileOp.apply_end]
  have hpos₂ : (f₁.put RecordHead.v2Reserve.format).pos = f.content.length + v2HeadSize := by
    rw [OutFile.put_pos, hpos₁, hres.format_length]
  have hlog₂ : (f₁.put RecordHead.v2Reserve.format).log =
      f.log ++ [⟨f.content.length, RecordHead.v2Reserve.format⟩] := by
    rw [OutFile.put_log, hpos₁, hlog₁]
  generalize f₁.put RecordHead.v2Reserve.format = f₂ at hreserve hcalm₂ hc₂ hpos₂ hlog₂
  have hflush₂ : Prog.mapErr .io OutFile.flush f₂ = ((.ok () : Res BarcError Unit), f₂) :=
    Prog.mapErr_of_ok (OutFile.flush_calm hcalm₂)
  rw [write, Prog.bind_of_ok hseek, Prog.bind_of_ok hreserve, Prog.bind_of_ok hflush₂]
  have hend₂ : f₂.pos = f₂.content.length := by
    rw [hpos₂, hc₂, List.length_append, hres.format_length]
  rcases writeRecord_calm cr hcalm₂ hend₂ hr enc with
    ⟨hwithin, head, f₃, hw, payload, henc, hgrown, hhead⟩ | ⟨hwithin, msg, f₃, hw⟩
  swap
  · exact .inr ⟨fun h => hwithin h.within, msg, f₃, Prog.bind_of_panic hw⟩
  -- The record is there; its length is that of the payload.
  have hc₃ : f₃.content = f.content ++ (RecordHead.v2Reserve.format ++ payload) := by
    rw [hgrown.content_eq, hc₂, List.append_assoc]
  have hpos₃ : f₃.pos = f.content.length + v2HeadSize + payload.length := by
    rw [hgrown.pos_eq, hc₃, List.length_append, List.length_append, hres.format_length,
      Nat.add_assoc]
  have htell : Prog.mapErr .io OutFile.tell f₃ = ((.ok f₃.pos : Res BarcError Nat), f₃) :=
    Prog.mapErr_of_ok (OutFile.seekTo_calm hgrown.calm _)
  have hlen : f₃.pos - f.content.length - v2HeadSize = payload.length := by omega
  have hplain : head.compress ≠ .plain ∨ head.len = payload.length := by
    rcases henc with ⟨hm, hp⟩ | ⟨hm, -⟩
    · refine .inr ?_
      rw [hhead, hp]
    · refine .inl ?_
      rw [hhead]
      exact hm
  rw [Prog.bind_of_ok hw, Prog.bind_of_ok htell,
    Prog.bind_of_ok (Prog.assert_true (decide_eq_true (by omega)) _ _), hlen,
    Prog.bind_of_ok (Prog.assert_true (decide_eq_true hplain) _ _)]
  obtain ⟨f₄, hseek₄, hcalm₄, hc₄, hpos₄, hlog₄⟩ : ∃ f₄,
      Prog.mapErr .io (OutFile.seekStart f.content.length) f₃ =
        ((.ok f.content.length : Res BarcError Nat), f₄) ∧ f₄.Calm ∧ f₄.content = f₃.content ∧
      f₄.pos = f.content.length ∧ f₄.log = f₃.log :=
    ⟨_, Prog.mapErr_of_ok (OutFile.seekTo_calm hgrown.calm _), hgrown.calm, rfl, rfl, rfl⟩
  rw [Prog.bind_of_ok hseek₄]
  by_cases hfits : ({ head with len := payload.length } : RecordHead).Fits
  swap
  · obtain ⟨msg, f₅, hw₅⟩ := writeRecordHead_panics hfits f₄
    refine .inr ⟨fun h => hfits ?_, msg, f₅, Prog.bind_of_panic hw₅⟩
    rw [hhead]
    exact ⟨h.payload_le payload henc, h.within.meta_le, h.within.req_le, h.req_body_le,
      h.within.res_le⟩
  -- The final head replaces the place holder.
  generalize hfinal : ({ head with len := payload.length } : RecordHead) = final at hfits
  have hwrite := writeRecordHead_calm hcalm₄ hfits
  have hcalm₅ := hcalm₄.put final.format
  have hc₅ := put_head hfits (hc₄.trans hc₃) hpos₄
  have hlog₅ : (f₄.put final.format).log = f₃.log ++ [⟨f.content.length, final.format⟩] := by
    rw [OutFile.put_log, hpos₄, hlog₄]
  generalize f₄.put final.format = f₅ at hwrite hcalm₅ hc₅ hlog₅
  obtain ⟨f₆, hseek₆, hcalm₆, hc₆, hlog₆⟩ : ∃ f₆, Prog.mapErr .io OutFile.seekEnd f₅ =
      ((.ok f₅.content.length : Res BarcError Nat), f₆) ∧ f₆.Calm ∧ f₆.content = f₅.content ∧
      f₆.log = f₅.log :=
    ⟨_, Prog.mapErr_of_ok (OutFile.seekTo_calm hcalm₅ _), hcalm₅, rfl, rfl⟩
  have hflush₆ : Prog.mapErr .io OutFile.flush f₆ = ((.ok () : Res BarcError Unit), f₆) :=
    Prog.mapErr_of_ok (OutFile.flush_calm hcalm₆)
  refine .inl ⟨final, payload, f₆, ?_, ?_, ?_, hcalm₆, hc₆.trans hc₅, ?_⟩
  · rw [Prog.bind_of_ok hwrite, Prog.bind_of_ok hseek₆, Prog.bind_of_ok hflush₆]
    rfl
  · rw [← hfinal, hhead]
  · rw [← hfinal] at hfits ⊢
    rw [hhead] at hfits ⊢
    exact ⟨rfl, henc, rfl, rfl, rfl, rfl, rfl, hwithin, hfits⟩
  · obtain ⟨pieces, hflat, hlog₃⟩ := hgrown.log_eq
    refine ⟨pieces, hflat, ?_⟩
    rw [hlog₆, hlog₅, hlog₃, hlog₂, ← hend₂, hpos₂]
    simp only [recordOps, List.append_assoc, List.cons_append, List.nil_append]

end BodyArchive
