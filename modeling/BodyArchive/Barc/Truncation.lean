import BodyArchive.Barc.RoundTrip
import BodyArchive.Barc.ReqBody

/-!
# Cut files

What a reader makes of an archive of which only the first bytes are there. The records that are whole
come back, and the record that is cut is an error wherever `read` would take a missing byte: in its
head, in a header block, in a body that goes to RAM, and anywhere in a compressed payload, as a decoder
reports a cut stream.

A body that is left in the archive is not taken; `slice_body` seeks past it, and past the end of the
file as well. So a plain record of which nothing but such bodies is missing is returned like a whole one
(`cut_unnoticed`). `needed` says how far a plain record has to be there, and `cut_read` what happens at
every cut.
-/

namespace BodyArchive

/-! ## Parts that are taken or left -/

/-- A part of something read in sequence: its length, and whether it is left where it is. -/
structure Part where
  len : Nat
  deferred : Bool
  deriving DecidableEq

/-- How much of the parts has to be there: up to the end of the last one that is taken. -/
def needed : List Part → Nat
  | [] => 0
  | part :: rest =>
    if needed rest = 0 then (if part.deferred then 0 else part.len) else part.len + needed rest

/-- The first part is left or is there, and so on with the others behind it. -/
theorem needed_le {part : Part} {rest : List Part} {q : Nat} :
    needed (part :: rest) ≤ q ↔
      (part.deferred = true ∨ part.len ≤ q) ∧ needed rest ≤ q - part.len := by
  rw [needed]
  by_cases hrest : needed rest = 0
  · rw [if_pos hrest, hrest]
    cases part.deferred <;> simp
  · rw [if_neg hrest]
    cases part.deferred <;> simp <;> omega

/-- A step that takes a part if it is there, and behind it the steps for the others. -/
theorem Prog.OkIff.bind_part {σ ε α β : Type} (part : Part) {rest : List Part} {q : Nat}
    {Q : α → σ → Prop} {Q' : β → σ → Prop} {m : Prog σ ε α} {f : α → Prog σ ε β} {s : σ}
    (hm : OkIff (part.deferred = true ∨ part.len ≤ q) Q (m s))
    (hf : ∀ a s', Q a s' → OkIff (needed rest ≤ q - part.len) Q' (f a s')) :
    OkIff (needed (part :: rest) ≤ q) Q' ((m >>= f) s) :=
  (hm.bind fun _ => hf).congr needed_le.symm

/-- A cut behind `a`. -/
theorem take_behind (a z : Bytes) {q : Nat} (h : a.length ≤ q) :
    (a ++ z).take q = a ++ z.take (q - a.length) := by
  rw [List.take_append, List.take_of_length_le h]

/-- A cut inside `a`. -/
theorem length_take_inside (a z : Bytes) {q : Nat} (h : q < a.length) :
    ((a ++ z).take q).length < a.length := by
  rw [List.length_take]
  omega

/-! ## The parts of a record -/

section Parts

variable {R : Type} [Source R] {r : R} {p q : Nat} {withCrlf : Bool} {z : Bytes} {t : Tail}

theorem readHeaders_cut {cr : Crates} {headers : HeaderMap} (hback : ParsesBack cr headers)
    (h : Rest r p ((block withCrlf headers ++ z).take q) t) (ht : t ≠ .more) :
    Prog.OkIff ((block withCrlf headers).length ≤ q)
      (fun hs r' => hs = headers ∧ Rest r' (p + (block withCrlf headers).length)
        (z.take (q - (block withCrlf headers).length)) t)
      (readHeaders cr withCrlf (block withCrlf headers).length r) := by
  by_cases hq : (block withCrlf headers).length ≤ q
  · rw [take_behind _ _ hq] at h
    obtain ⟨r', hr, hrest⟩ := readHeaders_block cr h
    rw [hback] at hr
    exact .inl ⟨hq, headers, r', hr, rfl, hrest⟩
  · have hne : headers ≠ .empty := by
      intro hnil
      rw [block, headerLines_eq_nil.mpr hnil, pad_nil] at hq
      exact hq (Nat.zero_le _)
    have hlines : (headerLines headers).length ≤ (block withCrlf headers).length := by
      rw [block, pad]
      split <;> simp
    have hlong := Nat.lt_of_lt_of_le (two_lt_headerLines hne) hlines
    have hshort := length_take_inside (block withCrlf headers) z (Nat.lt_of_not_le hq)
    obtain ⟨r', hr⟩ := readHeaders_short cr h ht hlong hshort withCrlf
    exact .inr ⟨hq, _, r', hr⟩

theorem readBodyRam_cut {bs : Bytes} (h : Rest r p ((pad withCrlf bs ++ z).take q) t)
    (ht : t ≠ .more) :
    Prog.OkIff ((pad withCrlf bs).length ≤ q)
      (fun im r' => im.len = bs.length ∧ Rest r' (p + (pad withCrlf bs).length)
        (z.take (q - (pad withCrlf bs).length)) t)
      (readBodyRam withCrlf (pad withCrlf bs).length r) := by
  by_cases hq : (pad withCrlf bs).length ≤ q
  · rw [take_behind _ _ hq] at h
    obtain ⟨im, r', hr, hbacks, hrest⟩ := readBodyRam_pad h
    exact .inl ⟨hq, im, r', hr, hbacks.1, hrest⟩
  · have hne : bs ≠ [] := by
      intro hnil
      rw [hnil, pad_nil] at hq
      exact hq (Nat.zero_le _)
    have hassert : (!withCrlf || decide (2 < (pad withCrlf bs).length)) = true := by
      cases withCrlf with
      | false => rfl
      | true => simpa using two_lt_pad_length hne
    have hshort := length_take_inside (pad withCrlf bs) z (Nat.lt_of_not_le hq)
    obtain ⟨r', hr, -⟩ := readExact_short h ht hshort
    refine .inr ⟨hq, .io t.error, r', ?_⟩
    rw [readBodyRam, if_neg (by omega), Prog.bind_of_ok (Prog.assert_true hassert _ _),
      Prog.bind_of_err (Prog.mapErr_of_err hr)]

end Parts

/-! ## Compressed records -/

/-- The header blocks of a record are read as its header maps. -/
structure Contents.ParseBack (cr : Crates) (c : Contents) : Prop where
  meta_back : ParsesBack cr c.metaHeaders
  req_back : ParsesBack cr c.reqHeaders
  res_back : ParsesBack cr c.resHeaders

section Records

variable {cr : Crates} (tune : Tunables) {c : Contents} {head : RecordHead} {payload : Bytes}

/-- From a stream that breaks off, the request body is read if it comes before that. -/
theorem readReqBody_cut {st : Stream} {out : Bytes} {e : IoError} (h : st.AtRest out (.failed e))
    (len : Nat) :
    Prog.OkIff (len ≤ out.length ∧ (tune.maxBodyRam < len → tune.TempOk))
      (fun _ st' => st'.AtRest (out.drop len) (.failed e)) (readReqBody tune len st) := by
  rw [readReqBody]
  split
  · next hram =>
    rcases readBodyRam_readsNext h len with ⟨hlen, im, st', hr, -, hat⟩ | ⟨hlen, e', st', hr, -⟩
    · exact .inl ⟨⟨hlen, fun hlt => absurd hram (Nat.not_le_of_lt hlt)⟩, im, st', hr, hat⟩
    · exact .inr ⟨fun hc => absurd hc.1 (Nat.not_le_of_lt hlen), e', st', hr⟩
  · next hlong =>
    have hlong' := Nat.lt_of_not_le hlong
    rcases readBodyFs_ends tune h len with
      ⟨im, st', hr, -, hwhen, hat⟩ | ⟨e', st', hr, -, hshort, -⟩ | ⟨e', hr, htemp, -⟩
    · rcases hwhen with hz | ⟨htemp, hlen | heof⟩
      · rw [hz] at hlong'
        cases hlong'
      · exact .inl ⟨⟨hlen, fun _ => htemp⟩, im, st', hr, hat⟩
      · cases heof
    · exact .inr ⟨fun hc => absurd hc.1 (Nat.not_le_of_lt hshort), e', st', hr⟩
    · exact .inr ⟨fun hc => htemp (hc.2 hlong'), e', st, hr⟩

/-- The parts of a compressed record, from a decoder that breaks off. However far it comes, the
response body is read to the end of the stream, and meets the error. -/
theorem readParts_cut (hl : Laid cr c head payload) (hmode : head.compress ≠ .plain)
    (hback : c.ParseBack cr) {st : Stream} {out : Bytes} {e : IoError} (hout : out <+: c.parts false)
    (h : st.AtRest out (.failed e)) : ∃ e' st', readParts cr tune head st = (.err e', st') := by
  obtain ⟨hm, hq, hs⟩ := hback
  obtain ⟨-, -, -, hmeta, hreq, hreqB, hres, hwithin, -⟩ := hl
  have hcrlf : head.compress.withCrlf = false := by simp [Compression.withCrlf, hmode]
  rw [hcrlf] at hmeta hreq hreqB hres hwithin
  have ht : Tail.failed e ≠ .more := by simp
  have hbytes : c.parts false = block false c.metaHeaders ++ (block false c.reqHeaders ++
      (c.reqBody ++ (block false c.resHeaders ++ c.resBody))) := by
    simp only [Contents.parts, Contents.fore, pad_false, List.append_assoc]
  have hrest : Rest st 0 ((block false c.metaHeaders ++ (block false c.reqHeaders ++
      (c.reqBody ++ (block false c.resHeaders ++ c.resBody)))).take out.length) (.failed e) := by
    rw [← hbytes, ← List.prefix_iff_eq_take.mp hout]
    exact h
  rw [readParts, hmeta, hreq, hreqB, pad_false, hres]
  refine (readHeaders_cut hm hrest ht).bind_err fun _ _ s₁ h₁ => ?_
  refine (readHeaders_cut hq h₁.2 ht).bind_err fun _ _ s₂ h₂ => ?_
  refine (readReqBody_cut tune h₂.2 _).bind_err fun _ _ s₃ h₃ => ?_
  rw [List.drop_take, List.drop_left] at h₃
  have hrest₃ : Rest s₃ 0 _ _ := Stream.rest_iff.mpr h₃
  refine (readHeaders_cut hs hrest₃ ht).bind_err fun _ _ s₄ h₄ => ?_
  have hroom := hwithin.len_le
  refine ((BodyImage.readFrom_rest tune h₄.2 ht 4096 fun _ => ?_).mapErr BarcError.body).bind_err
    fun hend => ?_
  · rw [List.length_take]
    simp only [v2MaxRecord, usizeMax] at hroom ⊢
    omega
  · exact absurd hend.1 (by simp)

/-- **A compressed record that is cut** is an error. -/
theorem readCompressed_cut {σ : Type} (hcodec : cr.CodecLawful) (hl : Laid cr c head payload)
    (hmode : head.compress ≠ .plain) (hback : c.ParseBack cr) {rs : ReadSlice} {p q : Nat}
    (hq : q < payload.length) (h : Rest rs p (payload.take q) .eof) (s : σ) :
    ∃ e, readCompressed cr tune rs head s = (.err e, s) := by
  have hcrlf : head.compress.withCrlf = false := by simp [Compression.withCrlf, hmode]
  rw [readCompressed]
  by_cases hbuilt : cr.built head.compress = true
  · rcases hl.payload_eq with ⟨hm, -⟩ | ⟨-, level, chunks, hchunks, hpay⟩
    · exact absurd hm hmode
    have hshort : payload.take q ≠ payload := by
      intro hall
      have hlen := congrArg List.length hall
      rw [List.length_take] at hlen
      omega
    rw [hcrlf] at hchunks
    rw [hpay] at h hshort
    obtain ⟨out, e, hout, hat⟩ := hcodec.decode_cut hmode hbuilt (List.take_prefix q _) hshort h
    rw [hchunks] at hout
    obtain ⟨e', st', hr⟩ := readParts_cut tune hl hmode hback hout hat
    refine ⟨e', ?_⟩
    rw [decodeWrapper_built hmode hbuilt rs tune.bufferSizeRam]
    simp only [Res.ofExcept]
    rw [Prog.bind_of_ok (Prog.ofRes_run _ s), Prog.onOwn_run, hr]
  · rw [decodeWrapper_not_built hbuilt rs tune.bufferSizeRam]
    exact ⟨_, Prog.bind_of_err rfl⟩

/-! ## Plain records -/

theorem sliceBody_cut {rp : ReadPos} {p q : Nat} {bs z : Bytes}
    (h : Rest rp p ((pad true bs ++ z).take q) .eof) (hne : bs ≠ []) :
    ∃ im rp', sliceBody (pad true bs).length rp = (.ok im, rp') ∧ im.len = bs.length ∧
      Rest rp' (p + (pad true bs).length) (z.take (q - (pad true bs).length)) .eof := by
  have hlen := two_lt_pad_length hne
  obtain ⟨hp, hfair, hfut⟩ := ReadPos.rest_iff.mp h
  have hpad : (pad true bs).length = bs.length + 2 := by
    rw [pad_true hne, List.length_append, crlf_length]
  refine ⟨.fromReadSlice (rp.subslice p (p + (pad true bs).length - 2)),
    { rp with pos := p + (pad true bs).length }, ?_, ?_, rfl, hfair, fun c hc => ?_⟩
  · rw [sliceBody, Prog.bind_of_ok (Prog.assert_true (by simpa using hlen) _ _), Prog.get_bind,
      Prog.bind_of_ok (Prog.mapErr_of_ok (ReadPos.seek_current _ _)), Prog.get_bind, hp]
    rfl
  · have hslice : (rp.subslice p (p + (pad true bs).length - 2)).len = bs.length := by
      simp only [ReadSlice.len, ReadPos.subslice]
      omega
    rw [BodyImage.fromReadSlice, hslice, if_pos (List.length_pos_iff.mpr hne)]
  · -- The position is behind the body, even where the file ends before.
    rw [← List.drop_drop, hfut c hc, List.drop_take, List.drop_left]

/-- The block of a header map is always taken. -/
def Part.ofBlock (headers : HeaderMap) : Part := ⟨(block true headers).length, false⟩

/-- A body is left in the archive if it is longer, with the CRLF behind it, than `max_body_ram`. -/
def Part.ofBody (bs : Bytes) : Part :=
  ⟨(pad true bs).length, decide (tune.maxBodyRam < (pad true bs).length)⟩

/-- The parts of a plain record. -/
def Contents.plainParts (c : Contents) : List Part :=
  [.ofBlock c.metaHeaders, .ofBlock c.reqHeaders, .ofBody tune c.reqBody, .ofBlock c.resHeaders,
    .ofBody tune c.resBody]

theorem readBlock_cut {headers : HeaderMap} (hback : ParsesBack cr headers) {rp : ReadPos} {p q : Nat}
    {z : Bytes} (h : Rest rp p ((block true headers ++ z).take q) .eof) :
    Prog.OkIff ((Part.ofBlock headers).deferred = true ∨ (Part.ofBlock headers).len ≤ q)
      (fun hs rp' => hs = headers ∧ Rest rp' (p + (block true headers).length)
        (z.take (q - (block true headers).length)) .eof)
      (readHeaders cr true (block true headers).length rp) := by
  refine (readHeaders_cut hback h (by simp)).congr ?_
  simp [Part.ofBlock]

theorem readOrSliceBody_cut {rp : ReadPos} {p q : Nat} {bs z : Bytes}
    (h : Rest rp p ((pad true bs ++ z).take q) .eof) :
    Prog.OkIff ((Part.ofBody tune bs).deferred = true ∨ (Part.ofBody tune bs).len ≤ q)
      (fun im rp' => im.len = bs.length ∧ Rest rp' (p + (pad true bs).length)
        (z.take (q - (pad true bs).length)) .eof)
      (readOrSliceBody tune (pad true bs).length rp) := by
  rw [readOrSliceBody]
  split
  · next hram =>
    refine (readBodyRam_cut h (by simp)).congr ?_
    simp [Part.ofBody, hram]
  · next hlong =>
    have hne : bs ≠ [] := by
      intro hnil
      rw [hnil, pad_nil] at hlong
      exact hlong (Nat.zero_le _)
    obtain ⟨im, rp', hr, hlen, hrest⟩ := sliceBody_cut h hne
    exact .inl ⟨.inl (decide_eq_true (Nat.lt_of_not_le hlong)), im, rp', hr, hlen, hrest⟩

/-- A record with the headers of these contents, and bodies that claim their lengths. -/
structure Record.Announces (r : Record) (c : Contents) : Prop where
  rec_type : r.recType = .dialog
  meta_eq : r.metaHeaders = c.metaHeaders
  req_eq : r.reqHeaders = c.reqHeaders
  req_len : r.reqBody.len = c.reqBody.length
  res_eq : r.resHeaders = c.resHeaders
  res_len : r.resBody.len = c.resBody.length

/-- **A plain record that is cut** is an error if it is cut within what is needed of it. -/
theorem readPlain_cut (hl : Laid cr c head payload) (hmode : head.compress = .plain)
    (hback : c.ParseBack cr) {rp : ReadPos} {p q : Nat}
    (h : Rest rp (p + v2HeadSize) (payload.take q) .eof) :
    Prog.OkIff (needed (c.plainParts tune) ≤ q)
      (fun r rp' => r.Announces c ∧ Rest rp' (p + v2HeadSize + payload.length) [] .eof)
      (readPlain cr tune p head rp) := by
  obtain ⟨hm, hq, hs⟩ := hback
  obtain ⟨htype, hpay, hlen, hmeta, hreq, hreqB, hres, -, -⟩ := hl
  have hcrlf : Compression.withCrlf .plain = true := rfl
  rw [hmode, hcrlf] at hpay hmeta hreq hreqB hres
  have hbytes : payload = block true c.metaHeaders ++ (block true c.reqHeaders ++
      (pad true c.reqBody ++ (block true c.resHeaders ++ (pad true c.resBody ++ [])))) := by
    rcases hpay with ⟨-, hp⟩ | ⟨hne, -⟩
    · rw [hp, Contents.parts, Contents.fore]
      simp only [List.append_assoc, List.append_nil]
    · exact absurd rfl hne
  have hplen : payload.length = (block true c.metaHeaders).length +
      (block true c.reqHeaders).length + (pad true c.reqBody).length +
      (block true c.resHeaders).length + (pad true c.resBody).length := by
    rw [hbytes]
    simp only [List.length_append, List.length_nil, Nat.add_zero, Nat.add_assoc]
  rw [hbytes] at h
  rw [readPlain, hmeta, hreq, hreqB, hres]
  refine (readBlock_cut hm h).bind_part _ fun m s₁ h₁ => ?_
  refine (readBlock_cut hq h₁.2).bind_part _ fun r s₂ h₂ => ?_
  refine (readOrSliceBody_cut tune h₂.2).bind_part _ fun im₃ s₃ h₃ => ?_
  refine (readBlock_cut hs h₃.2).bind_part _ fun s s₄ h₄ => ?_
  -- The response body is what the head says beyond the parts so far, cut or not.
  have hpos := (ReadPos.rest_iff.mp h₄.2).pos_eq
  have htaken : s₄.pos - p - v2HeadSize ≤ head.len := by omega
  have hleft : head.len - (s₄.pos - p - v2HeadSize) = (pad true c.resBody).length := by omega
  rw [Prog.get_bind, Prog.bind_of_ok (Prog.assert_true (decide_eq_true htaken) _ _), hleft]
  refine (readOrSliceBody_cut tune h₄.2).bind_part _ fun im₅ s₅ h₅ => ?_
  refine .inl ⟨Nat.zero_le _, _, s₅, rfl, ⟨htype, h₁.1, h₂.1, h₃.1, h₄.1, h₅.1⟩, ?_⟩
  rw [hplen]
  simpa [Nat.add_assoc] using h₅.2

/-! ## Frames -/

/-- In a record of which `m` bytes are there, nothing is missing that `read` takes. -/
def Suffices (mode : Compression) (c : Contents) (m : Nat) : Prop :=
  mode = .plain ∧ v2HeadSize + needed (c.plainParts tune) ≤ m

theorem readRecord_cut (hcodec : cr.CodecLawful) (hl : Laid cr c head payload)
    (hback : c.ParseBack cr) {rp : ReadPos} {p q : Nat} (hq : q < payload.length)
    (h : Rest rp (p + v2HeadSize) (payload.take q) .eof) :
    Prog.OkIff (head.compress = .plain ∧ needed (c.plainParts tune) ≤ q)
      (fun rec rp' => ∃ r, rec = some r ∧ r.Announces c ∧
        Rest rp' (p + v2HeadSize + payload.length) [] .eof)
      (readRecord cr tune p head rp) := by
  have hnot : head.recType ≠ .reserved := by
    rw [hl.rec_type]
    simp
  by_cases hmode : head.compress = .plain
  · rw [readRecord, if_neg hnot, if_neg (not_not_intro hmode)]
    rcases readPlain_cut tune hl hmode hback h with
      ⟨hn, r, rp', hr, hann, hrest⟩ | ⟨hn, e, rp', hr⟩
    · refine .inl ⟨⟨hmode, hn⟩, some r, rp', ?_, r, rfl, hann, hrest⟩
      rw [Prog.bind_of_ok hr]
      rfl
    · exact .inr ⟨fun hc => hn hc.2, e, rp', Prog.bind_of_err hr⟩
  · rw [readRecord, if_neg hnot, if_pos hmode, Prog.get_bind]
    have hat := ReadPos.rest_iff.mp h
    have hslice : Rest (rp.subslice rp.pos (rp.pos + head.len)) (p + v2HeadSize)
        (payload.take q) .eof := by
      rw [hl.len_eq, hat.pos_eq]
      exact hat.slice_past (by rw [List.length_take]; exact Nat.min_le_right _ _)
    simp only [Prog.set_bind]
    refine .inr ⟨fun hc => hmode hc.1, ?_⟩
    exact (readCompressed_cut tune hcodec hl hmode hback hq hslice _).imp fun e he =>
      ⟨_, Prog.bind_of_err he⟩

/-- **A frame that is cut** is an error, unless what is there suffices. Then a record comes back, and
the reader has gone on to where the next one would start. -/
theorem read_frame_cut (hcodec : cr.CodecLawful) {f : Frame} (hf : f.Holds cr c)
    (hback : c.ParseBack cr) {rp : ReadPos} {p m : Nat} (hpos : m ≠ 0) (hm : m < f.bytes.length)
    (h : Rest rp p (f.bytes.take m) .eof) :
    Prog.OkIff (Suffices tune f.head.compress c m)
      (fun rec rp' => ∃ r, rec = some r ∧ r.Announces c ∧ Rest rp' (p + f.bytes.length) [] .eof)
      (read cr tune rp) := by
  have hlen := Laid.format_length hf
  have hflen := hf.bytes_length
  by_cases hhead : m < v2HeadSize
  · -- The head itself is cut.
    obtain ⟨rp₁, h₁, -⟩ := readRecordHead_rest h (by simp) (by simp)
    have hshort : ((f.bytes.take m).take v2HeadSize).length = m := by
      rw [List.length_take, List.length_take]
      omega
    rw [headOf, if_neg (by omega), if_pos (by omega)] at h₁
    refine .inr ⟨fun hc => ?_, _, rp₁, read_of_err h₁⟩
    have := hc.2
    omega
  · have hbytes : f.bytes.take m = f.head.format ++ f.payload.take (m - v2HeadSize) := by
      rw [Frame.bytes, take_behind _ _ (by omega), hlen]
    rw [hbytes] at h
    obtain ⟨rp₁, h₁, hrest₁⟩ := readRecordHead_rest h (by simp) (by simp)
    rw [← hlen, List.take_left, headOf_format hf.fits] at h₁
    rw [← hlen, List.take_left, List.drop_left, hlen] at hrest₁
    rw [read_of_head h₁, (ReadPos.rest_iff.mp h).pos_eq, hflen, ← Nat.add_assoc]
    refine (readRecord_cut tune hcodec hf hback (by omega) hrest₁).congr ?_
    exact and_congr_right fun _ => by omega

end Records

/-! ## Archives -/

/-- How many of the records that lie between these bounds are whole within the first `k` bytes. -/
def wholeWithin (k : Nat) (bounds : List Nat) : Nat := (bounds.tail.takeWhile (· ≤ k)).length

/-- Where the frames start, and where the last one ends. -/
def bounds (p : Nat) (fs : List Frame) : List Nat := starts p fs ++ [p + (archive fs).length]

theorem bounds_cons (p : Nat) (f : Frame) (fs : List Frame) :
    bounds p (f :: fs) = p :: bounds (p + f.bytes.length) fs := by
  rw [bounds, bounds, starts, archive_cons, List.length_append, List.cons_append, Nat.add_assoc]

theorem bounds_head (p : Nat) (fs : List Frame) : ∃ rest, bounds p fs = p :: rest := by
  cases fs with
  | nil => exact ⟨[], rfl⟩
  | cons f fs => exact ⟨_, bounds_cons p f fs⟩

theorem le_of_mem_bounds {p : Nat} {fs : List Frame} {b : Nat} (h : b ∈ bounds p fs) : p ≤ b := by
  induction fs generalizing p with
  | nil => exact Nat.le_of_eq (List.mem_singleton.mp h).symm
  | cons f fs ih =>
    rw [bounds_cons] at h
    rcases List.mem_cons.mp h with rfl | h
    · exact Nat.le_refl _
    · exact Nat.le_trans (Nat.le_add_right _ _) (ih h)

theorem wholeWithin_cons (k p : Nat) (f : Frame) (fs : List Frame) :
    wholeWithin k (bounds p (f :: fs)) =
      if p + f.bytes.length ≤ k then wholeWithin k (bounds (p + f.bytes.length) fs) + 1 else 0 := by
  obtain ⟨rest, hrest⟩ := bounds_head (p + f.bytes.length) fs
  rw [bounds_cons, wholeWithin, wholeWithin, hrest, List.tail_cons, List.tail_cons]
  split
  · next h => rw [List.takeWhile_cons_of_pos (by simpa using h), List.length_cons]
  · next h => rw [List.takeWhile_cons_of_neg (by simpa using h), List.length_nil]

/-- An archive that starts at `p` is cut at `k`: there are `n` whole frames, and `m` bytes of the next. -/
structure CutAt (p k : Nat) (fs : List Frame) (n m : Nat) : Prop where
  whole : wholeWithin k (bounds p fs) = n
  bytes : (archive fs).take (k - p) = archive (fs.take n) ++ (archive (fs.drop n)).take m
  at_eq : k = p + (archive (fs.take n)).length + m
  next : m ≠ 0 → ∃ f, fs[n]? = some f ∧ m < f.bytes.length
  bound : k ∈ bounds p fs ↔ m = 0

/-- Every cut is one of these. -/
theorem exists_cutAt {fs : List Frame} (hne : ∀ f ∈ fs, 0 < f.bytes.length) {p k : Nat} (hp : p ≤ k)
    (hk : k ≤ p + (archive fs).length) : ∃ n m, CutAt p k fs n m := by
  induction fs generalizing p with
  | nil =>
    obtain rfl : k = p := Nat.le_antisymm hk hp
    exact ⟨0, 0, rfl, by simp [archive], by simp [archive], by simp, by simp [bounds, starts, archive]⟩
  | cons f fs ih =>
    have hf := hne f (by simp)
    rw [archive_cons, List.length_append] at hk
    by_cases hnext : p + f.bytes.length ≤ k
    · -- The first frame is whole.
      obtain ⟨n, m, hwhole, hbytes, hat, hnextm, hbound⟩ :=
        ih (fun g hg => hne g (by simp [hg])) hnext (by omega)
      refine ⟨n + 1, m, ?_, ?_, ?_, by simpa using hnextm, ?_⟩
      · rw [wholeWithin_cons, if_pos hnext, hwhole]
      · rw [archive_cons, take_behind _ _ (by omega), List.take_succ_cons, archive_cons,
          List.drop_succ_cons, List.append_assoc, ← hbytes, Nat.sub_sub]
      · rw [List.take_succ_cons, archive_cons, List.length_append]
        omega
      · rw [bounds_cons, List.mem_cons, hbound]
        constructor
        · rintro (hkp | hm)
          · omega
          · exact hm
        · exact .inr
    · refine ⟨0, k - p, ?_, by simp [archive], by simp [archive]; omega, ?_, ?_⟩
      · rw [wholeWithin_cons, if_neg hnext]
      · intro _
        exact ⟨f, rfl, by omega⟩
      · rw [bounds_cons, List.mem_cons]
        constructor
        · rintro (hkp | hlater)
          · omega
          · exact absurd (le_of_mem_bounds hlater) hnext
        · intro hm
          exact .inl (by omega)

/-- **Reading a cut file.** Take records that were written one after the other, and only the first `k`
bytes of the file, with `n` records whole in them. If these can be read with the tunables, a reader at
the start gets them in order. If `k` is where a record starts or the last one ends, it then gets no
more. Otherwise, given that its header blocks parse back, the record that is cut is an error; unless
all that is missing of it lies in bodies that are left in the archive. Then a record comes back that
claims the whole lengths, and only after it there is no more. -/
theorem cut_read {cr : Crates} {tune : Tunables} (hcodec : cr.CodecLawful) {jobs : List Job}
    {f f' : OutFile} (hf : f.Calm) (hempty : f.content = []) {offsets : List Nat}
    (hw : writeAllRecords cr (jobs.map fun j => (j.record, j.enc)) f = (.ok offsets, f'))
    {k n : Nat} (hk : k ≤ f'.content.length)
    (hn : wholeWithin k (offsets ++ [f'.content.length]) = n)
    (hwhole : ∀ j ∈ jobs.take n, Readable cr tune j.enc.mode j.contents)
    (hcut : ∀ j, jobs[n]? = some j → j.contents.ParseBack cr)
    {file : File} (hown : file.Own) (hfile : file.content = f'.content.take k) :
    ∃ rs rp, Reads cr tune ⟨file, 0⟩ ((offsets.take n).zip rs) rp ∧
      List.Forall₂ (fun r (j : Job) => r.Holds j.contents) rs (jobs.take n) ∧
      (k ∈ offsets ++ [f'.content.length] → ∃ rp', read cr tune rp = (.ok none, rp')) ∧
      (k ∉ offsets ++ [f'.content.length] → ∃ o j, offsets[n]? = some o ∧ jobs[n]? = some j ∧
        Prog.OkIff (Suffices tune j.enc.mode j.contents (k - o))
          (fun rec rp₁ => ∃ r, rec = some r ∧ r.Announces j.contents ∧
            ∃ rp₂, read cr tune rp₁ = (.ok none, rp₂))
          (read cr tune rp)) := by
  obtain ⟨fs, hoffsets, hcontent, hall⟩ := writeAllRecords_frames jobs hf hempty hw
  have hbounds : offsets ++ [f'.content.length] = bounds 0 fs := by
    rw [hoffsets, hcontent, bounds, Nat.zero_add]
  rw [hbounds] at hn ⊢
  have hpos : ∀ fr ∈ fs, 0 < fr.bytes.length := by
    intro fr hfr
    obtain ⟨i, hi, rfl⟩ := List.mem_iff_getElem.mp hfr
    have hle := (hall.get hi (by rwa [← hall.length_eq])).1.head_le
    exact Nat.lt_of_lt_of_le (by decide) hle
  obtain ⟨n', m, hcutAt⟩ := exists_cutAt hpos (Nat.zero_le k) (by rwa [Nat.zero_add, ← hcontent])
  obtain rfl : n' = n := hcutAt.whole.symm.trans hn
  have hreads := reads_of_readable (List.forall₂_take n' hall) hwhole
  have hrest : Rest (⟨file, 0⟩ : ReadPos) 0
      (archive (fs.take n') ++ (archive (fs.drop n')).take m) .eof := by
    have hr := ReadPos.rest_own hown 0
    rwa [hfile, List.drop_zero, hcontent, ← Nat.sub_zero k, hcutAt.bytes] at hr
  obtain ⟨rs, rp, hseq, hheld, hend⟩ := reads_archive hcodec hreads hrest
  rw [starts_take, ← hoffsets] at hseq
  rw [Nat.zero_add] at hend
  refine ⟨rs, rp, hseq, List.forall₂_map_right_iff.mp hheld, fun hmem => ?_, fun hmem => ?_⟩
  · rw [hcutAt.bound.mp hmem, List.take_zero] at hend
    obtain ⟨rp', hnone, -⟩ := read_end hend
    exact ⟨rp', hnone⟩
  · -- The record that is cut.
    have hm : m ≠ 0 := fun hm => hmem (hcutAt.bound.mpr hm)
    obtain ⟨fr, hfr, hshort⟩ := hcutAt.next hm
    obtain ⟨hlt, rfl⟩ := List.getElem?_eq_some_iff.mp hfr
    have hlt' : n' < jobs.length := by rwa [← hall.length_eq]
    have hj : jobs[n']? = some jobs[n'] := List.getElem?_eq_getElem hlt'
    have hholds : fs[n'].Holds cr jobs[n'].contents := (hall.get hlt hlt').1
    have hmode : fs[n'].head.compress = jobs[n'].enc.mode := (hall.get hlt hlt').2
    have hstart : offsets[n']? = some (archive (fs.take n')).length := by
      rw [hoffsets, starts_get 0 fs n' hlt, Nat.zero_add]
    have hleft : k - (archive (fs.take n')).length = m := by
      have := hcutAt.at_eq
      omega
    refine ⟨_, _, hstart, hj, ?_⟩
    rw [List.drop_eq_getElem_cons hlt, archive_cons,
      List.take_append_of_le_length (Nat.le_of_lt hshort)] at hend
    rw [hleft, ← hmode]
    rcases read_frame_cut tune hcodec hholds (hcut _ hj) hm hshort hend with
      ⟨hs, rec, rp₁, hr, r, hrec, hann, hrest₁⟩ | herr
    · obtain ⟨rp₂, hnone, -⟩ := @read_end cr tune _ _ hrest₁
      exact .inl ⟨hs, rec, rp₁, hr, r, hrec, hann, rp₂, hnone⟩
    · exact .inr herr

/-- What the sample jobs leave: a plain record, and the same compressed. -/
def sampleOut : OutFile :=
  (writeAllRecords sampleCrates (sampleJobs.map fun j => (j.record, j.enc)) OutFile.empty).2

theorem sampleJobs_written :
    writeAllRecords sampleCrates (sampleJobs.map fun j => (j.record, j.enc)) OutFile.empty =
      (.ok [0, 67], sampleOut) := by
  have h : (writeAllRecords sampleCrates (sampleJobs.map fun j => (j.record, j.enc))
      OutFile.empty).1 = .ok [0, 67] := by
    decide +kernel
  rw [sampleOut, ← h]

theorem sampleOut_length : sampleOut.content.length = 140 := by decide +kernel

/-- The sample cut within the compressed record: the plain one is read, and then there is an error. -/
theorem sampleOut_cut :
    ∃ r rp e rp', Reads sampleCrates (Sample.tunables 2 3 (by decide))
        ⟨File.quiet (sampleOut.content.take 130), 0⟩ [(0, r)] rp ∧ r.Holds Sample.contents ∧
      read sampleCrates (Sample.tunables 2 3 (by decide)) rp = (.err e, rp') := by
  have hreadable (j : Job) (hj : j ∈ sampleJobs) :=
    (sampleJobs_valid j hj).readable sampleCrates_headersLawful (Sample.tunables_tempOk (by decide))
  have hwhole : wholeWithin 130 ([0, 67] ++ [sampleOut.content.length]) = 1 := by
    rw [sampleOut_length]
    decide
  obtain ⟨rs, rp, hreads, hheld, -, hcut⟩ := cut_read sampleCrates_codecLawful OutFile.empty_calm rfl
    sampleJobs_written (by rw [sampleOut_length]; decide) hwhole
    (fun j hj => hreadable j (List.mem_of_mem_take hj))
    (fun j hj => ⟨(hreadable j (List.mem_of_getElem? hj)).meta_back,
      (hreadable j (List.mem_of_getElem? hj)).req_back,
      (hreadable j (List.mem_of_getElem? hj)).res_back⟩)
    (File.quiet_own (sampleOut.content.take 130)) (File.quiet_content _)
  obtain ⟨r, rfl⟩ := List.length_eq_one_iff.mp hheld.length_eq
  obtain ⟨o, j, ho, hj, hend⟩ := hcut (by rw [sampleOut_length]; decide)
  cases hj
  obtain ⟨e, rp', herr⟩ := hend.err (fun hs => absurd hs.1 (by decide))
  exact ⟨r, rp, e, rp', hreads, (List.forall₂_cons.mp hheld).1, herr⟩

/-- **A cut can go unnoticed.** Of the plain record one byte of the body is there, and the body with
its CRLF is longer than `max_body_ram`: a record is returned, and then there is no more. Nor is every
whole record returned: the compressed one is longer than a `max_body` of two. -/
theorem cut_unnoticed :
    (read sampleCrates (Sample.tunables 2 3 (by decide))
        ⟨File.quiet (sampleOut.content.take 63), 0⟩).1 =
      .ok (some ⟨.dialog, .empty, .empty, .empty, .ofList [(Sample.name, Sample.value)],
        ⟨.fsReadSlice ⟨File.quiet (sampleOut.content.take 63), 62, 65, 62⟩, 3⟩⟩) ∧
    (read sampleCrates (Sample.tunables 2 3 (by decide))
      (read sampleCrates (Sample.tunables 2 3 (by decide))
        ⟨File.quiet (sampleOut.content.take 63), 0⟩).2).1 = .ok none ∧
    (read sampleCrates (Sample.tunables 2 2 (by decide))
      (read sampleCrates (Sample.tunables 2 2 (by decide))
        ⟨File.quiet sampleOut.content, 0⟩).2).1 = .err (.body (.bodyTooLong 3)) :=
  ⟨by decide +kernel, by decide +kernel, by decide +kernel⟩

end BodyArchive
