import BodyArchive.Barc.Bodies

/-!
# Reading records

`BarcReader::read`. Its state is a position in a file; a record comes back with its bodies as
images. `Readable` is when a record can be read at all: its header blocks parse back, and, if it
is compressed, its decoder is built in and its bodies are within the tunables. `read_laid` reads a
readable record from wherever it lies, whatever follows it.
-/

namespace BodyArchive

variable (cr : Crates) (tune : Tunables)

/-! ## The reader -/

/-- The request body of a compressed record: in RAM up to `max_body_ram`, else in a file. -/
def readReqBody {R : Type} [Read R] (len : Nat) : Prog R BarcError BodyImage :=
  if len ≤ tune.maxBodyRam then readBodyRam false len else readBodyFs tune len

/-- The parts of a compressed record, from its decoder. -/
def readParts (rhead : RecordHead) : Prog Stream BarcError Record := do
  let metaHeaders ← readHeaders cr false rhead.metaH
  let reqHeaders ← readHeaders cr false rhead.reqH
  let reqBody ← readReqBody tune rhead.reqB
  let resHeaders ← readHeaders cr false rhead.resH
  -- The length of the response body is not known when it is compressed.
  let resBody ← Prog.mapErr .body (BodyImage.readFrom tune 4096)
  pure ⟨rhead.recType, metaHeaders, reqHeaders, reqBody, resHeaders, resBody⟩

/-- `read_compressed`. -/
def readCompressed {σ : Type} (rs : ReadSlice) (rhead : RecordHead) : Prog σ BarcError Record := do
  let fin ← Prog.ofRes (.ofExcept (decodeWrapper cr rhead.compress rs tune.bufferSizeRam))
  Prog.onOwn (readParts cr tune rhead) fin

/-- The parts of a plain record that started at `start`. -/
def readPlain (start : Nat) (rhead : RecordHead) : Prog ReadPos BarcError Record := do
  let metaHeaders ← readHeaders cr true rhead.metaH
  let reqHeaders ← readHeaders cr true rhead.reqH
  let reqBody ← readOrSliceBody tune rhead.reqB
  let resHeaders ← readHeaders cr true rhead.resH
  let taken := (← Prog.get).pos - start - v2HeadSize
  Prog.assert (taken ≤ rhead.len) "attempt to subtract with overflow"
  let resBody ← readOrSliceBody tune (rhead.len - taken)
  pure ⟨rhead.recType, metaHeaders, reqHeaders, reqBody, resHeaders, resBody⟩

/-- What `read` does with the head of a record that started at `start`. -/
def readRecord (start : Nat) (rhead : RecordHead) : Prog ReadPos BarcError (Option Record) :=
  -- An incomplete record of a concurrent writer.
  if rhead.recType = .reserved then do
    Prog.mapErr .io (ReadPos.seek (.start start))
    pure none
  else if rhead.compress ≠ .plain then do
    let rp ← Prog.get
    let stop := rp.pos + rhead.len
    let rs := rp.subslice rp.pos stop
    Prog.set { rp with
      file := rp.file.skip (cr.decoderReads rhead.compress tune.bufferSizeRam rs) }
    let rec ← readCompressed cr tune rs rhead
    Prog.mapErr .io (ReadPos.seek (.start stop))
    pure (some rec)
  else do
    let rec ← readPlain cr tune start rhead
    pure (some rec)

/-- `BarcReader::read`. -/
def read : Prog ReadPos BarcError (Option Record) := do
  let start := (← Prog.get).pos
  match ← readRecordHead with
  | none => pure none
  | some rhead => readRecord cr tune start rhead

/-! The three ways `read` goes on after the head. -/

section Head

variable {cr tune}

theorem read_of_head {rp rp₁ : ReadPos} {head : RecordHead}
    (h : readRecordHead rp = (.ok (some head), rp₁)) :
    read cr tune rp = readRecord cr tune rp.pos head rp₁ := by
  rw [read, Prog.get_bind, Prog.bind_of_ok h]

theorem read_of_none {rp rp₁ : ReadPos} (h : readRecordHead rp = (.ok none, rp₁)) :
    read cr tune rp = (.ok none, rp₁) := by
  rw [read, Prog.get_bind, Prog.bind_of_ok h]
  rfl

theorem read_of_err {rp rp₁ : ReadPos} {e : BarcError} (h : readRecordHead rp = (.err e, rp₁)) :
    read cr tune rp = (.err e, rp₁) := by
  rw [read, Prog.get_bind, Prog.bind_of_err h]

end Head

/-- A reserved record is none yet; the reader goes back to its start. -/
theorem readRecord_reserved {start : Nat} {rhead : RecordHead} (h : rhead.recType = .reserved)
    (rp : ReadPos) : readRecord cr tune start rhead rp = (.ok none, { rp with pos := start }) := by
  rw [readRecord, if_pos h]
  rfl

/-- `BarcReader::offset`. -/
def offset (rp : ReadPos) : Nat := rp.pos

/-- `BarcReader::seek`. -/
def seek (n : Nat) : Prog ReadPos BarcError Unit := Prog.mapErr .io (ReadPos.seek (.start n))

/-! ## What reading keeps -/

section Kept

variable {R : Type} [Read R] {I : R → Prop}

theorem KeptByReads.readRecordHead (h : KeptByReads I) :
    Prog.Preserves I (readRecordHead (R := R)) := by
  refine Prog.Preserves.bind (Prog.preserves_loop (fun got => ?_) Read.fuel []) fun buf =>
    Prog.preserves_ofRes _
  refine (h _ _).bind fun x => ?_
  split
  · exact Prog.preserves_pure _
  · split <;> exact Prog.preserves_pure _
  · exact Prog.preserves_pure _
  · exact Prog.preserves_throw _

theorem KeptByReads.readHeaders (h : KeptByReads I) (withCrlf : Bool) (len : Nat) :
    Prog.Preserves I (readHeaders (R := R) cr withCrlf len) := by
  rw [BodyArchive.readHeaders]
  split
  · exact Prog.preserves_pure _
  · exact (Prog.preserves_assert _ _).bind fun _ => ((h.readExact len).mapErr _).bind fun _ =>
      Prog.preserves_ofRes _

theorem KeptByReads.readBodyRam (h : KeptByReads I) (withCrlf : Bool) (len : Nat) :
    Prog.Preserves I (readBodyRam (R := R) withCrlf len) := by
  rw [BodyArchive.readBodyRam]
  split
  · exact Prog.preserves_pure _
  · exact (Prog.preserves_assert _ _).bind fun _ => ((h.readExact len).mapErr _).bind fun _ =>
      Prog.preserves_pure _

end Kept

section File

variable {J : File → Prop} (hJ : File.Stable J)

include hJ

theorem kept_file : KeptByReads fun rp : ReadPos => J rp.file := fun _ n =>
  ReadPos.preserves_tryRead hJ n

theorem preserves_readOrSliceBody (len : Nat) :
    Prog.Preserves (fun rp : ReadPos => J rp.file) (readOrSliceBody tune len) := by
  rw [readOrSliceBody]
  split
  · exact (kept_file hJ).readBodyRam true len
  · exact (Prog.preserves_assert _ _).bind fun _ => Prog.preserves_get.bind fun _ =>
      ((ReadPos.preserves_seek J _).mapErr _).bind fun _ => Prog.preserves_get.bind fun _ =>
      Prog.preserves_pure _

theorem preserves_readRecord (start : Nat) (rhead : RecordHead) :
    Prog.Preserves (fun rp : ReadPos => J rp.file) (readRecord cr tune start rhead) := by
  have hk := kept_file hJ
  rw [readRecord]
  split
  · exact ((ReadPos.preserves_seek J _).mapErr _).bind fun _ => Prog.preserves_pure _
  · split
    · intro rp hrp
      rw [Prog.get_bind, Prog.set_bind]
      refine Prog.Preserves.bind (I := fun rp : ReadPos => J rp.file) ?_ (fun rec => ?_) _ ?_
      · exact Prog.Preserves.bind (Prog.preserves_ofRes _) fun _ => Prog.preserves_onOwn _ _
      · exact ((ReadPos.preserves_seek J _).mapErr _).bind fun _ => Prog.preserves_pure _
      · exact hJ.skip _ hrp
    · refine Prog.Preserves.bind ?_ fun _ => Prog.preserves_pure _
      exact (hk.readHeaders cr true _).bind fun _ => (hk.readHeaders cr true _).bind fun _ =>
        (preserves_readOrSliceBody tune hJ _).bind fun _ => (hk.readHeaders cr true _).bind fun _ =>
        Prog.preserves_get.bind fun _ => (Prog.preserves_assert _ _).bind fun _ =>
        (preserves_readOrSliceBody tune hJ _).bind fun _ => Prog.preserves_pure _

/-- **Reading does nothing to the file** but let time pass, whatever `read` returns. -/
theorem preserves_read : Prog.Preserves (fun rp : ReadPos => J rp.file) (read cr tune) := by
  refine Prog.preserves_get.bind fun rp₀ => (kept_file hJ).readRecordHead.bind fun x => ?_
  split
  · exact Prog.preserves_pure _
  · exact preserves_readRecord cr tune hJ _ _

end File

/-! ## Readable records -/

/-- A record of these contents, in this compression, can be read. -/
structure Readable (mode : Compression) (c : Contents) : Prop where
  meta_back : ParsesBack cr c.metaHeaders
  req_back : ParsesBack cr c.reqHeaders
  res_back : ParsesBack cr c.resHeaders
  built : mode ≠ .plain → cr.built mode = true
  req_temp : mode ≠ .plain → tune.maxBodyRam < c.reqBody.length → tune.TempOk
  res_takes : mode ≠ .plain → tune.Takes 4096 c.resBody.length

variable {cr tune}

/-- The ending `x` is a record of the contents `c`, with `Q`, exactly when `P` holds. -/
structure Recovers {σ : Type} (P : Prop) (c : Contents) (Q : σ → Prop)
    (x : Res BarcError Record × σ) : Prop where
  ok : P → ∃ r s, x = (.ok r, s) ∧ r.Holds c ∧ Q s
  back : ∀ r s, x = (.ok r, s) → r.Holds c → P

/-- The parts of a plain record, from where they lie. -/
theorem readPlain_parts {c : Contents} {head : RecordHead} {payload z : Bytes} {rp : ReadPos}
    {p : Nat} {t : Tail} (hl : Laid cr c head payload) (hmode : head.compress = .plain)
    (h : Rest rp (p + v2HeadSize) (payload ++ z) t) :
    Recovers (Readable cr tune .plain c) c (fun rp' => Rest rp' (p + v2HeadSize + payload.length) z t)
      (readPlain cr tune p head rp) := by
  obtain ⟨htype, hpay, hlen, hmeta, hreq, hreqB, hres, -, -⟩ := hl
  rw [hmode] at hpay hmeta hreq hreqB hres
  have hcrlf : Compression.withCrlf .plain = true := rfl
  rw [hcrlf] at hpay hmeta hreq hreqB hres
  have hpay' : payload = c.parts true := by
    rcases hpay with ⟨-, hp⟩ | ⟨hm, -⟩
    · exact hp
    · exact absurd rfl hm
  have hbytes : payload ++ z = block true c.metaHeaders ++ (block true c.reqHeaders ++
      (pad true c.reqBody ++ (block true c.resHeaders ++ (pad true c.resBody ++ z)))) := by
    rw [hpay', Contents.parts, Contents.fore]
    simp only [List.append_assoc]
  rw [hbytes] at h
  obtain ⟨rp₁, h₁, hrest₁⟩ := readHeaders_block cr h
  obtain ⟨rp₂, h₂, hrest₂⟩ := readHeaders_block cr hrest₁
  obtain ⟨im₃, rp₃, h₃, him₃, hrest₃⟩ := readOrSliceBody_pad tune hrest₂
  obtain ⟨rp₄, h₄, hrest₄⟩ := readHeaders_block cr hrest₃
  obtain ⟨im₅, rp₅, h₅, him₅, hrest₅⟩ := readOrSliceBody_pad tune hrest₄
  have hpos₄ := (ReadPos.rest_iff.mp hrest₄).pos_eq
  have hplen : payload.length = (block true c.metaHeaders).length +
      (block true c.reqHeaders).length + (pad true c.reqBody).length +
      (block true c.resHeaders).length + (pad true c.resBody).length := by
    rw [hpay', Contents.parts, Contents.fore]
    simp only [List.length_append]
  have htaken : rp₄.pos - p - v2HeadSize ≤ head.len := by omega
  have hleft : head.len - (rp₄.pos - p - v2HeadSize) = (pad true c.resBody).length := by omega
  rw [readPlain, hmeta, hreq, hreqB, hres]
  constructor
  · rintro ⟨hm, hq, hs, -, -, -⟩
    rw [hm] at h₁
    rw [hq] at h₂
    rw [hs] at h₄
    rw [Prog.bind_of_ok h₁, Prog.bind_of_ok h₂, Prog.bind_of_ok h₃, Prog.bind_of_ok h₄,
      Prog.get_bind, Prog.bind_of_ok (Prog.assert_true (decide_eq_true htaken) _ _), hleft,
      Prog.bind_of_ok h₅]
    refine ⟨_, rp₅, rfl, ⟨htype, rfl, rfl, him₃, rfl, him₅⟩, ?_⟩
    have hend : p + v2HeadSize + payload.length = p + v2HeadSize +
        (block true c.metaHeaders).length + (block true c.reqHeaders).length +
        (pad true c.reqBody).length + (block true c.resHeaders).length +
        (pad true c.resBody).length := by omega
    rw [hend]
    exact hrest₅
  · intro r rp' hread hr
    obtain ⟨m, s₁, e₁, k₁⟩ := Prog.bind_eq_ok hread
    rw [h₁] at e₁
    obtain ⟨hm, rfl⟩ := Prod.mk.inj e₁
    obtain ⟨q, s₂, e₂, k₂⟩ := Prog.bind_eq_ok k₁
    rw [h₂] at e₂
    obtain ⟨hq, rfl⟩ := Prod.mk.inj e₂
    rw [Prog.bind_of_ok h₃] at k₂
    obtain ⟨s, s₄, e₄, k₄⟩ := Prog.bind_eq_ok k₂
    rw [h₄] at e₄
    obtain ⟨hs, rfl⟩ := Prod.mk.inj e₄
    rw [Prog.get_bind, Prog.bind_of_ok (Prog.assert_true (decide_eq_true htaken) _ _), hleft,
      Prog.bind_of_ok h₅] at k₄
    cases k₄
    have hmeta' : m = c.metaHeaders := hr.meta_eq
    have hreq' : q = c.reqHeaders := hr.req_eq
    have hres' : s = c.resHeaders := hr.res_eq
    subst hmeta' hreq' hres'
    exact ⟨hm, hq, hs, fun h => absurd rfl h, fun h => absurd rfl h, fun h => absurd rfl h⟩

/-- The request body of a compressed record. -/
theorem readReqBody_rest {R : Type} [Source R] {r : R} {p : Nat} {bs z : Bytes} {t : Tail}
    (h : Rest r p (bs ++ z) t) :
    Prog.OkIff (tune.maxBodyRam < bs.length → tune.TempOk)
      (fun im r' => im.Backs bs ∧ Rest r' (p + bs.length) z t)
      (readReqBody tune bs.length r) := by
  rw [readReqBody]
  by_cases hram : bs.length ≤ tune.maxBodyRam
  · rw [if_pos hram]
    obtain ⟨im, r', hr, him, hrest⟩ := readBodyRam_pad (show Rest r p (pad false bs ++ z) t from h)
    exact .inl ⟨fun hlt => by omega, im, r', hr, him, hrest⟩
  · rw [if_neg hram]
    have hlong : tune.maxBodyRam < bs.length := by omega
    have hne : bs ≠ [] := List.ne_nil_of_length_pos (by omega)
    rcases readBodyFs_rest tune h hne with ⟨htemp, hok⟩ | ⟨htemp, herr⟩
    · exact .inl ⟨fun _ => htemp, hok⟩
    · exact .inr ⟨fun h' => htemp (h' hlong), herr⟩

/-- The parts of a compressed record, from its decoder. -/
theorem readParts_rest {c : Contents} {head : RecordHead} {payload : Bytes} {st : Stream}
    (hl : Laid cr c head payload) (hmode : head.compress ≠ .plain)
    (h : st.AtRest (c.parts false) .eof) :
    Recovers (ParsesBack cr c.metaHeaders ∧ ParsesBack cr c.reqHeaders ∧
        (tune.maxBodyRam < c.reqBody.length → tune.TempOk) ∧ ParsesBack cr c.resHeaders ∧
        tune.Takes 4096 c.resBody.length) c (fun _ => True)
      (readParts cr tune head st) := by
  obtain ⟨htype, -, -, hmeta, hreq, hreqB, hres, hwithin, -⟩ := hl
  have hcrlf : head.compress.withCrlf = false := by simp [Compression.withCrlf, hmode]
  rw [hcrlf] at hmeta hreq hreqB hres hwithin
  have hroom : c.resBody.length + 1024 ≤ usizeMax := by
    have := hwithin.len_le
    simp only [v2MaxRecord, usizeMax] at this ⊢
    omega
  have hrest : Rest st 0 (block false c.metaHeaders ++ (block false c.reqHeaders ++
      (c.reqBody ++ (block false c.resHeaders ++ c.resBody)))) .eof := by
    have hbytes : c.parts false = block false c.metaHeaders ++ (block false c.reqHeaders ++
        (c.reqBody ++ (block false c.resHeaders ++ c.resBody))) := by
      simp only [Contents.parts, Contents.fore, pad_false, List.append_assoc]
    rw [← hbytes]
    exact h
  obtain ⟨s₁, h₁, hrest₁⟩ := readHeaders_block cr hrest
  obtain ⟨s₂, h₂, hrest₂⟩ := readHeaders_block cr hrest₁
  rw [readParts, hmeta, hreq, hreqB, pad_false, hres]
  constructor
  · rintro ⟨hm, hq, htemp, hs, htakes⟩
    rw [hm] at h₁
    rw [hq] at h₂
    obtain ⟨im₃, s₃, h₃, him₃, hrest₃⟩ := (readReqBody_rest hrest₂).ok htemp
    obtain ⟨s₄, h₄, hrest₄⟩ := readHeaders_block cr hrest₃
    rw [hs] at h₄
    obtain ⟨im₅, s₅, h₅, him₅, -⟩ :=
      (BodyImage.readFrom_rest tune hrest₄ (by simp) 4096 fun _ => hroom).ok ⟨rfl, htakes⟩
    refine ⟨⟨head.recType, c.metaHeaders, c.reqHeaders, im₃, c.resHeaders, im₅⟩, s₅, ?_,
      ⟨htype, rfl, rfl, him₃, rfl, him₅⟩, trivial⟩
    rw [Prog.bind_of_ok h₁, Prog.bind_of_ok h₂, Prog.bind_of_ok h₃, Prog.bind_of_ok h₄,
      Prog.bind_of_ok (Prog.mapErr_of_ok h₅)]
    rfl
  · intro r st' hread hr
    obtain ⟨m, t₁, e₁, k₁⟩ := Prog.bind_eq_ok hread
    rw [h₁] at e₁
    obtain ⟨hm, rfl⟩ := Prod.mk.inj e₁
    obtain ⟨q, t₂, e₂, k₂⟩ := Prog.bind_eq_ok k₁
    rw [h₂] at e₂
    obtain ⟨hq, rfl⟩ := Prod.mk.inj e₂
    obtain ⟨im₃, t₃, e₃, k₃⟩ := Prog.bind_eq_ok k₂
    obtain ⟨htemp, him₃, hrest₃⟩ := (readReqBody_rest hrest₂).of_ok e₃
    obtain ⟨s₄, h₄, hrest₄⟩ := readHeaders_block cr hrest₃
    obtain ⟨s, t₄, e₄, k₄⟩ := Prog.bind_eq_ok k₃
    rw [h₄] at e₄
    obtain ⟨hs, rfl⟩ := Prod.mk.inj e₄
    obtain ⟨im₅, t₅, e₅, k₅⟩ := Prog.bind_eq_ok k₄
    obtain ⟨⟨-, htakes⟩, -⟩ :=
      (BodyImage.readFrom_rest tune hrest₄ (by simp) 4096 fun _ => hroom).of_ok (Prog.mapErr_eq_ok e₅)
    cases k₅
    have hmeta' : m = c.metaHeaders := hr.meta_eq
    have hreq' : q = c.reqHeaders := hr.req_eq
    have hres' : s = c.resHeaders := hr.res_eq
    subst hmeta' hreq' hres'
    exact ⟨hm, hq, htemp, hs, htakes⟩

/-- The whole record after its head, from where it lies. -/
theorem readRecord_laid (hcodec : cr.CodecLawful) {c : Contents} {head : RecordHead}
    {payload z : Bytes} {rp : ReadPos} {p : Nat} {t : Tail} (hl : Laid cr c head payload)
    (h : Rest rp (p + v2HeadSize) (payload ++ z) t) :
    (Readable cr tune head.compress c → ∃ r rp', readRecord cr tune p head rp = (.ok (some r), rp') ∧
      r.Holds c ∧ Rest rp' (p + v2HeadSize + payload.length) z t) ∧
    (∀ r rp', readRecord cr tune p head rp = (.ok (some r), rp') → r.Holds c →
      Readable cr tune head.compress c) := by
  have hrt := hl.rec_type
  have hnot : head.recType ≠ .reserved := by rw [hrt]; simp
  by_cases hmode : head.compress = .plain
  · rw [readRecord, if_neg hnot, if_neg (by simpa using hmode), hmode]
    obtain ⟨hok, hback⟩ := @readPlain_parts cr tune _ _ _ _ _ _ _ hl hmode h
    constructor
    · intro hr
      obtain ⟨r, rp', hread, hholds, hrest⟩ := hok hr
      exact ⟨r, rp', by rw [Prog.bind_of_ok hread]; rfl, hholds, hrest⟩
    · intro r rp' hread hholds
      obtain ⟨r₁, rp₁, e₁, k₁⟩ := Prog.bind_eq_ok hread
      cases k₁
      exact hback r rp' e₁ hholds
  · rw [readRecord, if_neg hnot, if_pos hmode, Prog.get_bind]
    have hat := ReadPos.rest_iff.mp h
    have hpos := hat.pos_eq
    -- The slice has exactly the payload, so the decoder gives back the parts.
    have hslice : Rest (rp.subslice rp.pos (rp.pos + head.len)) (p + v2HeadSize) payload .eof := by
      rw [hl.len_eq, hpos]
      have hs := hat.slice (k := payload.length) (by simp)
      rwa [List.take_left] at hs
    generalize rp.subslice rp.pos (rp.pos + head.len) = rs at hslice
    have hstop : rp.pos + head.len = p + v2HeadSize + payload.length := by rw [hpos, hl.len_eq]
    rw [hstop]
    simp only [Prog.set_bind]
    have hend : ∀ rp₂ : ReadPos,
        rp₂.file = rp.file.skip (cr.decoderReads head.compress tune.bufferSizeRam rs) →
        rp₂.pos = p + v2HeadSize + payload.length →
        Rest rp₂ (p + v2HeadSize + payload.length) z t := by
      rintro ⟨f₂, pos₂⟩ rfl rfl
      have hmoved := hat.move (k := payload.length) (by simp) (File.skip_fair _ hat.fair)
        fun c' hc' => File.future_of_skip
          (cr.decoderReads head.compress tune.bufferSizeRam rs) hc'
      rw [List.drop_left, hpos] at hmoved
      exact hmoved
    by_cases hbuilt : cr.built head.compress = true
    · have hdec := decodeWrapper_built hmode hbuilt rs tune.bufferSizeRam
      have hst : (cr.decoder head.compress tune.bufferSizeRam rs).AtRest (c.parts false) .eof := by
        have hcrlf : head.compress.withCrlf = false := by simp [Compression.withCrlf, hmode]
        rcases hl.payload_eq with ⟨hm, -⟩ | ⟨-, level, chunks, hchunks, hpay⟩
        · exact absurd hm hmode
        · rw [hcrlf] at hchunks
          rw [← hchunks]
          rw [hpay] at hslice
          exact hcodec.decode hmode hbuilt hslice
      obtain ⟨hok, hback⟩ := @readParts_rest cr tune _ _ _ _ hl hmode hst
      constructor
      · rintro ⟨hm, hq, hs, -, htemp, htakes⟩
        obtain ⟨r, st, hread, hholds, -⟩ := hok ⟨hm, hq, htemp hmode, hs, htakes hmode⟩
        refine ⟨r, ⟨rp.file.skip (cr.decoderReads head.compress tune.bufferSizeRam rs),
          p + v2HeadSize + payload.length⟩, ?_, hholds, hend _ rfl rfl⟩
        have hcomp : ∀ s : ReadPos, readCompressed cr tune rs head s = (.ok r, s) := fun s => by
          rw [readCompressed, hdec]
          simp only [Res.ofExcept]
          rw [Prog.bind_of_ok (Prog.ofRes_run _ s), Prog.onOwn_run, hread]
        rw [Prog.bind_of_ok (hcomp _), Prog.bind_of_ok (Prog.mapErr_of_ok (ReadPos.seek_start _ _))]
        rfl
      · intro r rp' hread hholds
        obtain ⟨r₁, rp₁, e₁, k₁⟩ := Prog.bind_eq_ok hread
        obtain ⟨_, rp₂, -, k₂⟩ := Prog.bind_eq_ok k₁
        cases k₂
        rw [readCompressed, hdec] at e₁
        obtain ⟨st, rp₃, e₃, k₃⟩ := Prog.bind_eq_ok e₁
        cases e₃
        rw [Prog.onOwn_run, Prod.mk.injEq] at k₃
        obtain ⟨hm, hq, htemp, hs, htakes⟩ := hback r _ (Prod.ext k₃.1 rfl) hholds
        exact ⟨hm, hq, hs, fun _ => hbuilt, fun _ => htemp, fun _ => htakes⟩
    · have hdec := decodeWrapper_not_built hbuilt rs tune.bufferSizeRam
      constructor
      · intro hr
        exact absurd (hr.built hmode) hbuilt
      · intro r rp' hread hholds
        obtain ⟨r₁, rp₁, e₁, -⟩ := Prog.bind_eq_ok hread
        rw [readCompressed, hdec] at e₁
        obtain ⟨st, rp₃, e₃, -⟩ := Prog.bind_eq_ok e₁
        cases e₃

end BodyArchive
