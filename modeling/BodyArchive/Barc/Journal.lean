import BodyArchive.Barc.Archive

/-!
# The journal of a writer

The writes that put records at the end of a file, in order: of each record the reserved head, its
payload in some pieces, and its head over the reserved one. What a reader of the same file can
see is the content after some of them, and `exists_seen` says what that can be: the first records,
and then nothing or a reserved head with anything behind it. The number of records seen grows with
the writes that are done.
-/

namespace BodyArchive

/-- A record as it is written: its head, and the pieces of its payload. -/
structure Entry where
  head : RecordHead
  pieces : List Bytes

namespace Entry

/-- The frame that is there in the end. -/
def frame (e : Entry) : Frame := ⟨e.head, e.pieces.flatten⟩

/-- The writes, from the offset `p` on. -/
def ops (p : Nat) (e : Entry) : List FileOp := recordOps p e.pieces e.head

end Entry

/-- The writes of some records, one after the other. -/
def journal : Nat → List Entry → List FileOp
  | _, [] => []
  | p, e :: es => e.ops p ++ journal (p + e.frame.bytes.length) es

theorem journal_append (p : Nat) (es gs : List Entry) :
    journal p (es ++ gs) =
      journal p es ++ journal (p + (archive (es.map Entry.frame)).length) gs := by
  induction es generalizing p with
  | nil => rfl
  | cons e es ih =>
    rw [List.cons_append, journal, ih, journal, List.append_assoc, List.map_cons, archive_cons,
      List.length_append, Nat.add_assoc]

/-- The writes of fewer records come first. -/
theorem journal_take (p : Nat) (es : List Entry) {k i : Nat} (h : k ≤ i) :
    journal p (es.take k) <+: journal p (es.take i) := by
  have hsplit : es.take i = es.take k ++ (es.take i).drop k := by
    conv_lhs => rw [← List.take_append_drop k (es.take i), List.take_take, Nat.min_eq_left h]
  rw [hsplit, journal_append]
  exact List.prefix_append _ _

/-- All the writes of a record append its frame. -/
theorem foldl_ops (c : Bytes) {e : Entry} (hfit : e.head.Fits) :
    (e.ops c.length).foldl FileOp.apply c = c ++ e.frame.bytes := by
  have hreserve := RecordHead.v2Reserve_fits.format_length
  have hlen : c.length + v2HeadSize = (c ++ RecordHead.v2Reserve.format).length := by
    rw [List.length_append, hreserve]
  show (recordOps c.length e.pieces e.head).foldl FileOp.apply c = _
  rw [recordOps, List.cons_append, List.foldl_cons, FileOp.apply_end, List.foldl_append, hlen,
    FileOp.foldl_place]
  show FileOp.apply _ ⟨c.length, e.head.format⟩ = _
  rw [FileOp.apply_over _ _ _ _ (by rw [hfit.format_length, hreserve]), List.append_assoc]
  rfl

/-- Some, but not all, of the writes of a record: none, or the reserved head and some pieces. -/
theorem foldl_some_ops (c : Bytes) {e : Entry} {done : List FileOp} (h : done <+: e.ops c.length)
    (hlt : done.length < (e.ops c.length).length) :
    ∃ tail, done.foldl FileOp.apply c = c ++ tail ∧
      (tail = [] ∨ RecordHead.v2Reserve.format <+: tail) := by
  have hops : e.ops c.length = ⟨c.length, RecordHead.v2Reserve.format⟩ ::
      (FileOp.place (c.length + v2HeadSize) e.pieces ++ [⟨c.length, e.head.format⟩]) := rfl
  rw [hops] at h hlt
  cases done with
  | nil => exact ⟨[], by simp, .inl rfl⟩
  | cons op done =>
    obtain ⟨rfl, h'⟩ := List.cons_prefix_cons.mp h
    -- The head is not among them, so they are writes of pieces.
    have hplace : done <+: FileOp.place (c.length + v2HeadSize) e.pieces := by
      apply List.prefix_of_prefix_length_le h' (List.prefix_append _ _)
      simp only [List.length_cons, List.length_append, List.length_nil] at hlt
      omega
    obtain ⟨q, rfl⟩ : ∃ q, done = FileOp.place (c.length + v2HeadSize) (e.pieces.take q) := by
      refine ⟨done.length, ?_⟩
      rw [← FileOp.take_place]
      exact List.prefix_iff_eq_take.mp hplace
    have hlen : c.length + v2HeadSize = (c ++ RecordHead.v2Reserve.format).length := by
      rw [List.length_append, RecordHead.v2Reserve_fits.format_length]
    refine ⟨RecordHead.v2Reserve.format ++ (e.pieces.take q).flatten, ?_,
      .inr (List.prefix_append _ _)⟩
    rw [List.foldl_cons, FileOp.apply_end, hlen, FileOp.foldl_place, List.append_assoc]

/-! ## What can be seen -/

/-- After the writes `done` there are the first `i` records, and the tail. -/
structure Seen (base : Bytes) (es : List Entry) (done : List FileOp) (i : Nat) (tail : Bytes) :
    Prop where
  le : i ≤ es.length
  content_eq : done.foldl FileOp.apply base = base ++ archive ((es.take i).map Entry.frame) ++ tail
  tail_eq : tail = [] ∨ RecordHead.v2Reserve.format <+: tail
  committed : journal base.length (es.take i) <+: done
  last : ∀ k ≤ es.length, journal base.length (es.take k) <+: done → k ≤ i

/-- **Whatever part of the journal is done**, some of the records are there. -/
theorem exists_seen {es : List Entry} (hfit : ∀ e ∈ es, e.head.Fits) {base : Bytes}
    {done : List FileOp} (h : done <+: journal base.length es) :
    ∃ i tail, Seen base es done i tail := by
  induction es generalizing base done with
  | nil =>
    obtain rfl : done = [] := List.prefix_nil.mp h
    exact ⟨0, [], Nat.le_refl 0, by simp [archive], .inl rfl, List.prefix_rfl, fun k hk _ => hk⟩
  | cons e es ih =>
    have hlen : base.length + e.frame.bytes.length = (base ++ e.frame.bytes).length := by
      rw [List.length_append]
    by_cases hall : (e.ops base.length).length ≤ done.length
    · -- The first record is done.
      obtain ⟨done', rfl⟩ := List.prefix_of_prefix_length_le (List.prefix_append _ _) h hall
      have h' : done' <+: journal (base ++ e.frame.bytes).length es := by
        rw [← hlen]
        exact (List.prefix_append_right_inj _).mp h
      obtain ⟨i, tail, hle, hcontent, htail, hcommitted, hlast⟩ :=
        ih (fun e' he' => hfit e' (by simp [he'])) h'
      refine ⟨i + 1, tail, by simpa using hle, ?_, htail, ?_, fun k hk hdone => ?_⟩
      · rw [List.foldl_append, foldl_ops base (hfit e (by simp)), hcontent]
        simp only [List.take_succ_cons, List.map_cons, archive_cons, List.append_assoc]
      · rw [List.take_succ_cons, journal, hlen]
        exact (List.prefix_append_right_inj _).mpr hcommitted
      · cases k with
        | zero => omega
        | succ k =>
          rw [List.take_succ_cons, journal, hlen] at hdone
          have := hlast k (by simpa using hk) ((List.prefix_append_right_inj _).mp hdone)
          omega
    · have hsome : done <+: e.ops base.length :=
        List.prefix_of_prefix_length_le h (List.prefix_append _ _) (by omega)
      obtain ⟨tail, hcontent, htail⟩ := foldl_some_ops base hsome (by omega)
      refine ⟨0, tail, Nat.zero_le _, by simpa [archive] using hcontent, htail, List.nil_prefix,
        fun k hk hdone => ?_⟩
      cases k with
      | zero => exact Nat.le_refl 0
      | succ k =>
        rw [List.take_succ_cons, journal] at hdone
        have := hdone.length_le
        rw [List.length_append] at this
        omega

/-- More writes, more records. -/
theorem Seen.mono {base : Bytes} {es : List Entry} {done done' : List FileOp} {i i' : Nat}
    {tail tail' : Bytes} (h : Seen base es done i tail) (h' : Seen base es done' i' tail')
    (hle : done <+: done') : i ≤ i' :=
  h'.last i h.le (h.committed.trans hle)

/-! ## Writing -/

/-- **Writing jobs** appends a frame for each, returns where the frames start, and leaves their
journal. -/
theorem writeAllRecords_journal {cr : Crates} (jobs : List Job) {f f' : OutFile} {offsets : List Nat}
    (hf : f.Calm)
    (hw : writeAllRecords cr (jobs.map fun j => (j.record, j.enc)) f = (.ok offsets, f')) :
    ∃ es, f'.Calm ∧ offsets = starts f.content.length (es.map Entry.frame) ∧
      f'.content = f.content ++ archive (es.map Entry.frame) ∧
      f'.log = f.log ++ journal f.content.length es ∧
      List.Forall₂ (fun e (j : Job) => (Entry.frame e).Holds cr j.contents ∧
        e.head.compress = j.enc.mode) es jobs := by
  induction jobs generalizing f offsets with
  | nil =>
    cases hw
    exact ⟨[], hf, rfl, by simp [archive], by simp [journal], .nil⟩
  | cons j jobs ih =>
    obtain ⟨o, f₁, hwrite, hw₁⟩ := Prog.bind_eq_ok hw
    obtain ⟨os, f₂, hrest, hw₂⟩ := Prog.bind_eq_ok hw₁
    cases hw₂
    rcases write_calm cr hf j.holds j.enc with
      ⟨head, payload, f₁', hok, hmode, hl, hcalm, hcontent, pieces, rfl, hlog⟩ | ⟨-, msg, f₁', hpanic⟩
    · rw [hok] at hwrite
      cases hwrite
      obtain ⟨es, hcalm', hoffsets, hcontent', hlog', hall⟩ := ih hcalm hrest
      have hlen : f₁.content.length = f.content.length + (Entry.frame ⟨head, pieces⟩).bytes.length := by
        rw [hcontent, List.length_append]
        rfl
      rw [hlen] at hoffsets hlog'
      refine ⟨⟨head, pieces⟩ :: es, hcalm', ?_, ?_, ?_, .cons ⟨hl, hmode⟩ hall⟩
      · rw [hoffsets]
        rfl
      · rw [hcontent', hcontent, List.map_cons, archive_cons, List.append_assoc]
        rfl
      · rw [hlog', hlog, List.append_assoc]
        rfl
    · rw [hpanic] at hwrite
      cases hwrite

/-- Jobs written to an empty file leave frames with their contents, one after the other. -/
theorem writeAllRecords_frames {cr : Crates} (jobs : List Job) {f f' : OutFile} {offsets : List Nat}
    (hf : f.Calm) (hempty : f.content = [])
    (hw : writeAllRecords cr (jobs.map fun j => (j.record, j.enc)) f = (.ok offsets, f')) :
    ∃ fs, offsets = starts 0 fs ∧ f'.content = archive fs ∧
      List.Forall₂ (fun (fr : Frame) (j : Job) => fr.Holds cr j.contents ∧
        fr.head.compress = j.enc.mode) fs jobs := by
  obtain ⟨es, -, hoffsets, hcontent, -, hes⟩ := writeAllRecords_journal jobs hf hw
  rw [hempty] at hoffsets
  rw [hempty, List.nil_append] at hcontent
  exact ⟨es.map Entry.frame, hoffsets, hcontent, List.forall₂_map_left_iff.mpr hes⟩

end BodyArchive
