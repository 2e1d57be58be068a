import BodyArchive.Cli.Select

/-!
# Copying

`barc cp` appends the records of its input files to its output file, in a compression of its own. What
it keeps is their contents: the output is an archive again, in which the contents of the inputs follow
what was there (`cp_merges`).

A plain record has only one frame, so plain archives are a normal form: whatever an archive has been
recompressed with, copying it back plain gives the same bytes (`cp_back`).
-/

namespace BodyArchive.Cli

/-! ## Archives in files -/

/-- A file of records that can be read with some tunables. -/
structure ArchiveFile (cr : Crates) (tune : Tunables) where
  file : File
  frames : List Frame
  contents : List Contents
  own : file.Own
  content_eq : file.content = archive frames
  reads : List.Forall₂ (Frame.Reads cr tune) frames contents

section Files

variable {cr : Crates} {tune : Tunables}

/-- All of its records are read, one after the other. -/
theorem ArchiveFile.read_all (hcodec : cr.CodecLawful) (a : ArchiveFile cr tune) :
    ∃ rs rp rp', BodyArchive.Reads cr tune ⟨a.file, 0⟩ rs rp ∧
      List.Forall₂ Record.Holds (rs.map Prod.snd) a.contents ∧
      read cr tune rp = (.ok none, rp') := by
  have hrest : Rest (⟨a.file, 0⟩ : ReadPos) 0 (archive a.frames ++ []) .eof := by
    have hr := ReadPos.rest_own a.own 0
    rwa [a.content_eq, List.drop_zero, ← List.append_nil (archive a.frames)] at hr
  obtain ⟨rs, rp, hreads, hall, hend⟩ := reads_archive hcodec a.reads hrest
  obtain ⟨rp', hnone, -⟩ := read_end hend
  refine ⟨_, rp, rp', hreads, ?_, hnone⟩
  have hlen : rs.length ≤ (starts 0 a.frames).length := by
    rw [starts_length, hall.length_eq, a.reads.length_eq]
  rwa [List.map_snd_zip hlen]

/-- There are no more records than bytes. -/
theorem length_le_archive {fs : List Frame} {cs : List Contents}
    (h : List.Forall₂ (Frame.Holds cr) fs cs) : cs.length ≤ (archive fs).length := by
  induction h with
  | nil => exact Nat.le_refl _
  | @cons f c fs cs hf _ ih =>
    have hlen := hf.bytes_length
    rw [archive_cons, List.length_append, List.length_cons, hlen]
    have h54 : v2HeadSize = 54 := rfl
    omega

/-- Two archives, one behind the other. -/
theorem archive_file_append {fs fs' : List Frame} {cs cs' : List Contents}
    (h : List.Forall₂ (Frame.Reads cr tune) fs cs) (h' : List.Forall₂ (Frame.Reads cr tune) fs' cs')
    {file : File} (hown : file.Own) (hcontent : file.content = archive fs ++ archive fs') :
    ∃ a : ArchiveFile cr tune, a.file = file ∧ a.frames = fs ++ fs' ∧ a.contents = cs ++ cs' :=
  ⟨⟨file, fs ++ fs', cs ++ cs', hown, by rw [hcontent, archive_append], List.rel_append h h'⟩, rfl, rfl, rfl⟩

end Files

/-! ## What is copied -/

/-- What is selected of some contents, the start being at `k`. -/
def selected (start : StartPos) (count k : Nat) (cs : List Contents) : List Contents :=
  (cs.drop k).take (count - start.toSkip)

/-- A frame that a record with these contents was copied to. -/
def Copied (cr : Crates) (strategy : Record → Encoder) (f : Frame) (c : Contents) : Prop :=
  f.Holds cr c ∧ ∃ rec : Record, rec.Holds c ∧ f.head.compress = (strategy rec).mode

/-- Copies in the compressions of a strategy can be read: those that are not plain need temporary
files, and response bodies within the limit. -/
def Affords (strategy : Record → Encoder) (tune : Tunables) (cs : List Contents) : Prop :=
  (∀ rec, (strategy rec).mode = .plain) ∨
    tune.TempOk ∧ ∀ c ∈ cs, c.resBody.length ≤ tune.maxBody

section Copies

variable {cr : Crates} {strategy : Record → Encoder}

/-- A copy of what has been read can be read. -/
theorem Copied.reads {tune tune' : Tunables} {f f' : Frame} {c : Contents}
    (h : Copied cr strategy f' c) (hf : f.Reads cr tune c)
    (hbuilt : ∀ rec, cr.built (strategy rec).mode = true)
    (hlimits : Affords strategy tune' [c]) : f'.Reads cr tune' c := by
  obtain ⟨hholds, rec, -, hmode⟩ := h
  refine ⟨hholds, hf.2.meta_back, hf.2.req_back, hf.2.res_back, fun _ => ?_, fun hne _ => ?_, ?_⟩
  · rw [hmode]
    exact hbuilt rec
  · rcases hlimits with hplain | ⟨htemp, -⟩
    · exact absurd (hmode.trans (hplain rec)) hne
    · exact htemp
  · intro hne
    rcases hlimits with hplain | ⟨htemp, hlong⟩
    · exact absurd (hmode.trans (hplain rec)) hne
    · exact Tunables.takes_of_tempOk htemp (hlong c List.mem_cons_self)

theorem copied_reads {tune tune' : Tunables} {fs fs' : List Frame} {cs : List Contents}
    (h : List.Forall₂ (Copied cr strategy) fs' cs) (hfs : List.Forall₂ (Frame.Reads cr tune) fs cs)
    (hbuilt : ∀ rec, cr.built (strategy rec).mode = true) (hlimits : Affords strategy tune' cs) :
    List.Forall₂ (Frame.Reads cr tune') fs' cs := by
  induction h generalizing fs with
  | nil => exact .nil
  | @cons f' c fs' cs hcopied _ ih =>
    cases hfs with
    | cons hf hfs =>
      refine .cons (hcopied.reads hf hbuilt ?_) (ih hfs ?_)
      · exact hlimits.imp_right fun ⟨htemp, hlong⟩ =>
          ⟨htemp, fun c' hc' => hlong c' (List.mem_singleton.mp hc' ▸ List.mem_cons_self)⟩
      · exact hlimits.imp_right fun ⟨htemp, hlong⟩ =>
          ⟨htemp, fun c' hc' => hlong c' (List.mem_cons_of_mem _ hc')⟩

/-- Copying a record that is within the limits. -/
theorem copyRecord_fits {rec : Record} {c : Contents} (hholds : rec.Holds c)
    (hfits : c.Fits cr (strategy rec).mode) (off : Nat) {out : OutFile} (hout : out.Calm) :
    ∃ out', copyRecord cr strategy off rec out = (.ok (), out') := by
  rcases write_calm cr hout hholds (strategy rec) with ⟨_, _, out', hw, -⟩ | ⟨hover, -⟩
  · refine ⟨out', ?_⟩
    rw [copyRecord, Prog.bind_of_ok (Prog.mapErr_of_ok hw)]
    rfl
  · exact absurd hfits hover

/-- A record that was copied is a frame more. -/
theorem copyRecord_copied {rec : Record} {c : Contents} (hholds : rec.Holds c) {off : Nat}
    {out out' : OutFile} (hout : out.Calm) (h : copyRecord cr strategy off rec out = (.ok (), out')) :
    ∃ f, out'.Calm ∧ out'.content = out.content ++ f.bytes ∧ Copied cr strategy f c := by
  obtain ⟨o, out₁, hw, h₁⟩ := Prog.bind_eq_ok h
  cases h₁
  have hwrite := Prog.mapErr_eq_ok hw
  rcases write_calm cr hout hholds (strategy rec) with
    ⟨head, payload, out₂, hok, hmode, hlaid, hwritten⟩ | ⟨-, msg, out₂, hpanic⟩
  · rw [hok] at hwrite
    cases hwrite
    exact ⟨⟨head, payload⟩, hwritten.calm, hwritten.content_eq, hlaid, rec, hholds, hmode⟩
  · rw [hpanic] at hwrite
    cases hwrite

/-- Records that were copied to a file are added to it, each in the compression of the strategy. -/
theorem emitAll_copied {recs : List (Nat × Record)} {cs : List Contents}
    (hrecs : List.Forall₂ Record.Holds (recs.map Prod.snd) cs) {out out' : OutFile}
    (hout : out.Calm) (h : emitAll (copyRecord cr strategy) recs out = (.ok (), out')) :
    ∃ fs, out'.Calm ∧ out'.content = out.content ++ archive fs ∧
      List.Forall₂ (Copied cr strategy) fs cs := by
  induction recs generalizing cs out with
  | nil =>
    cases hrecs
    cases h
    exact ⟨[], hout, (List.append_nil _).symm, .nil⟩
  | cons r recs ih =>
    obtain ⟨u, out₁, hcopy, hrest⟩ := Prog.bind_eq_ok h
    cases hrecs with
    | cons hholds hall =>
      obtain ⟨f, hcalm, hcontent, hf⟩ := copyRecord_copied hholds hout hcopy
      obtain ⟨fs, hcalm', hcontent', hfs⟩ := ih hall hcalm hrest
      refine ⟨f :: fs, hcalm', ?_, .cons hf hfs⟩
      rw [hcontent', hcontent, archive_cons, List.append_assoc]

/-- Records within the limits are all copied. -/
theorem emitAll_fits {recs : List (Nat × Record)} {cs : List Contents}
    (hrecs : List.Forall₂ Record.Holds (recs.map Prod.snd) cs)
    (hfits : ∀ rec c, c ∈ cs → rec.Holds c → c.Fits cr (strategy rec).mode) {out : OutFile}
    (hout : out.Calm) : ∃ out', emitAll (copyRecord cr strategy) recs out = (.ok (), out') := by
  induction recs generalizing cs out with
  | nil => exact ⟨out, rfl⟩
  | cons r recs ih =>
    cases hrecs with
    | @cons _ c _ cs hholds hall =>
      obtain ⟨out₁, hcopy⟩ :=
        copyRecord_fits hholds (hfits _ c List.mem_cons_self hholds) r.1 hout
      obtain ⟨-, hcalm, -⟩ := copyRecord_copied hholds hout hcopy
      obtain ⟨out', hrest⟩ := ih hall (fun rec c hc => hfits rec c (List.mem_cons_of_mem _ hc)) hcalm
      exact ⟨out', (Prog.bind_of_ok hcopy).trans hrest⟩

end Copies

/-! ## Several inputs -/

/-- How `cp` ends when it has come to these paths: there are none, or the first is, as a string, that of
the output file, or it cannot be opened. -/
inductive CopyEnds (disk : Disk) (outFile : Bytes) : List Bytes → Res Flaw Unit → Prop
  | done : CopyEnds disk outFile [] (.ok ())
  | same (rest : List Bytes) : CopyEnds disk outFile (outFile :: rest)
      (.err (.clError (ascii "BARC input and output file are the same: " ++ outFile)))
  | missing {path : Bytes} {e : IoError} (rest : List Bytes) (hne : path ≠ outFile)
      (h : disk path = .error e) : CopyEnds disk outFile (path :: rest) (.err (.barc (.io e)))

section Merge

variable {cr : Crates} {tempDir : TempDir} {disk : Disk} {outFile : Bytes}
  {strategy : Record → Encoder} {start : StartPos} {count k : Nat}

theorem CopyEnds.run {rest : List Bytes} {x : Res Flaw Unit} (h : CopyEnds disk outFile rest x)
    (out : OutFile) :
    (rest.forM fun fin => cp cr tempDir disk fin outFile start count strategy) out = (x, out) := by
  cases h with
  | done => rfl
  | same rest =>
    have hcp : cp cr tempDir disk outFile outFile start count strategy out =
        (.err (.clError (ascii "BARC input and output file are the same: " ++ outFile)), out) := by
      rw [cp, if_pos rfl]
      rfl
    exact Prog.bind_of_err hcp
  | @missing path e rest hne h =>
    have hcp : cp cr tempDir disk path outFile start count strategy out =
        (.err (.barc (.io e)), out) := by
      rw [cp, if_neg hne, openReader, h]
      rfl
    exact Prog.bind_of_err hcp

/-- An input that `cp` can read, by its path. The disk gives its content for the whole run: it is not the
output file under another path, which would be read while it grows. -/
structure IsInput (cr : Crates) (tempDir : TempDir) (disk : Disk) (outFile : Bytes)
    (start : StartPos) (k : Nat) (input : Bytes × ArchiveFile cr (Tunables.new tempDir)) : Prop where
  ne_out : input.1 ≠ outFile
  disk_eq : disk input.1 = .ok input.2.file
  names : start.Names input.2.frames k

/-- **One input** is copied behind what is there. -/
theorem cp_archive (hcodec : cr.CodecLawful)
    {input : Bytes × ArchiveFile cr (Tunables.new tempDir)}
    (hinput : IsInput cr tempDir disk outFile start k input)
    (hfits : ∀ rec c, c ∈ selected start count k input.2.contents → rec.Holds c →
      c.Fits cr (strategy rec).mode) {out : OutFile} (hout : out.Calm) :
    ∃ fs out', cp cr tempDir disk input.1 outFile start count strategy out = (.ok (), out') ∧
      out'.Calm ∧ out'.content = out.content ++ archive fs ∧
      List.Forall₂ (Copied cr strategy) fs (selected start count k input.2.contents) := by
  obtain ⟨recs, hall, -, hcp⟩ := commands_run hcodec input.2.reads input.2.own input.2.content_eq
    hinput.disk_eq hinput.names count
  obtain ⟨out', hrun⟩ := emitAll_fits hall hfits hout
  obtain ⟨fs, hcopied⟩ := emitAll_copied hall hout hrun
  exact ⟨fs, out', (hcp outFile strategy out hinput.ne_out).trans hrun, hcopied⟩

/-- **All inputs** are copied, one behind the other, up to one that `cp` ends at. -/
theorem forM_cp (hcodec : cr.CodecLawful)
    {inputs : List (Bytes × ArchiveFile cr (Tunables.new tempDir))}
    (hinputs : ∀ i ∈ inputs, IsInput cr tempDir disk outFile start k i)
    (hfits : ∀ rec c, c ∈ inputs.flatMap (fun i => selected start count k i.2.contents) →
      rec.Holds c → c.Fits cr (strategy rec).mode) {rest : List Bytes} {x : Res Flaw Unit}
    (hrest : CopyEnds disk outFile rest x) {out : OutFile} (hout : out.Calm) :
    ∃ fs out', ((inputs.map Prod.fst ++ rest).forM fun fin =>
        cp cr tempDir disk fin outFile start count strategy) out = (x, out') ∧
      out'.Calm ∧ out'.content = out.content ++ archive fs ∧
      List.Forall₂ (Copied cr strategy) fs
        (inputs.flatMap fun i => selected start count k i.2.contents) := by
  induction inputs generalizing out with
  | nil => exact ⟨[], out, hrest.run out, hout, (List.append_nil _).symm, .nil⟩
  | cons i inputs ih =>
    obtain ⟨fs, out₁, hcp, hcalm, hcontent, hcopied⟩ := @cp_archive cr tempDir disk outFile strategy
      start count k hcodec i (hinputs i List.mem_cons_self)
      (fun rec c hc => hfits rec c (List.mem_append_left _ hc)) out hout
    obtain ⟨fs', out', hrun, hcalm', hcontent', hcopied'⟩ :=
      ih (fun j hj => hinputs j (List.mem_cons_of_mem _ hj))
        (fun rec c hc => hfits rec c (List.mem_append_right _ hc)) hcalm
    refine ⟨fs ++ fs', out', ?_, hcalm', ?_, List.rel_append hcopied hcopied'⟩
    · exact (Prog.bind_of_ok hcp).trans hrun
    · rw [hcontent', hcontent, archive_append, List.append_assoc]

/-- What is selected of the inputs has been read from frames. -/
theorem inputs_reads {tune : Tunables} (inputs : List (Bytes × ArchiveFile cr tune))
    (start : StartPos) (count k : Nat) :
    List.Forall₂ (Frame.Reads cr tune)
      (inputs.flatMap fun i => (i.2.frames.drop k).take (count - start.toSkip))
      (inputs.flatMap fun i => selected start count k i.2.contents) := by
  induction inputs with
  | nil => exact .nil
  | cons i inputs ih =>
    exact List.rel_append (List.forall₂_take _ (List.forall₂_drop _ i.2.reads)) ih

/-- What has been copied to an archive is read behind what was there. -/
theorem merged_read (hcodec : cr.CodecLawful) (hbuilt : ∀ rec, cr.built (strategy rec).mode = true)
    {inputs : List (Bytes × ArchiveFile cr (Tunables.new tempDir))} {fs : List Frame}
    (hcopied : List.Forall₂ (Copied cr strategy) fs
      (inputs.flatMap fun i => selected start count k i.2.contents)) {tune : Tunables}
    (old : ArchiveFile cr tune)
    (hlimits : Affords strategy tune (inputs.flatMap fun i => selected start count k i.2.contents))
    {file : File} (hown : file.Own) (hfile : file.content = old.file.content ++ archive fs) :
    ∃ rs rp rp', BodyArchive.Reads cr tune ⟨file, 0⟩ rs rp ∧
      List.Forall₂ Record.Holds (rs.map Prod.snd)
        (old.contents ++ inputs.flatMap fun i => selected start count k i.2.contents) ∧
      read cr tune rp = (.ok none, rp') := by
  have hall : file.content = archive old.frames ++ archive fs := by
    rw [hfile, old.content_eq]
  obtain ⟨new, rfl, -, hnew⟩ := archive_file_append old.reads
    (copied_reads hcopied (inputs_reads inputs start count k) hbuilt hlimits) hown hall
  rw [← hnew]
  exact new.read_all hcodec

/-- **Copying merges archives.** `cp` adds to its output file the selected contents of its inputs, one
input behind the other, up to one that is missing or that has the path of the output file. If the output
file was an archive before, a reader finds in it what was there, and then these contents. -/
theorem cp_merges (hcodec : cr.CodecLawful) (hbuilt : ∀ rec, cr.built (strategy rec).mode = true)
    {inputs : List (Bytes × ArchiveFile cr (Tunables.new tempDir))} {rest : List Bytes}
    {m : FilterArgs} (hfiles : m.files = inputs.map Prod.fst ++ rest)
    (hflags : filterFlags m = .ok (start, count))
    (hinputs : ∀ i ∈ inputs, IsInput cr tempDir disk outFile start k i)
    (hfits : ∀ rec c, c ∈ inputs.flatMap (fun i => selected start count k i.2.contents) →
      rec.Holds c → c.Fits cr (strategy rec).mode) {x : Res Flaw Unit}
    (hrest : CopyEnds disk outFile rest x) {out : OutFile} (hout : out.Calm) :
    ∃ fs out', runCp cr tempDir disk m outFile strategy out = (x, out') ∧
      out'.content = out.content ++ archive fs ∧
      List.Forall₂ (Copied cr strategy) fs
        (inputs.flatMap fun i => selected start count k i.2.contents) ∧
      ∀ (tune : Tunables) (old : ArchiveFile cr tune) (file : File), old.file.content = out.content →
        Affords strategy tune (inputs.flatMap fun i => selected start count k i.2.contents) →
        file.Own → file.content = out'.content →
        ∃ rs rp rp', BodyArchive.Reads cr tune ⟨file, 0⟩ rs rp ∧
          List.Forall₂ Record.Holds (rs.map Prod.snd)
            (old.contents ++ inputs.flatMap fun i => selected start count k i.2.contents) ∧
          read cr tune rp = (.ok none, rp') := by
  obtain ⟨fs, out', hrun, -, hcontent, hcopied⟩ := forM_cp hcodec hinputs hfits hrest hout
  have hcp : runCp cr tempDir disk m outFile strategy out = (x, out') := by
    rw [runCp, hflags, hfiles]
    exact hrun
  refine ⟨fs, out', hcp, hcontent, hcopied, ?_⟩
  intro tune old file hold hlimits hown hfile
  exact merged_read hcodec hbuilt hcopied old hlimits hown (by rw [hfile, hcontent, hold])

end Merge

/-! ## Plain archives -/

/-- The arguments that select all of a file. -/
def allOf (path : Bytes) : FilterArgs := ⟨[path], none, none, none⟩

/-- What files come of a file when it is copied to an empty one, and that again, any number of times
and whatever the strategies. -/
inductive Recopied (cr : Crates) (tempDir : TempDir) (file : File) : File → Prop
  | refl : Recopied cr tempDir file file
  | copy {file₁ file₂ : File} {disk : Disk} {path outFile : Bytes} {strategy : Record → Encoder}
      {out out' : OutFile} (h : Recopied cr tempDir file file₁) (hdisk : disk path = .ok file₁)
      (hbuilt : ∀ rec, cr.built (strategy rec).mode = true) (hout : out.Calm)
      (hempty : out.content = [])
      (hcp : runCp cr tempDir disk (allOf path) outFile strategy out = (.ok (), out'))
      (hown : file₂.Own) (hcontent : file₂.content = out'.content) :
      Recopied cr tempDir file file₂

section Plain

variable {cr : Crates} {tempDir : TempDir}

/-- What has been in a plain record fits in one. -/
theorem fits_plain {f : Frame} {c : Contents} (h : f.Holds cr c)
    (hplain : f.head.compress = .plain) : c.Fits cr .plain := by
  have hwithin := h.within
  have hbody := h.req_body
  have hpayload := h.payload_eq
  rw [hplain] at hwithin hbody hpayload
  refine ⟨hwithin, hbody ▸ h.fits.body_le, ?_⟩
  intro payload henc
  have hsame : payload = f.payload := by
    rcases henc with ⟨-, hp⟩ | ⟨hne, -⟩
    · rcases hpayload with ⟨-, hp'⟩ | ⟨hne', -⟩
      · rw [hp, hp']
      · exact absurd rfl hne'
    · exact absurd rfl hne
  rw [hsame, ← h.len_eq]
  exact h.fits.len_le

/-- Contents that fit in a plain record have this frame. -/
theorem plainFrame_holds {c : Contents} (h : c.Fits cr .plain) : (plainFrame c).Holds cr c where
  rec_type := rfl
  payload_eq := .inl ⟨rfl, rfl⟩
  len_eq := rfl
  meta_eq := rfl
  req_eq := rfl
  req_body := rfl
  res_eq := rfl
  within := h.within
  fits := ⟨h.payload_le _ (.inl ⟨rfl, rfl⟩), h.within.meta_le, h.within.req_le, h.req_body_le,
    h.within.res_le⟩

theorem all_fits_plain {fs : List Frame} {cs : List Contents}
    (h : List.Forall₂ (fun f c => f.head.compress = .plain ∧ f.Holds cr c) fs cs) :
    ∀ c ∈ cs, c.Fits cr .plain := by
  induction h with
  | nil => exact fun c hc => absurd hc List.not_mem_nil
  | cons hf _ ih =>
    intro c hc
    rcases List.mem_cons.mp hc with rfl | hc
    · exact fits_plain hf.2 hf.1
    · exact ih c hc

/-- Without flags, and for one file, `run` only calls `cp`. -/
theorem runCp_allOf (disk : Disk) (path outFile : Bytes) (strategy : Record → Encoder)
    (out : OutFile) : runCp cr tempDir disk (allOf path) outFile strategy out =
      cp cr tempDir disk path outFile .default usizeMax strategy out := by
  show (cp cr tempDir disk path outFile .default usizeMax strategy >>= fun _ => pure ()) out = _
  rcases hcp : cp cr tempDir disk path outFile .default usizeMax strategy out with ⟨u | e | msg, out'⟩
  · exact Prog.bind_of_ok hcp
  · exact Prog.bind_of_err hcp
  · exact Prog.bind_of_panic hcp

theorem selected_all {cs : List Contents} (h : cs.length ≤ usizeMax) :
    selected .default usizeMax 0 cs = cs := by
  rw [selected, List.drop_zero]
  exact List.take_of_length_le h

/-- Copying all of an archive to an empty file gives an archive of the same contents. -/
theorem copied_all (hcodec : cr.CodecLawful) (a : ArchiveFile cr (Tunables.new tempDir))
    (hlen : a.contents.length ≤ usizeMax) {disk : Disk} {path outFile : Bytes}
    (hdisk : disk path = .ok a.file) {strategy : Record → Encoder} {out out' : OutFile}
    (hout : out.Calm)
    (hcp : runCp cr tempDir disk (allOf path) outFile strategy out = (.ok (), out')) :
    ∃ fs, out'.content = out.content ++ archive fs ∧
      List.Forall₂ (Copied cr strategy) fs a.contents := by
  obtain ⟨recs, hall, -, hrun⟩ := commands_run hcodec a.reads a.own a.content_eq hdisk
    (show StartPos.default.Names a.frames 0 from rfl) usizeMax
  rw [runCp_allOf] at hcp
  have hne : path ≠ outFile := by
    rintro rfl
    rw [cp, if_pos rfl] at hcp
    cases hcp
  rw [hrun outFile strategy out hne] at hcp
  obtain ⟨fs, -, hcontent, hfs⟩ := emitAll_copied hall hout hcp
  rw [show (a.contents.drop 0).take (usizeMax - StartPos.default.toSkip) = a.contents from
    selected_all hlen] at hfs
  exact ⟨fs, hcontent, hfs⟩

/-- Whatever an archive is recopied with, its contents stay. -/
theorem Recopied.archive (hcodec : cr.CodecLawful) (htemp : (Tunables.new tempDir).TempOk)
    {a : ArchiveFile cr (Tunables.new tempDir)} (hlen : a.contents.length ≤ usizeMax)
    (hlong : ∀ c ∈ a.contents, c.resBody.length ≤ (Tunables.new tempDir).maxBody) {file : File}
    (h : Recopied cr tempDir a.file file) :
    ∃ b : ArchiveFile cr (Tunables.new tempDir), b.file = file ∧ b.contents = a.contents := by
  induction h with
  | refl => exact ⟨a, rfl, rfl⟩
  | copy _ hdisk hbuilt hout hempty hcp hown hcontent ih =>
    obtain ⟨b, rfl, hb⟩ := ih
    obtain ⟨fs, hfs, hcopied⟩ := copied_all hcodec b (hb ▸ hlen) hdisk hout hcp
    rw [hempty, List.nil_append] at hfs
    exact ⟨⟨_, fs, b.contents, hown, hcontent.trans hfs,
      copied_reads hcopied b.reads hbuilt (.inr ⟨htemp, hb ▸ hlong⟩)⟩, rfl, hb⟩

/-- **Copying back.** A plain archive that has been copied with any strategies, one after the other, is
copied plain to its own bytes. -/
theorem cp_back (hcodec : cr.CodecLawful) (htemp : (Tunables.new tempDir).TempOk)
    {a : ArchiveFile cr (Tunables.new tempDir)} (hplain : ∀ f ∈ a.frames, f.head.compress = .plain)
    (hlen : a.file.content.length ≤ usizeMax)
    (hlong : ∀ c ∈ a.contents, c.resBody.length ≤ (Tunables.new tempDir).maxBody) {file : File}
    (h : Recopied cr tempDir a.file file) {disk : Disk} {path outFile : Bytes}
    (hdisk : disk path = .ok file) (hne : path ≠ outFile) {out : OutFile} (hout : out.Calm) :
    ∃ out', runCp cr tempDir disk (allOf path) outFile (fun _ => .plain) out = (.ok (), out') ∧
      out'.content = out.content ++ a.file.content := by
  have hholds : List.Forall₂ (Frame.Holds cr) a.frames a.contents := a.reads.imp fun f c hf => hf.1
  have hcount : a.contents.length ≤ usizeMax :=
    Nat.le_trans (length_le_archive hholds) (a.content_eq ▸ hlen)
  have hplains := (List.forall₂_and_left _ _).mpr ⟨hplain, hholds⟩
  obtain ⟨b, rfl, hb⟩ := h.archive hcodec htemp hcount hlong
  have hall : selected .default usizeMax 0 b.contents = a.contents := by
    rw [hb, selected_all hcount]
  have hinput : IsInput cr tempDir disk outFile .default 0 (path, b) := ⟨hne, hdisk, rfl⟩
  obtain ⟨fs, out', hcp, -, hcontent, hcopied⟩ :=
    @cp_archive cr tempDir disk outFile (fun _ => .plain) .default usizeMax 0 hcodec (path, b) hinput
      (fun rec c hc _ => all_fits_plain hplains c (hall ▸ hc)) out hout
  rw [hall] at hcopied
  refine ⟨out', (runCp_allOf disk path outFile _ out).trans hcp, ?_⟩
  -- Both are the plain frames of the same contents.
  have hcopies : List.Forall₂ (fun f c => f.head.compress = .plain ∧ f.Holds cr c) fs a.contents :=
    hcopied.imp fun f c ⟨hc, rec, _, hmode⟩ => ⟨hmode, hc⟩
  rw [hcontent, a.content_eq, eq_map_plainFrame hcopies, eq_map_plainFrame hplains]

end Plain

/-! ## Samples -/

/-- Two files of two records each. -/
theorem sampleFile_inputs :
    ∃ inputs : List (Bytes × ArchiveFile sampleCrates (Tunables.new Tunables.calmDir)),
      inputs.map Prod.fst = [[97], [98]] ∧
      (∀ i ∈ inputs, IsInput sampleCrates Tunables.calmDir sampleDisk [99] .default 0 i) ∧
      inputs.flatMap (fun i => selected .default usizeMax 0 i.2.contents) =
        List.replicate 4 Sample.contents := by
  obtain ⟨fs, hcontent, hreads⟩ := sampleFile_reads
  refine ⟨[[97], [98]].map fun path =>
    (path, ⟨sampleFile, fs, _, File.quiet_own _, hcontent, hreads⟩), rfl, ?_, rfl⟩
  intro i hi
  obtain ⟨path, hpath, rfl⟩ := List.mem_map.mp hi
  refine ⟨?_, rfl, rfl⟩
  rintro rfl
  exact absurd hpath (by decide)

/-- They are copied to a new file. -/
theorem sampleFiles_merged :
    ∃ fs out', runCp sampleCrates Tunables.calmDir sampleDisk ⟨[[97], [98]], none, none, none⟩ [99]
        (fun _ => .gzip 6) OutFile.empty = (.ok (), out') ∧ out'.content = archive fs ∧
      ∃ rs rp rp', BodyArchive.Reads sampleCrates (Tunables.new Tunables.calmDir)
          ⟨File.quiet out'.content, 0⟩ rs rp ∧
        List.Forall₂ Record.Holds (rs.map Prod.snd) (List.replicate 4 Sample.contents) ∧
        read sampleCrates (Tunables.new Tunables.calmDir) rp = (.ok none, rp') := by
  obtain ⟨inputs, hpaths, hinputs, hcontents⟩ := sampleFile_inputs
  have hall : ∀ c ∈ inputs.flatMap (fun i => selected .default usizeMax 0 i.2.contents),
      c = Sample.contents := fun c hc => List.eq_of_mem_replicate (hcontents ▸ hc)
  obtain ⟨fs', out', hcp, hout, -, hread⟩ :=
    @cp_merges sampleCrates Tunables.calmDir sampleDisk [99] (fun _ => .gzip 6) .default usizeMax 0
      sampleCrates_codecLawful (fun _ => rfl) inputs [] ⟨[[97], [98]], none, none, none⟩
      (by rw [hpaths]; rfl) rfl hinputs (fun rec c hc _ => hall c hc ▸ sampleContents_fits .gzip)
      (.ok ()) .done OutFile.empty OutFile.empty_calm
  rw [hcontents] at hread
  refine ⟨fs', out', hcp, hout, ?_⟩
  exact hread _ ⟨File.quiet [], [], [], File.quiet_own _, rfl, .nil⟩ (File.quiet out'.content) rfl
    (.inr ⟨⟨_, rfl⟩, fun c hc => List.eq_of_mem_replicate hc ▸ by decide⟩) (File.quiet_own _) rfl

/-- The plain frame of contents within the limits can be read. -/
theorem plainFrame_reads {cr : Crates} {tune : Tunables} (hcr : cr.HeadersLawful) {c : Contents}
    (hfits : c.Fits cr .plain) (hparsable : Parsable c.metaHeaders ∧ Parsable c.reqHeaders ∧
      Parsable c.resHeaders) : Frame.Reads cr tune (plainFrame c) c := by
  obtain ⟨hm, hq, hs⟩ := hparsable
  exact ⟨plainFrame_holds hfits, hm.parsesBack hcr, hq.parsesBack hcr, hs.parsesBack hcr,
    fun h => absurd rfl h, fun h => absurd rfl h, fun h => absurd rfl h⟩

/-- A plain archive that has the sample contents twice. -/
def plainArchive : ArchiveFile sampleCrates (Tunables.new Tunables.calmDir) where
  file := File.quiet (archive (List.replicate 2 (plainFrame Sample.contents)))
  frames := List.replicate 2 (plainFrame Sample.contents)
  contents := List.replicate 2 Sample.contents
  own := File.quiet_own _
  content_eq := rfl
  reads :=
    have hreads := plainFrame_reads sampleCrates_headersLawful (sampleContents_fits .plain)
      sampleContents_parsable
    .cons hreads (.cons hreads .nil)

/-- Copied to a compressed archive, and back. -/
theorem plainArchive_back :
    ∃ file, Recopied sampleCrates Tunables.calmDir plainArchive.file file ∧
      ∃ out', runCp sampleCrates Tunables.calmDir (fun _ => .ok file) (allOf [98]) [99]
        (fun _ => .plain) OutFile.empty = (.ok (), out') ∧
        out'.content = plainArchive.file.content := by
  obtain ⟨fs, out₁, hcp, -, -, -⟩ :=
    @cp_archive sampleCrates Tunables.calmDir (fun _ => .ok plainArchive.file) [98] (fun _ => .gzip 6)
      .default usizeMax 0 sampleCrates_codecLawful ([97], plainArchive) ⟨by decide, rfl, rfl⟩
      (fun rec c hc _ => List.eq_of_mem_replicate (List.mem_of_mem_take hc) ▸ sampleContents_fits .gzip)
      OutFile.empty OutFile.empty_calm
  have hcopied : Recopied sampleCrates Tunables.calmDir plainArchive.file (File.quiet out₁.content) :=
    .copy .refl rfl (fun _ => rfl) OutFile.empty_calm rfl ((runCp_allOf _ _ _ _ _).trans hcp)
      (File.quiet_own _) rfl
  refine ⟨_, hcopied, ?_⟩
  have hplain : ∀ f ∈ plainArchive.frames, f.head.compress = .plain := by
    intro f hf
    rw [List.eq_of_mem_replicate hf]
    rfl
  have hlong : ∀ c ∈ plainArchive.contents,
      c.resBody.length ≤ (Tunables.new Tunables.calmDir).maxBody := by
    intro c hc
    rw [List.eq_of_mem_replicate hc]
    decide
  exact cp_back sampleCrates_codecLawful ⟨_, rfl⟩ hplain (by decide +kernel) hlong hcopied rfl
    (by decide) OutFile.empty_calm

end BodyArchive.Cli
