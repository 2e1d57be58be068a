import BodyArchive.Barc.Convert
import BodyArchive.Barc.RoundTrip

/-!
# Dialogs in an archive

Dialogs are converted to records, written, read, and converted back. What comes back has its bodies
elsewhere, but is otherwise the same dialog if the parser knows its version and its encodings, and an error
if not (`dialogs_archived`). Archived once more, the dialogs make an archive of the same contents, and
if nothing is compressed, of the same bytes.
-/

namespace BodyArchive

variable {http : HttpTypes}

namespace Dialog

/-- The version and the encodings are known to the parser. -/
def Known (d : Dialog http) : Prop := d.epi.version.Known ∧ ∀ e ∈ d.epi.resDecoded, e.Known

/-- The same dialog, whose bodies may be kept elsewhere. -/
structure Same (d d' : Dialog http) : Prop where
  method_eq : d'.pro.method = d.pro.method
  url_eq : d'.pro.url = d.pro.url
  req_eq : d'.pro.reqHeaders = d.pro.reqHeaders
  req_body : ∃ bs, d.pro.reqBody.Backs bs ∧ d'.pro.reqBody.Backs bs
  version_eq : d'.epi.version = d.epi.version
  status_eq : d'.epi.status = d.epi.status
  res_eq : d'.epi.resHeaders = d.epi.resHeaders
  res_body : ∃ bs, d.epi.resBody.Backs bs ∧ d'.epi.resBody.Backs bs
  decoded_eq : d'.epi.resDecoded = d.epi.resDecoded

/-- The dialog with other bodies. -/
def withBodies (d : Dialog http) (reqBody resBody : BodyImage) : Dialog http :=
  ⟨{ d.pro with reqBody := reqBody }, { d.epi with resBody := resBody }⟩

end Dialog

/-! ## One dialog -/

/-- What is in the record of a dialog. -/
structure OfDialog (d : Dialog http) (rec : Record) : Prop where
  rec_type : rec.recType = .dialog
  req_eq : rec.reqHeaders = d.pro.reqHeaders
  req_body : rec.reqBody = d.pro.reqBody
  res_eq : rec.resHeaders = d.epi.resHeaders
  res_body : rec.resBody = d.epi.resBody
  /-- Its meta headers come from the rest. -/
  other (reqBody resBody : BodyImage) : Record.tryFrom http (d.withBodies reqBody resBody) =
    .ok { rec with reqBody := reqBody, resBody := resBody }

theorem ofDialog {d : Dialog http} {rec : Record} (h : Record.tryFrom http d = .ok rec) :
    OfDialog d rec := by
  obtain ⟨url, hurl, h₁⟩ := except_bind_eq_ok.mp h
  obtain ⟨method, hmethod, h₂⟩ := except_bind_eq_ok.mp h₁
  obtain ⟨version, hversion, h₃⟩ := except_bind_eq_ok.mp h₂
  obtain ⟨status, hstatus, h₄⟩ := except_bind_eq_ok.mp h₃
  obtain ⟨metaH, hmeta, h₅⟩ := except_bind_eq_ok.mp h₄
  cases h₅
  refine ⟨rfl, rfl, rfl, rfl, rfl, fun reqBody resBody => ?_⟩
  exact except_bind_eq_ok.mpr ⟨url, hurl, except_bind_eq_ok.mpr ⟨method, hmethod,
    except_bind_eq_ok.mpr ⟨version, hversion, except_bind_eq_ok.mpr ⟨status, hstatus,
      except_bind_eq_ok.mpr ⟨metaH, hmeta, rfl⟩⟩⟩⟩⟩

/-- A record of a dialog has its headers and bodies. -/
theorem tryFrom_holds {d : Dialog http} {rec : Record} (h : Record.tryFrom http d = .ok rec)
    {reqBody resBody : Bytes} (hreq : d.pro.reqBody.Backs reqBody)
    (hres : d.epi.resBody.Backs resBody) :
    rec.Holds ⟨rec.metaHeaders, d.pro.reqHeaders, reqBody, d.epi.resHeaders, resBody⟩ where
  rec_type := (ofDialog h).rec_type
  meta_eq := rfl
  req_eq := (ofDialog h).req_eq
  req_body := (ofDialog h).req_body ▸ hreq
  res_eq := (ofDialog h).res_eq
  res_body := (ofDialog h).res_body ▸ hres

/-- What a record with such meta headers is converted to. -/
theorem tryFrom_described {d : Dialog http} {rec : Record} (hd : Describes rec.metaHeaders d)
    (hreq : rec.reqHeaders = d.pro.reqHeaders) (hres : rec.resHeaders = d.epi.resHeaders) :
    (d.Known → Dialog.tryFrom http rec = .ok (d.withBodies rec.reqBody rec.resBody)) ∧
      (¬ d.Known → ∃ e, Dialog.tryFrom http rec = .error e) := by
  constructor
  · rintro ⟨hv, hes⟩
    have hversion : metaVersion rec.metaHeaders = .ok d.epi.version := by
      rw [hd.version]
      exact versionOf_eq_ok.mpr ⟨hv, rfl⟩
    have hdecoded : metaDecoded http rec.metaHeaders = .ok d.epi.resDecoded :=
      (hd.decoded _).mpr ⟨hes, rfl⟩
    rw [Dialog.tryFrom, hd.url, hd.method, hversion, hd.status, hdecoded, hreq, hres]
    rfl
  · intro hunknown
    cases hback : Dialog.tryFrom http rec with
    | error e => exact ⟨e, rfl⟩
    | ok d' =>
      obtain ⟨url, -, h₁⟩ := except_bind_eq_ok.mp hback
      obtain ⟨method, -, h₂⟩ := except_bind_eq_ok.mp h₁
      obtain ⟨version, hversion, h₃⟩ := except_bind_eq_ok.mp h₂
      obtain ⟨status, -, h₄⟩ := except_bind_eq_ok.mp h₃
      obtain ⟨decoded, hdecoded, -⟩ := except_bind_eq_ok.mp h₄
      rw [hd.version] at hversion
      exact absurd ⟨(versionOf_eq_ok.mp hversion).1, ((hd.decoded decoded).mp hdecoded).1⟩ hunknown

/-- What a record that has been read is to the dialog it was written for. -/
structure Returns (d : Dialog http) (rec : Record) : Prop where
  known : d.Known → ∃ d', Dialog.tryFrom http rec = .ok d' ∧ d.Same d'
  unknown : ¬ d.Known → ∃ e, Dialog.tryFrom http rec = .error e

/-- A dialog to write, with its record. -/
structure Filing (http : HttpTypes) extends Job where
  dialog : Dialog http
  of_dialog : Record.tryFrom http dialog = .ok record

namespace Filing

variable (hl : http.Lawful) (x : Filing http) {rec : Record} (h : rec.Holds x.contents)
include hl h

theorem described :
    (x.dialog.Known →
      Dialog.tryFrom http rec = .ok (x.dialog.withBodies rec.reqBody rec.resBody)) ∧
      (¬ x.dialog.Known → ∃ e, Dialog.tryFrom http rec = .error e) := by
  obtain ⟨-, hreq, -, hres, -, -⟩ := ofDialog x.of_dialog
  apply tryFrom_described
  · rw [h.meta_eq, ← x.holds.meta_eq]
    exact describes_of hl x.of_dialog
  · rw [h.req_eq, ← x.holds.req_eq, hreq]
  · rw [h.res_eq, ← x.holds.res_eq, hres]

/-- **A dialog returns** from any record with its contents. -/
theorem returns : Returns x.dialog rec where
  known hknown := by
    obtain ⟨-, -, hreq, -, hres, -⟩ := ofDialog x.of_dialog
    refine ⟨_, (x.described hl h).1 hknown, rfl, rfl, rfl, ⟨_, ?_, h.req_body⟩, rfl, rfl, rfl,
      ⟨_, ?_, h.res_body⟩, rfl⟩
    · exact hreq ▸ x.holds.req_body
    · exact hres ▸ x.holds.res_body
  unknown := (x.described hl h).2

/-- And can be filed again, with the same contents. -/
theorem again (hknown : x.dialog.Known) : ∃ y : Filing http,
    Dialog.tryFrom http rec = .ok y.dialog ∧ y.contents = x.contents ∧ y.enc = x.enc :=
  ⟨⟨⟨{ x.record with reqBody := rec.reqBody, resBody := rec.resBody }, x.contents, x.enc,
    ⟨x.holds.rec_type, x.holds.meta_eq, x.holds.req_eq, h.req_body, x.holds.res_eq, h.res_body⟩⟩,
    _, (ofDialog x.of_dialog).other _ _⟩, (x.described hl h).1 hknown, rfl, rfl⟩

end Filing

/-! ## An archive of dialogs -/

section Archived

variable {cr : Crates} {tune : Tunables}

/-- `write`, for each of the dialogs. -/
def writeDialogs (cr : Crates) (filings : List (Filing http)) : Prog OutFile BarcError (List Nat) :=
  writeAllRecords cr (filings.map fun x => (x.record, x.enc))

/-- A reader of a file with this content gets the dialogs back, from these offsets. -/
def Archives (cr : Crates) (tune : Tunables) (offsets : List Nat) (filings : List (Filing http))
    (content : Bytes) : Prop :=
  ∀ file : File, file.Own → file.content = content → ∃ rs rp rp',
    Reads cr tune ⟨file, 0⟩ (offsets.zip rs) rp ∧ read cr tune rp = (.ok none, rp') ∧
    List.Forall₂ (fun (x : Filing http) r => Returns x.dialog r) filings rs

/-- The frames of dialogs. -/
def FramesOf (cr : Crates) (fs : List Frame) (filings : List (Filing http)) : Prop :=
  List.Forall₂ (fun fr (x : Filing http) => fr.Holds cr x.contents ∧ fr.head.compress = x.enc.mode) fs
    filings

/-- Dialogs that have the same contents and encoders. -/
def SameFilings (filings' filings : List (Filing http)) : Prop :=
  List.Forall₂ (fun y x : Filing http => y.contents = x.contents ∧ y.enc = x.enc) filings' filings

/-- Dialogs within the limits are written. -/
theorem writeDialogs_ok {filings : List (Filing http)}
    (hvalid : ∀ x ∈ filings, x.toJob.Valid cr tune) {f : OutFile} (hf : f.Calm)
    (hempty : f.content = []) :
    ∃ fs f', writeDialogs cr filings f = (.ok (starts 0 fs), f') ∧ f'.content = archive fs ∧
      FramesOf cr fs filings := by
  have hjobs : (filings.map fun x => (x.record, x.enc)) =
      (filings.map Filing.toJob).map fun j => (j.record, j.enc) := by
    rw [List.map_map]
    rfl
  have hfits : ∀ j ∈ filings.map Filing.toJob, j.contents.Fits cr j.enc.mode := by
    intro j hj
    obtain ⟨x, hx, rfl⟩ := List.mem_map.mp hj
    exact (hvalid x hx).fits
  obtain ⟨offsets, f', hw⟩ := writeAllRecords_ok (filings.map Filing.toJob) hfits hf
  obtain ⟨fs, rfl, hcontent, hall⟩ := writeAllRecords_frames (filings.map Filing.toJob) hf hempty hw
  exact ⟨fs, f', by rw [writeDialogs, hjobs, hw], hcontent, List.forall₂_map_right_iff.mp hall⟩

/-- And read. -/
theorem FramesOf.read (hcr : cr.HeadersLawful) (hcodec : cr.CodecLawful) (htemp : tune.TempOk)
    {filings : List (Filing http)} (hvalid : ∀ x ∈ filings, x.toJob.Valid cr tune) {fs : List Frame}
    (h : FramesOf cr fs filings) {file : File} (hown : file.Own) (hfile : file.content = archive fs) :
    ∃ rs rp rp', Reads cr tune ⟨file, 0⟩ ((starts 0 fs).zip rs) rp ∧
      BodyArchive.read cr tune rp = (.ok none, rp') ∧
      List.Forall₂ (fun (x : Filing http) (r : Record) => r.Holds x.contents) filings rs := by
  have hreadable : ∀ j ∈ filings.map Filing.toJob, Readable cr tune j.enc.mode j.contents := by
    intro j hj
    obtain ⟨x, hx, rfl⟩ := List.mem_map.mp hj
    exact (hvalid x hx).readable hcr htemp
  have hreads := @reads_of_readable cr tune fs (filings.map Filing.toJob)
    (List.forall₂_map_right_iff.mpr h) hreadable
  have hrest : Rest (⟨file, 0⟩ : ReadPos) 0 (archive fs ++ []) .eof := by
    have hr := ReadPos.rest_own hown 0
    rwa [hfile, List.drop_zero, ← List.append_nil (archive fs)] at hr
  obtain ⟨rs, rp, hseq, hall, hend⟩ := reads_archive hcodec hreads hrest
  obtain ⟨rp', hnone, -⟩ := read_end hend
  rw [List.forall₂_map_right_iff, List.forall₂_map_right_iff] at hall
  exact ⟨rs, rp, rp', hseq, hnone, hall.flip⟩

/-- Dialogs read back can be filed again. -/
theorem filed_again (hl : http.Lawful) {filings : List (Filing http)} {rs : List Record}
    (h : List.Forall₂ (fun (x : Filing http) (r : Record) => r.Holds x.contents) filings rs)
    (hknown : ∀ x ∈ filings, x.dialog.Known) :
    ∃ filings' : List (Filing http),
      List.Forall₂ (fun r (y : Filing http) => Dialog.tryFrom http r = .ok y.dialog) rs filings' ∧
      SameFilings filings' filings := by
  induction h with
  | nil => exact ⟨[], .nil, .nil⟩
  | @cons x r filings rs hr _ ih =>
    obtain ⟨y, hy, hsame⟩ := x.again hl hr (hknown x List.mem_cons_self)
    obtain ⟨filings', hconverted, hall⟩ := ih fun z hz => hknown z (List.mem_cons_of_mem _ hz)
    exact ⟨y :: filings', .cons hy hconverted, .cons hsame hall⟩

section Again

variable {filings' filings : List (Filing http)} (h : SameFilings filings' filings)
include h

theorem SameFilings.valid (hvalid : ∀ x ∈ filings, x.toJob.Valid cr tune) :
    ∀ y ∈ filings', y.toJob.Valid cr tune := by
  induction h with
  | nil => exact fun y hy => absurd hy List.not_mem_nil
  | @cons y x _ _ hyx _ ih =>
    intro z hz
    rcases List.mem_cons.mp hz with rfl | hz
    · obtain ⟨hfits, hm, hq, hs, hbuilt, hres⟩ := hvalid x List.mem_cons_self
      rw [← hyx.1] at hm hq hs
      rw [← hyx.2] at hbuilt
      rw [← hyx.1, ← hyx.2] at hfits hres
      exact ⟨hfits, hm, hq, hs, hbuilt, hres⟩
    · exact ih (fun x hx => hvalid x (List.mem_cons_of_mem _ hx)) z hz

theorem SameFilings.frames {fs : List Frame} (hfs : FramesOf cr fs filings') :
    FramesOf cr fs filings := by
  induction h generalizing fs with
  | nil => exact hfs
  | cons hyx _ ih =>
    cases hfs with
    | cons hf hfs => exact .cons (hyx.1 ▸ hyx.2 ▸ hf) (ih hfs)

end Again

/-- Plain, there is only one archive of some dialogs. -/
theorem FramesOf.unique {filings : List (Filing http)} (hplain : ∀ x ∈ filings, x.enc.mode = .plain)
    {fs fs' : List Frame} (h : FramesOf cr fs filings) (h' : FramesOf cr fs' filings) : fs' = fs := by
  have plain {fs : List Frame} (h : FramesOf cr fs filings) :
      fs = (filings.map fun x => x.contents).map plainFrame := by
    refine @eq_map_plainFrame cr _ _ (List.forall₂_map_right_iff.mpr ?_)
    have hmem := (List.forall₂_and_left _ _).mpr ⟨hplain, h.flip⟩
    exact hmem.flip.imp fun fr x hx => ⟨hx.2.2.trans hx.1, hx.2.1⟩
  rw [plain h, plain h']

/-- **Dialogs come back from an archive.** Dialogs within the limits are all written. A reader gets from
each offset that was returned a record, in order and then the end, and each record is converted to
the dialog it was written for if its version and encodings are known, and to an error if not. If they all
are, what they have been converted to is archived again, with the same encoders, in the same way;
and if these do not compress, at the same offsets and in the same bytes. -/
theorem dialogs_archived (hl : http.Lawful) (hcr : cr.HeadersLawful) (hcodec : cr.CodecLawful)
    (htemp : tune.TempOk) {filings : List (Filing http)}
    (hvalid : ∀ x ∈ filings, x.toJob.Valid cr tune) {f : OutFile} (hf : f.Calm)
    (hempty : f.content = []) :
    ∃ offsets f', writeDialogs cr filings f = (.ok offsets, f') ∧
      Archives cr tune offsets filings f'.content ∧
      ((∀ x ∈ filings, x.dialog.Known) → ∀ file : File, file.Own → file.content = f'.content →
        ∃ rs rp, Reads cr tune ⟨file, 0⟩ (offsets.zip rs) rp ∧ ∃ filings' : List (Filing http),
          List.Forall₂ (fun r (y : Filing http) => Dialog.tryFrom http r = .ok y.dialog) rs filings' ∧
          SameFilings filings' filings ∧ ∀ g : OutFile, g.Calm → g.content = [] → ∃ offsets' g',
            writeDialogs cr filings' g = (.ok offsets', g') ∧
            Archives cr tune offsets' filings g'.content ∧
            ((∀ x ∈ filings, x.enc.mode = .plain) →
              offsets' = offsets ∧ g'.content = f'.content)) := by
  have archives {fs : List Frame} (h : FramesOf cr fs filings) :
      Archives cr tune (starts 0 fs) filings (archive fs) := by
    intro file hown hfile
    obtain ⟨rs, rp, rp', hseq, hend, hall⟩ := h.read hcr hcodec htemp hvalid hown hfile
    exact ⟨rs, rp, rp', hseq, hend, hall.imp fun x r hr => x.returns hl hr⟩
  obtain ⟨fs, f', hw, hcontent, hfs⟩ := writeDialogs_ok hvalid hf hempty
  refine ⟨starts 0 fs, f', hw, hcontent ▸ archives hfs, ?_⟩
  intro hknown file hown hfile
  obtain ⟨rs, rp, -, hseq, -, hall⟩ :=
    hfs.read hcr hcodec htemp hvalid hown (hfile.trans hcontent)
  obtain ⟨filings', hconverted, hsame⟩ := filed_again hl hall hknown
  refine ⟨rs, rp, hseq, filings', hconverted, hsame, ?_⟩
  intro g hg hnone
  obtain ⟨fs', g', hw', hcontent', hfs'⟩ := writeDialogs_ok (hsame.valid hvalid) hg hnone
  have hsameFrames := hsame.frames hfs'
  refine ⟨starts 0 fs', g', hw', hcontent' ▸ archives hsameFrames, fun hplain => ?_⟩
  rw [hcontent', hcontent, hfs.unique hplain hsameFrames]
  exact ⟨rfl, rfl⟩

end Archived

/-! ## A dialog in two encodings -/

instance (v : HeaderValue) : Decidable v.Trimmed :=
  inferInstanceAs (Decidable ((∀ b ∈ v.bytes.head?, isBlank b = false) ∧
    ∀ b ∈ v.bytes.getLast?, isBlank b = false))

/-- A dialog that has no bodies, plain. -/
theorem sampleFiling : ∃ x : Filing sampleHttp, x.toJob.Valid sampleCrates
      (Sample.tunables 2 3 (by decide)) ∧
    x.dialog = Sample.dialog .http11 [.chunked, .gzip] ∧ x.enc = .plain := by
  obtain ⟨rec, hrec, hlen, htrim, hblock⟩ : ∃ rec,
      Record.tryFrom sampleHttp (Sample.dialog .http11 [.chunked, .gzip]) = .ok rec ∧
        (rec.metaHeaders.len ≤ maxHeaders ∧ (∀ e ∈ rec.metaHeaders.iter, e.2.Trimmed) ∧
          (block true rec.metaHeaders).length ≤ 1000) := exists_of_any (by decide +kernel)
  have hnone : BodyImage.empty.Backs [] := ⟨rfl, rfl, by simp⟩
  have hempty : Parsable .empty := ⟨by decide, by simp [Multimap.empty, Multimap.iter]⟩
  have hfore : (Contents.fore ⟨rec.metaHeaders, .empty, [], .empty, []⟩ true) =
      block true rec.metaHeaders := by
    show block true rec.metaHeaders ++ [] ++ [] ++ [] = _
    simp only [List.append_nil]
  have hwithin : Contents.Within ⟨rec.metaHeaders, .empty, [], .empty, []⟩ true := by
    refine ⟨Nat.le_trans hblock (by decide), Nat.zero_le _, Nat.zero_le _, ?_⟩
    rw [hfore]
    exact Nat.le_trans (Nat.add_le_add_right hblock 2) (by decide)
  refine ⟨⟨⟨rec, _, .plain, tryFrom_holds hrec hnone hnone⟩, _, hrec⟩, ?_, rfl, rfl⟩
  refine ⟨⟨hwithin, Nat.zero_le _, ?_⟩, ⟨hlen, htrim⟩, hempty, hempty, rfl,
    fun h => absurd rfl h⟩
  rintro payload (⟨-, rfl⟩ | ⟨hne, -⟩)
  · show (Contents.fore ⟨rec.metaHeaders, .empty, [], .empty, []⟩ true ++ []).length ≤ _
    rw [hfore, List.append_nil]
    exact Nat.le_trans hblock (by decide)
  · exact absurd rfl hne

/-- Archived, read, and archived again. -/
theorem sampleFiling_archived : ∃ (x : Filing sampleHttp) (offsets : List Nat) (f' : OutFile),
    x.dialog = Sample.dialog .http11 [.chunked, .gzip] ∧
    writeDialogs sampleCrates [x] OutFile.empty = (.ok offsets, f') ∧
    Archives sampleCrates (Sample.tunables 2 3 (by decide)) offsets [x] f'.content ∧
    ∃ filings' g', writeDialogs sampleCrates filings' OutFile.empty = (.ok offsets, g') ∧
      SameFilings filings' [x] ∧ g'.content = f'.content := by
  obtain ⟨x, hvalid, hdialog, hplain⟩ := sampleFiling
  have hone {P : Filing sampleHttp → Prop} (h : P x) : ∀ y ∈ [x], P y := fun y hy =>
    List.mem_singleton.mp hy ▸ h
  obtain ⟨offsets, f', hw, harchives, hagain⟩ :=
    @dialogs_archived sampleHttp sampleCrates (Sample.tunables 2 3 (by decide)) sampleHttp_lawful
      sampleCrates_headersLawful sampleCrates_codecLawful (Sample.tunables_tempOk _) [x] (hone hvalid)
      OutFile.empty OutFile.empty_calm rfl
  obtain ⟨-, -, -, filings', -, hsame, hrest⟩ :=
    hagain (hone (by rw [hdialog]; exact ⟨by decide, by decide⟩)) (File.quiet f'.content)
      (File.quiet_own _) rfl
  obtain ⟨offsets', g', hw', -, hbytes⟩ := hrest OutFile.empty OutFile.empty_calm rfl
  obtain ⟨rfl, hcontent⟩ := hbytes (hone (by rw [hplain]; rfl))
  exact ⟨x, offsets', f', hdialog, hw, harchives, filings', g', hw', hsame, hcontent⟩

end BodyArchive
