import BodyArchive.Barc.Strategy
import BodyArchive.Cli.Copy

/-!
# The compression flags

`compress_flags` makes a strategy of `--brotli` and `--gzip`, and `barc cp` asks it for the encoder of each
record. What it answers depends only on the contents of the record, so the compressions of the copies
do (`cp_compresses`), however the records were compressed before and wherever their bodies are.
-/

namespace BodyArchive

/-! ## The strategies -/

/-- The fields of `GzipCompressStrategy` and of `BrotliCompressStrategy`. -/
structure LeveledStrategy where
  minLen : Nat
  compressionLevel : Nat
  checkIdentity : Bool
  min_len_le : minLen ≤ u64Max

namespace LeveledStrategy

/-- `GzipCompressStrategy::default`. -/
def gzip : LeveledStrategy := ⟨4 * 1024, 6, true, by decide⟩

/-- `BrotliCompressStrategy::default`. -/
def brotli : LeveledStrategy := ⟨1024, 6, true, by decide⟩

/-- `set_check_identity`. -/
def setCheckIdentity (s : LeveledStrategy) (check : Bool) : LeveledStrategy :=
  { s with checkIdentity := check }

/-- The methods of the trait. That of the coefficient is the same for all. -/
def methods (discount : Nat → Nat) (s : LeveledStrategy) : CompressStrategy :=
  ⟨s.minLen, discount, s.checkIdentity, s.min_len_le⟩

end LeveledStrategy

/-- The strategies there are. -/
inductive Strategy where
  | no
  | gzip (s : LeveledStrategy)
  | brotli (s : LeveledStrategy)

namespace Strategy

variable (discount : Nat → Nat) (mime : MimeCrate)

/-- `wrap_encoder`. -/
def wrapEncoder : Strategy → Record → Res Empty Encoder
  | .no, _ => .ok .plain
  | .gzip s, rec => (s.methods discount).wrapEncoder mime (.gzip s.compressionLevel) rec
  | .brotli s, rec => (s.methods discount).wrapEncoder mime (.brotli s.compressionLevel) rec

/-- The encoder of a record. A record for which `wrap_encoder` overflows is over the limits anyway. -/
def encoder (s : Strategy) (rec : Record) : Encoder :=
  match s.wrapEncoder discount mime rec with
  | .ok enc => enc
  | .panic _ => .plain

end Strategy

/-! ## Contents and what they count for -/

/-- The record that has these contents in memory. -/
def Contents.record (c : Contents) : Record :=
  ⟨.dialog, c.metaHeaders, c.reqHeaders, .fromSlice c.reqBody, c.resHeaders, .fromSlice c.resBody⟩

theorem Contents.record_holds (c : Contents) : c.record.Holds c :=
  ⟨rfl, rfl, rfl, BodyImage.fromSlice_backs _, rfl, BodyImage.fromSlice_backs _⟩

theorem length_le_pad (withCrlf : Bool) (bs : Bytes) : bs.length ≤ (pad withCrlf bs).length := by
  unfold pad
  split
  · rw [List.length_append]
    omega
  · exact Nat.le_refl _

namespace CompressStrategy

variable {strategy : CompressStrategy} {mime : MimeCrate} {c : Contents}

/-- Records with the same contents count the same. -/
theorem total_of_holds {rec : Record} (h : rec.Holds c) :
    total strategy mime rec = total strategy mime c.record ∧
      needed strategy mime rec = needed strategy mime c.record := by
  obtain ⟨-, hmeta, hreq, hreqB, hres, hresB⟩ := h
  obtain ⟨-, hmeta', hreq', hreqB', hres', hresB'⟩ := c.record_holds
  unfold total needed resCompressible reqCompressible
  rw [hmeta, hreq, hreqB.1, hres, hresB.1, hmeta', hreq', hreqB'.1, hres', hresB'.1]
  exact ⟨rfl, rfl⟩

theorem counted_le (len : Nat) (compressible : Bool) : counted len compressible ≤ len := by
  unfold counted
  split
  · exact Nat.le_refl _
  · exact Nat.zero_le _

/-- What is within the limits does not overflow. -/
theorem total_le {withCrlf : Bool} (h : c.Within withCrlf) :
    total strategy mime c.record ≤ u64Max := by
  obtain ⟨-, hmeta, hreq, hreqB, hres, hresB⟩ := c.record_holds
  have hfore := h.len_le
  unfold Contents.fore at hfore
  simp only [List.length_append] at hfore
  have hblock (headers : HeaderMap) :
      (block false headers).length ≤ (block withCrlf headers).length := by
    show (pad false (headerLines headers)).length ≤ _
    rw [pad_false]
    exact length_le_pad _ _
  have hbody := length_le_pad withCrlf c.reqBody
  have hcounted := counted_le c.resBody.length (resCompressible strategy mime c.record)
  have hcounted' := counted_le c.reqBody.length (reqCompressible mime c.record)
  have hmax : v2MaxRecord ≤ u64Max := by decide
  unfold total
  rw [hresB.1, hreqB.1, hmeta, hreq, hres]
  have h₁ := hblock c.metaHeaders
  have h₂ := hblock c.reqHeaders
  have h₃ := hblock c.resHeaders
  omega

end CompressStrategy

namespace Strategy

variable (discount : Nat → Nat) (mime : MimeCrate)

/-- Whether the compressible bytes are enough. -/
def enough (s : LeveledStrategy) (c : Contents) : Bool :=
  decide ((s.methods discount).needed mime c.record ≤ (s.methods discount).total mime c.record)

/-- The compression that contents are copied with. -/
def modeOf : Strategy → Contents → Compression
  | .no, _ => .plain
  | .gzip s, c => if enough discount mime s c then .gzip else .plain
  | .brotli s, c => if enough discount mime s c then .brotli else .plain

variable {discount mime}

/-- **A strategy's answer** depends on the contents only. -/
theorem wrapEncoder_mode {c : Contents} {withCrlf : Bool} (hc : c.Within withCrlf) {rec : Record}
    (h : rec.Holds c) (s : Strategy) :
    ∃ enc, s.wrapEncoder discount mime rec = .ok enc ∧ enc.mode = s.modeOf discount mime c := by
  have leveled (s : LeveledStrategy) (enc : Encoder) :
      (s.methods discount).wrapEncoder mime enc rec =
        .ok (if enough discount mime s c then enc else .plain) := by
    obtain ⟨htotal, hneeded⟩ := @CompressStrategy.total_of_holds (s.methods discount) mime c rec h
    rw [CompressStrategy.wrapEncoder_total (htotal ▸ CompressStrategy.total_le hc), htotal, hneeded,
      enough]
    simp only [decide_eq_true_eq]
  cases s with
  | no => exact ⟨.plain, rfl, rfl⟩
  | gzip s =>
    refine ⟨_, leveled s _, ?_⟩
    rw [modeOf, apply_ite Encoder.mode]
    rfl
  | brotli s =>
    refine ⟨_, leveled s _, ?_⟩
    rw [modeOf, apply_ite Encoder.mode]
    rfl

theorem encoder_mode {c : Contents} {withCrlf : Bool} (hc : c.Within withCrlf) {rec : Record}
    (h : rec.Holds c) (s : Strategy) :
    (s.encoder discount mime rec).mode = s.modeOf discount mime c := by
  obtain ⟨enc, hwrap, hmode⟩ := @wrapEncoder_mode discount mime c withCrlf hc rec h s
  rw [encoder, hwrap]
  exact hmode

end Strategy

/-! ## The flags -/

namespace Cli

/-- `compress_flags`. `built` is whether the *brotli* feature is. -/
def compressFlags (built brotli gzip : Bool) : Except Flaw Strategy := do
  let cs ← if brotli then
      if built then .ok (.brotli (LeveledStrategy.brotli.setCheckIdentity true))
      else .error (.clError (ascii "Brotli compression requires the \"brotli\" build feature"))
    else .ok .no
  -- brotli/gzip are exclusive (conflicts_with)
  return if gzip then .gzip (LeveledStrategy.gzip.setCheckIdentity true) else cs

section Command

variable (cr : Crates) (discount : Nat → Nat) (mime : MimeCrate) (tempDir : TempDir) (disk : Disk)

/-- The `cp` branch of `run`, with its compression flags. -/
def runCpFlags (brotli gzip : Bool) (m : FilterArgs) (outFile : Bytes) : Prog OutFile Flaw Unit := do
  let cs ← Prog.ofRes (.ofExcept (compressFlags cr.brotli brotli gzip))
  runCp cr tempDir disk m outFile (cs.encoder discount mime)

end Command

variable {cr : Crates} {discount : Nat → Nat} {mime : MimeCrate} {tempDir : TempDir} {disk : Disk}

/-- The strategies that the flags can ask for. -/
inductive OfFlags (built : Bool) : Strategy → Prop
  | no : OfFlags built .no
  | gzip : OfFlags built (.gzip .gzip)
  | brotli (hbuilt : built = true) : OfFlags built (.brotli .brotli)

theorem compressFlags_strategy {built brotli gzip : Bool} {cs : Strategy}
    (h : compressFlags built brotli gzip = .ok cs) : OfFlags built cs := by
  cases brotli with
  | false =>
    cases gzip with
    | false =>
      cases h
      exact .no
    | true =>
      cases h
      exact .gzip
  | true =>
    cases built with
    | false => cases gzip <;> cases h
    | true =>
      cases gzip with
      | false =>
        cases h
        exact .brotli rfl
      | true =>
        cases h
        exact .gzip

/-- What a build can be asked to write, it can read. -/
theorem compressFlags_built {brotli gzip : Bool} {cs : Strategy}
    (h : compressFlags cr.brotli brotli gzip = .ok cs) (rec : Record) :
    cr.built (cs.encoder discount mime rec).mode = true := by
  have leveled (s : LeveledStrategy) (enc : Encoder) (henc : cr.built enc.mode = true) :
      ∀ enc', (s.methods discount).wrapEncoder mime enc rec = .ok enc' →
        cr.built enc'.mode = true := by
    intro enc' hwrap
    unfold CompressStrategy.wrapEncoder at hwrap
    split at hwrap <;> cases hwrap
    · exact henc
    · rfl
  have hstrategy : ∀ enc, cs.wrapEncoder discount mime rec = .ok enc → cr.built enc.mode = true := by
    cases compressFlags_strategy h with
    | no =>
      intro enc henc
      cases henc
      rfl
    | gzip => exact leveled _ _ rfl
    | brotli hbrotli => exact leveled _ _ hbrotli
  unfold Strategy.encoder
  split
  · next enc henc => exact hstrategy enc henc
  · rfl

/-- **Copying with compression flags.** What `cp` adds to its output file are the selected contents of its
inputs, each in the compression that the strategy of the flags has for contents like these, whatever they
were compressed with before: for none of them the strategy fails, and if the output file was an archive
before, a reader of the same build finds in it what was there, and then these contents. -/
theorem cp_compresses (hcodec : cr.CodecLawful) {brotli gzip : Bool} {cs : Strategy}
    (hcs : compressFlags cr.brotli brotli gzip = .ok cs) {start : StartPos} {count k : Nat}
    {outFile : Bytes} {inputs : List (Bytes × ArchiveFile cr (Tunables.new tempDir))}
    {rest : List Bytes} {m : FilterArgs} (hfiles : m.files = inputs.map Prod.fst ++ rest)
    (hflags : filterFlags m = .ok (start, count))
    (hinputs : ∀ i ∈ inputs, IsInput cr tempDir disk outFile start k i)
    (hfits : ∀ c ∈ inputs.flatMap (fun i => selected start count k i.2.contents),
      c.Fits cr (cs.modeOf discount mime c)) {x : Res Flaw Unit}
    (hrest : CopyEnds disk outFile rest x) {out : OutFile} (hout : out.Calm) :
    ∃ fs out', runCpFlags cr discount mime tempDir disk brotli gzip m outFile out = (x, out') ∧
      out'.content = out.content ++ archive fs ∧
      List.Forall₂ (fun f c => Frame.Holds cr f c ∧ f.head.compress = cs.modeOf discount mime c) fs
        (inputs.flatMap fun i => selected start count k i.2.contents) ∧
      (∀ c ∈ inputs.flatMap (fun i => selected start count k i.2.contents), ∀ rec : Record,
        rec.Holds c → (cs.wrapEncoder discount mime rec).Safe) ∧
      ∀ (tune : Tunables) (old : ArchiveFile cr tune) (file : File), old.file.content = out.content →
        tune.TempOk →
        (∀ c ∈ inputs.flatMap (fun i => selected start count k i.2.contents),
          c.resBody.length ≤ tune.maxBody) →
        file.Own → file.content = out'.content →
        ∃ rs rp rp', BodyArchive.Reads cr tune ⟨file, 0⟩ rs rp ∧
          List.Forall₂ Record.Holds (rs.map Prod.snd)
            (old.contents ++ inputs.flatMap fun i => selected start count k i.2.contents) ∧
          read cr tune rp = (.ok none, rp') := by
  have hencoder (c : Contents)
      (hc : c ∈ inputs.flatMap fun i => selected start count k i.2.contents) (rec : Record)
      (hrec : rec.Holds c) : (cs.encoder discount mime rec).mode = cs.modeOf discount mime c :=
    Strategy.encoder_mode (hfits c hc).within hrec cs
  obtain ⟨fs, out', hrun, -, hcontent, hcopied⟩ := @forM_cp cr tempDir disk outFile
    (cs.encoder discount mime) start count k hcodec inputs hinputs
    (fun rec c hc hrec => hencoder c hc rec hrec ▸ hfits c hc) rest x hrest out hout
  refine ⟨fs, out', ?_, hcontent, ?_, ?_, ?_⟩
  · rw [runCpFlags, hcs]
    show runCp cr tempDir disk m outFile (cs.encoder discount mime) out = _
    rw [runCp, hflags, hfiles]
    exact hrun
  · have hmem := (List.forall₂_and_left _ _).mpr ⟨fun c hc => hc, hcopied.flip⟩
    apply hmem.flip.imp
    intro f c hf
    obtain ⟨hc, hholds, rec, hrec, hmode⟩ := hf
    exact ⟨hholds, hmode.trans (hencoder c hc rec hrec)⟩
  · intro c hc rec hrec
    obtain ⟨enc, hwrap, -⟩ := Strategy.wrapEncoder_mode (hfits c hc).within hrec cs
    rw [hwrap]
    trivial
  · intro tune old file hold htemp hlong hown hfile
    exact merged_read hcodec (compressFlags_built hcs) hcopied old (.inr ⟨htemp, hlong⟩) hown
      (by rw [hfile, hcontent, hold])

end Cli

namespace Sample

/-- A header value of 1500 bytes. -/
def longValue : HeaderValue := ⟨List.replicate 1500 120, fun b hb => by
  rw [List.eq_of_mem_replicate hb]
  decide⟩

/-- Contents with that value. -/
def longContents : Contents := ⟨.empty, .empty, [], .ofList [(name, longValue)], [7, 8, 9]⟩

theorem longContents_fits : ∀ mode, longContents.Fits sampleCrates mode := by
  intro mode
  refine ⟨?_, ?_, ?_⟩
  · constructor <;> cases mode <;> decide +kernel
  · cases mode <;> decide +kernel
  · rintro payload (⟨hmode, hpayload⟩ | ⟨hmode, level, chunks, hflat, hpayload⟩)
    · rw [hpayload, hmode]
      decide +kernel
    · rw [hpayload, sampleCrates_encoded, hflat]
      cases mode
      · exact absurd rfl hmode
      · decide +kernel
      · decide +kernel

theorem longValue_trimmed : longValue.Trimmed := by
  have hblank {b : UInt8} (hb : b ∈ longValue.bytes) : isBlank b = false := by
    rw [List.eq_of_mem_replicate hb]
    rfl
  exact ⟨fun b hb => hblank (List.mem_of_head? hb), fun b hb => hblank (List.mem_of_getLast? hb)⟩

theorem longContents_parsable : Parsable longContents.metaHeaders ∧
    Parsable longContents.reqHeaders ∧ Parsable longContents.resHeaders := by
  have hempty : Parsable .empty := ⟨by decide, by simp [Multimap.empty, Multimap.iter]⟩
  refine ⟨hempty, hempty, by decide, fun e he => ?_⟩
  have hiter : longContents.resHeaders.iter = [(name, longValue)] := rfl
  rw [hiter, List.mem_singleton] at he
  rw [he]
  exact longValue_trimmed

end Sample

namespace Cli

/-- A plain archive of a small record and a long one. -/
def mixedArchive : ArchiveFile sampleCrates (Tunables.new Tunables.calmDir) where
  file := File.quiet (archive [plainFrame Sample.contents, plainFrame Sample.longContents])
  frames := [plainFrame Sample.contents, plainFrame Sample.longContents]
  contents := [Sample.contents, Sample.longContents]
  own := File.quiet_own _
  content_eq := rfl
  reads := .cons
    (plainFrame_reads sampleCrates_headersLawful (sampleContents_fits .plain) sampleContents_parsable)
    (.cons (plainFrame_reads sampleCrates_headersLawful (Sample.longContents_fits .plain)
      Sample.longContents_parsable) .nil)

/-- It is copied with `--brotli`: the small record stays plain, and the long one is compressed. -/
theorem mixedArchive_compressed :
    ∃ f g out', runCpFlags sampleCrates (fun len => len / 2) Sample.mime Tunables.calmDir
        (fun _ => .ok mixedArchive.file) true false ⟨[[97]], none, none, none⟩ [99] OutFile.empty =
          (.ok (), out') ∧
      out'.content = archive [f, g] ∧
      (f.Holds sampleCrates Sample.contents ∧ f.head.compress = .plain) ∧
      g.Holds sampleCrates Sample.longContents ∧ g.head.compress = .brotli := by
  have hplain : Strategy.modeOf (fun len => len / 2) Sample.mime (.brotli .brotli) Sample.contents =
      .plain := by decide +kernel
  have hlong : Strategy.modeOf (fun len => len / 2) Sample.mime (.brotli .brotli)
      Sample.longContents = .brotli := by decide +kernel
  have hcontents : [(([97] : Bytes), mixedArchive)].flatMap
      (fun i => selected .default usizeMax 0 i.2.contents) =
        [Sample.contents, Sample.longContents] := rfl
  obtain ⟨fs, out', hcp, hout, hcopied, -⟩ :=
    @cp_compresses sampleCrates (fun len => len / 2) Sample.mime Tunables.calmDir
      (fun _ => .ok mixedArchive.file) sampleCrates_codecLawful true false (.brotli .brotli) rfl
      .default usizeMax 0 [99] [([97], mixedArchive)] [] ⟨[[97]], none, none, none⟩ rfl rfl
      (fun i hi => by
        rw [List.mem_singleton.mp hi]
        exact ⟨by decide, rfl, rfl⟩)
      (fun c hc => by
        rw [hcontents] at hc
        rcases List.mem_cons.mp hc with rfl | hc
        · exact sampleContents_fits _
        · rw [List.mem_singleton.mp hc]
          exact Sample.longContents_fits _)
      (.ok ()) .done OutFile.empty OutFile.empty_calm
  rw [hcontents] at hcopied
  cases hcopied with
  | @cons f _ _ _ hf hrest =>
    cases hrest with
    | @cons g _ _ _ hg hnil =>
      cases hnil
      exact ⟨f, g, out', hcp, hout, ⟨hf.1, hf.2.trans hplain⟩, hg.1, hg.2.trans hlong⟩

end Cli

end BodyArchive
