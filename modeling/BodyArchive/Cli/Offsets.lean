import BodyArchive.Cli.Select

/-!
# The offsets that `cat` prints

The line before a record shows an offset, which is a variable of the loop: it is set before the first
round and at the end of a round that has printed. A round that skips a record leaves it as it is. So
the offset of the first record that is printed is the one where reading started, and
`prints_offsets_iff` says when that is right, for any file.
-/

namespace BodyArchive.Cli

/-- Where reading starts. -/
def StartPos.position : StartPos → Nat
  | .offset o => o
  | .index _ => 0

/-- Of the records `rs` that can be read in sequence, each with the offset it is read at, `cat` prints
some from the index on, each with its offset; and then it ends in some way. -/
def PrintsOffsets (cr : Crates) (tempDir : TempDir) (disk : Disk) (barcPath : Bytes)
    (start : StartPos) (count : Nat) (rs : List (Nat × Record)) : Prop :=
  ∃ (m : Nat) (ending : Res Flaw Unit), ∀ (W : Type) [Write W] (parts : Parts) (out : W),
    cat cr tempDir disk barcPath start count parts out =
      (emitAll (printRecord barcPath parts) ((rs.drop start.toSkip).take m) >>=
        fun _ => Prog.ofRes ending) out

/-! ## The loop's variable -/

/-- With no records to skip, the variable is the offset of the record that is read next. -/
theorem emitted_at {start : StartPos} {count i : Nat} (hskip : start.toSkip ≤ i)
    (rs : List (Nat × Record)) (last : Nat) :
    emitted start count i ((rs.head?.map Prod.fst).getD last) (behind rs last) =
      rs.take (count - i) := by
  induction rs generalizing i with
  | nil => rw [behind, emitted, List.take_nil]
  | cons r rs ih =>
    obtain ⟨off, rec⟩ := r
    rw [behind, emitted, if_neg (Nat.not_lt.mpr hskip)]
    by_cases hcount : count < i + 1
    · have hnone : count - i = 0 := by omega
      rw [if_pos hcount, hnone, List.take_zero]
    · obtain ⟨k, hk⟩ : ∃ k, count - i = k + 1 := ⟨count - i - 1, by omega⟩
      have hrest : count - (i + 1) = k := by omega
      rw [if_neg hcount, ih (Nat.le_succ_of_le hskip), hk, hrest, List.take_succ_cons]
      rfl

/-- The first record that is printed comes with what the variable was at first, however many have been
skipped. -/
theorem emitted_head (start : StartPos) (count i off : Nat) (recs : List (Record × Nat)) :
    emitted start count i off recs = [] ∨
      ∃ rec rest, emitted start count i off recs = (off, rec) :: rest := by
  induction recs generalizing i with
  | nil => exact .inl rfl
  | cons r recs ih =>
    obtain ⟨rec, next⟩ := r
    rw [emitted]
    by_cases hskip : i < start.toSkip
    · rw [if_pos hskip]
      exact ih (i + 1)
    · rw [if_neg hskip]
      by_cases hcount : count < i + 1
      · exact .inl (if_pos hcount)
      · exact .inr ⟨rec, _, if_neg hcount⟩

/-! ## Reading in sequence -/

section Reading

variable {cr : Crates} {tune : Tunables}

/-- Each record of a sequence of reads is what a seek to its offset and a read return, when the file
is as it was then. -/
theorem reads_at {file : File} {o : Nat} {rp : ReadPos} {rs : List (Nat × Record)}
    (h : Reads cr tune ⟨file, o⟩ rs rp) {x : Nat × Record} (hx : x ∈ rs) :
    ∃ k rp', (seek x.1 >>= fun _ => read cr tune) ⟨file.skip k, 0⟩ = (.ok (some x.2), rp') := by
  have hlater : ∀ {rp₀ rp : ReadPos} {rs : List (Nat × Record)}, Reads cr tune rp₀ rs rp →
      (∃ k, rp₀.file = file.skip k) → x ∈ rs →
        ∃ k rp', (seek x.1 >>= fun _ => read cr tune) ⟨file.skip k, 0⟩ = (.ok (some x.2), rp') := by
    intro rp₀ rp rs h hfile hx
    induction h with
    | done => cases hx
    | @next rp₀ rp₁ rp₂ r rs hread _ ih =>
      rcases List.mem_cons.mp hx with rfl | hx
      · obtain ⟨k, hk⟩ := hfile
        refine ⟨k, rp₁, ?_⟩
        have hseek : seek (offset rp₀) (⟨file.skip k, 0⟩ : ReadPos) = (.ok (), rp₀) := by
          rw [← hk]
          rfl
        rw [Prog.bind_of_ok hseek]
        exact hread
      · have hkept := preserves_read cr tune (File.stable_later file) rp₀ hfile
        rw [hread] at hkept
        exact ih hkept hx
  exact hlater h ⟨0, rfl⟩ hx

/-- No record lies at the offset of one before it. -/
theorem reads_increasing {rp rp' : ReadPos} {rs : List (Nat × Record)} (hstill : rp.file.Still)
    (h : Reads cr tune rp rs rp') : rs.Pairwise fun x y => x.1 < y.1 := by
  have hle : ∀ {rp rp' : ReadPos} {rs : List (Nat × Record)}, rp.file.Still →
      Reads cr tune rp rs rp' → ∀ x ∈ rs, rp.pos ≤ x.1 := by
    intro rp rp' rs hstill h
    induction h with
    | done => exact fun x hx => absurd hx List.not_mem_nil
    | @next rp rp₁ rp₂ r rs hread _ ih =>
      intro x hx
      rcases List.mem_cons.mp hx with rfl | hx
      · exact Nat.le_refl _
      · obtain ⟨head, -, -, hoff⟩ := read_offset hstill hread
        have hnext := ih (read_still hstill hread).1 x hx
        have hpos : rp₁.pos = rp.pos + v2HeadSize + head.len := hoff
        omega
  induction h with
  | done => exact .nil
  | @next rp rp₁ rp₂ r rs hread hrest ih =>
    have hstill₁ := (read_still hstill hread).1
    refine .cons ?_ (ih hstill₁)
    intro x hx
    obtain ⟨head, -, -, hoff⟩ := read_offset hstill hread
    have hnext := hle hstill₁ hrest x hx
    have hpos : rp₁.pos = rp.pos + v2HeadSize + head.len := hoff
    have h54 : 0 < v2HeadSize := by decide
    show offset rp < x.1
    rw [offset]
    omega

end Reading

/-! ## What is printed -/

theorem recordLine_injective {barcPath : Bytes} {m n : Nat}
    (h : recordLine barcPath m ++ [10] = recordLine barcPath n ++ [10]) : m = n := by
  rw [recordLine, recordLine] at h
  exact hexPad_injective
    (List.append_cancel_left (List.append_cancel_right (List.append_cancel_right h)))

section Prints

variable {cr : Crates} {tempDir : TempDir} {disk : Disk} {barcPath : Bytes}

/-- A run of `cat` on any file: what it prints, and that it ends then. -/
theorem cat_run {file : File} (hdisk : disk barcPath = .ok file) (start : StartPos) (count : Nat)
    {rp rp' : ReadPos} {rs : List (Nat × Record)}
    (hreads : Reads cr (Tunables.new tempDir) ⟨file, start.position⟩ rs rp)
    {x : Res BarcError (Option Record)} (hlast : read cr (Tunables.new tempDir) rp = (x, rp'))
    (hx : ∀ r, x ≠ .ok (some r)) :
    ∃ ending : Res Flaw Unit, ∀ (W : Type) [Write W] (parts : Parts) (out : W),
      cat cr tempDir disk barcPath start count parts out =
        (emitAll (printRecord barcPath parts)
          (emitted start count 0 start.position (behind rs (offset rp))) >>=
            fun _ => Prog.ofRes ending) out := by
  obtain ⟨ending, -, hloop⟩ := select_reads hreads hlast hx start count 0 start.position
  refine ⟨ending, ?_⟩
  intro W _ parts out
  rw [← hloop W (printRecord barcPath parts) out]
  show (Prog.ofRes (openReader disk barcPath) >>= _) out = _
  rw [openReader, hdisk]
  cases start with
  | index s => rfl
  | offset o => rfl

/-- When `cat` prints the offsets that these records were read at. -/
theorem printsOffsets_of_reads {file : File} (hstill : file.Still) (hdisk : disk barcPath = .ok file)
    {start : StartPos} (count : Nat) {rp : ReadPos} {rs : List (Nat × Record)}
    (hreads : Reads cr (Tunables.new tempDir) ⟨file, start.position⟩ rs rp)
    (hstop : ∀ r rp', read cr (Tunables.new tempDir) rp ≠ (.ok (some r), rp')) :
    PrintsOffsets cr tempDir disk barcPath start count rs ↔
      start.toSkip = 0 ∨ rs.length ≤ start.toSkip ∨ count ≤ start.toSkip := by
  rcases hlast : read cr (Tunables.new tempDir) rp with ⟨x, rp'⟩
  have hx : ∀ r, x ≠ .ok (some r) := by
    intro r hr
    rw [hr] at hlast
    exact hstop r rp' hlast
  obtain ⟨ending, hcat⟩ := cat_run hdisk start count hreads hlast hx
  have hfirst : (rs.head?.map Prod.fst).getD (offset rp) = start.position := hreads.head_offset
  constructor
  · rintro ⟨m, ending', hprints⟩
    by_contra hnot
    push Not at hnot
    obtain ⟨hskip, hmore, hcount⟩ := hnot
    -- The same lines are printed, so the first offsets are the same.
    obtain ⟨out₁, hrun₁, hlog₁⟩ := @emitAll_lines barcPath
      (emitted start count 0 start.position (behind rs (offset rp))) _ OutFile.empty_calm
    obtain ⟨out₂, hrun₂, hlog₂⟩ := @emitAll_lines barcPath ((rs.drop start.toSkip).take m) _
      OutFile.empty_calm
    have hsame := (hcat OutFile .falsie OutFile.empty).symm.trans
      (hprints OutFile .falsie OutFile.empty)
    rw [Prog.bind_of_ok hrun₁, Prog.bind_of_ok hrun₂] at hsame
    have hout : out₁ = out₂ := congrArg Prod.snd hsame
    rw [hout, hlog₂] at hlog₁
    have hlines := List.append_cancel_left hlog₁
    -- The first of them was printed with the offset of the start.
    have hlen := congrArg List.length (emitted_eq start count 0 start.position (behind rs (offset rp)))
    rw [behind_fst] at hlen
    simp only [List.length_map, List.length_take, List.length_drop] at hlen
    rcases emitted_head start count 0 start.position (behind rs (offset rp)) with
      hnone | ⟨rec, rest, hsome⟩
    · rw [hnone, List.length_nil] at hlen
      omega
    rw [hsome, List.map_cons] at hlines
    cases hd : rs.drop start.toSkip with
    | nil =>
      have hle := List.drop_eq_nil_iff.mp hd
      omega
    | cons y ys =>
      rw [hd] at hlines
      cases m with
      | zero => cases hlines
      | succ m =>
        rw [List.take_succ_cons, List.map_cons] at hlines
        have hoff : y.1 = start.position := recordLine_injective (List.cons.inj hlines).1
        -- But another record lies there.
        cases rs with
        | nil =>
          rw [List.drop_nil] at hd
          cases hd
        | cons z zs =>
          obtain ⟨s, hs⟩ : ∃ s, start.toSkip = s + 1 := ⟨start.toSkip - 1, by omega⟩
          rw [hs, List.drop_succ_cons] at hd
          have hy : y ∈ zs := List.mem_of_mem_drop (by rw [hd]; exact List.mem_cons_self)
          have hlt := List.rel_of_pairwise_cons (reads_increasing hstill hreads) hy
          have hz : z.1 = start.position := hfirst
          omega
  · intro hcond
    refine ⟨count - start.toSkip, ending, ?_⟩
    intro W _ parts out
    rw [hcat W parts out]
    rcases hcond with hskip | hnone
    · have hall := @emitted_at start count 0 (Nat.le_of_eq hskip) rs (offset rp)
      rw [hfirst] at hall
      rw [hall, hskip, List.drop_zero, Nat.sub_zero]
    · -- Nothing is printed at all.
      have hmap := emitted_eq start count 0 start.position (behind rs (offset rp))
      have hleft : emitted start count 0 start.position (behind rs (offset rp)) = [] := by
        apply List.eq_nil_of_length_eq_zero
        have hlen := congrArg List.length hmap
        rw [behind_fst] at hlen
        simp only [List.length_map, List.length_take, List.length_drop] at hlen
        omega
      have hright : (rs.drop start.toSkip).take (count - start.toSkip) = [] := by
        apply List.eq_nil_of_length_eq_zero
        rw [List.length_take, List.length_drop]
        omega
      rw [hleft, hright]

/-- **When the offsets are right.** For every file that nobody writes, every start and every count:
the records that can be read in sequence are what a seek to their offsets and a read return; and `cat`
prints records with these offsets exactly if no record is skipped, or there is none to be printed. -/
theorem prints_offsets_iff {file : File} (hstill : file.Still) (hdisk : disk barcPath = .ok file)
    (start : StartPos) (count : Nat) :
    ∃ rs rp, Reads cr (Tunables.new tempDir) ⟨file, start.position⟩ rs rp ∧
      (∀ r rp', read cr (Tunables.new tempDir) rp ≠ (.ok (some r), rp')) ∧
      (∀ x ∈ rs, ∃ k rp', (seek x.1 >>= fun _ => read cr (Tunables.new tempDir))
        ⟨file.skip k, 0⟩ = (.ok (some x.2), rp')) ∧
      (PrintsOffsets cr tempDir disk barcPath start count rs ↔
        start.toSkip = 0 ∨ rs.length ≤ start.toSkip ∨ count ≤ start.toSkip) := by
  obtain ⟨-, -, rs, rp, hreads, hstop⟩ :=
    @sequential_read_ends cr (Tunables.new tempDir) _ hstill start.position
  exact ⟨rs, rp, hreads, hstop, fun x hx => reads_at hreads hx,
    printsOffsets_of_reads hstill hdisk count hreads hstop⟩

end Prints

/-! ## Samples -/

/-- The sample record without its response. -/
def bareRecord : Record := { Sample.record with resHeaders := .empty, resBody := .empty }

/-- A file of two records. -/
def pairFile : File :=
  File.quiet (writeAllRecords sampleCrates [(Sample.record, .plain), (bareRecord, .plain)]
    OutFile.empty).2.content

/-- A disk that has this file at every path. -/
def pairDisk : Disk := fun _ => .ok pairFile

/-- What is read of the sample record. -/
def readRecord₀ : Record := { Sample.record with resBody := ⟨.ram [[7, 8, 9]], 3⟩ }

/-- Without an index, the two records are printed with their offsets. -/
theorem pairFile_offsets :
    ∃ rs rp, Reads sampleCrates (Tunables.new Tunables.calmDir) ⟨pairFile, 0⟩ rs rp ∧
      (∀ r rp', read sampleCrates (Tunables.new Tunables.calmDir) rp ≠ (.ok (some r), rp')) ∧
      (∀ x ∈ rs, ∃ k rp', (seek x.1 >>= fun _ => read sampleCrates (Tunables.new Tunables.calmDir))
        ⟨pairFile.skip k, 0⟩ = (.ok (some x.2), rp')) ∧
      (PrintsOffsets sampleCrates Tunables.calmDir pairDisk [97] .default usizeMax rs ↔
        StartPos.default.toSkip = 0 ∨ rs.length ≤ StartPos.default.toSkip ∨
          usizeMax ≤ StartPos.default.toSkip) :=
  @prints_offsets_iff sampleCrates Tunables.calmDir pairDisk [97] pairFile (File.quiet_own _).still rfl
    StartPos.default usizeMax

/-- **A skipped record leaves the offset behind.** `--index 1` prints the second record, which lies at
offset 67, with the offset of the first, which is another record. -/
theorem second_offset_wrong :
    Reads sampleCrates (Tunables.new Tunables.calmDir) ⟨pairFile, 0⟩
      [(0, readRecord₀), (67, bareRecord)] ⟨pairFile, 121⟩ ∧
    readRecord₀ ≠ bareRecord ∧
    (cat sampleCrates Tunables.calmDir pairDisk [97] (.index 1) usizeMax .falsie
      OutFile.empty).2.log.map FileOp.bytes = [recordLine [97] 0 ++ [10]] ∧
    ¬ PrintsOffsets sampleCrates Tunables.calmDir pairDisk [97] (.index 1) usizeMax
      [(0, readRecord₀), (67, bareRecord)] := by
  have hreads : Reads sampleCrates (Tunables.new Tunables.calmDir) ⟨pairFile, 0⟩
      [(0, readRecord₀), (67, bareRecord)] ⟨pairFile, 121⟩ :=
    .next (by decide +kernel) (@Reads.next _ _ ⟨pairFile, 67⟩ ⟨pairFile, 121⟩ _ _ _
      (by decide +kernel) (.done _))
  have hend : (read sampleCrates (Tunables.new Tunables.calmDir) ⟨pairFile, 121⟩).1 = .ok none := by
    decide +kernel
  refine ⟨hreads, by decide +kernel, by decide +kernel, ?_⟩
  rw [@printsOffsets_of_reads sampleCrates Tunables.calmDir pairDisk [97] pairFile
    (File.quiet_own _).still rfl (.index 1) usizeMax _ _ hreads]
  · decide
  · intro r rp' hread
    rw [hread] at hend
    cases hend

end BodyArchive.Cli
