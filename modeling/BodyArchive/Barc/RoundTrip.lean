import BodyArchive.Barc.Journal
import BodyArchive.Barc.Sample

/-!
# The round trip

Records written to an empty file come back: in sequence from the start, each from the offset its
`write` returned, and in any order after seeking there. A compressed record whose response body is
longer than `max_body` is written, but not read (`long_body_rejected`).
-/

namespace BodyArchive

/-- The headers a block is read back with: few enough, and with trimmed values. -/
structure Parsable (headers : HeaderMap) : Prop where
  len_le : headers.len ≤ maxHeaders
  trimmed : ∀ e ∈ headers.iter, e.2.Trimmed

/-- A job whose record can be written, and read with these tunables. -/
structure Job.Valid (cr : Crates) (tune : Tunables) (j : Job) : Prop where
  fits : j.contents.Fits cr j.enc.mode
  meta_parsable : Parsable j.contents.metaHeaders
  req_parsable : Parsable j.contents.reqHeaders
  res_parsable : Parsable j.contents.resHeaders
  built : cr.built j.enc.mode = true
  res_le : j.enc.mode ≠ .plain → j.contents.resBody.length ≤ tune.maxBody

variable {cr : Crates} {tune : Tunables}

theorem Parsable.parsesBack {headers : HeaderMap} (h : Parsable headers)
    (hcr : cr.HeadersLawful) : ParsesBack cr headers :=
  parsesBack_of_trimmed cr hcr h.len_le h.trimmed

theorem Job.Valid.readable {j : Job} (h : j.Valid cr tune) (hcr : cr.HeadersLawful)
    (htemp : tune.TempOk) : Readable cr tune j.enc.mode j.contents where
  meta_back := h.meta_parsable.parsesBack hcr
  req_back := h.req_parsable.parsesBack hcr
  res_back := h.res_parsable.parsesBack hcr
  built _ := h.built
  req_temp _ _ := htemp
  res_takes hm := Tunables.takes_of_tempOk htemp (h.res_le hm)

/-- Jobs within the limits are written. -/
theorem writeAllRecords_ok (jobs : List Job) (hfits : ∀ j ∈ jobs, j.contents.Fits cr j.enc.mode)
    {f : OutFile} (hf : f.Calm) :
    ∃ offsets f', writeAllRecords cr (jobs.map fun j => (j.record, j.enc)) f = (.ok offsets, f') := by
  induction jobs generalizing f with
  | nil => exact ⟨[], f, rfl⟩
  | cons j jobs ih =>
    rcases write_calm cr hf j.holds j.enc with ⟨head, payload, f₁, hw, -, -, hcalm, -⟩ | ⟨hover, -⟩
    · obtain ⟨offsets, f', hrest⟩ := ih (fun j' hj' => hfits j' (by simp [hj'])) hcalm
      refine ⟨f.content.length :: offsets, f', ?_⟩
      rw [List.map_cons, writeAllRecords, Prog.bind_of_ok hw, Prog.bind_of_ok hrest]
      rfl
    · exact absurd (hfits j (by simp)) hover

/-- Readable jobs give frames that can be read. -/
theorem reads_of_readable {fs : List Frame} {jobs : List Job}
    (hall : List.Forall₂ (fun (fr : Frame) (j : Job) => fr.Holds cr j.contents ∧
      fr.head.compress = j.enc.mode) fs jobs)
    (hjobs : ∀ j ∈ jobs, Readable cr tune j.enc.mode j.contents) :
    List.Forall₂ (Frame.Reads cr tune) fs (jobs.map Job.contents) := by
  rw [List.forall₂_map_right_iff]
  induction hall with
  | nil => exact .nil
  | @cons fr j fs jobs h _ ih =>
    refine .cons ⟨h.1, ?_⟩ (ih fun j hj => hjobs j (by simp [hj]))
    rw [h.2]
    exact hjobs j (by simp)

/-- Reads after seeking, one for each index, each to the offset with that index. -/
inductive Visits (cr : Crates) (tune : Tunables) (offsets : List Nat) :
    ReadPos → List Nat → List Record → Prop
  | done (rp : ReadPos) : Visits cr tune offsets rp [] []
  | next {rp rp₁ rp₂ : ReadPos} {i o : Nat} {r : Record} {is : List Nat} {rs : List Record}
      (ho : offsets[i]? = some o) (hseek : seek o rp = (.ok (), rp₁))
      (hread : read cr tune rp₁ = (.ok (some r), rp₂)) (rest : Visits cr tune offsets rp₂ is rs) :
      Visits cr tune offsets rp (i :: is) (r :: rs)

/-- **An archive is read in any order**, seeking to the starts of its frames. -/
theorem visits_archive (hcodec : cr.CodecLawful) {fs : List Frame} {cs : List Contents}
    (hfs : List.Forall₂ (Frame.Reads cr tune) fs cs) (order : List Nat)
    (horder : ∀ i ∈ order, i < cs.length) {rp : ReadPos} (h : ReadPos.Steady (archive fs) rp) :
    ∃ rs, Visits cr tune (starts 0 fs) rp order rs ∧
      List.Forall₂ (fun i r => ∃ c, cs[i]? = some c ∧ r.Holds c) order rs := by
  induction order generalizing rp with
  | nil => exact ⟨[], .done rp, .nil⟩
  | cons i order ih =>
    have hi : i < fs.length := by rw [hfs.length_eq]; exact horder i (by simp)
    have ho := starts_get 0 fs i hi
    rw [Nat.zero_add] at ho
    have hsteady : ReadPos.Steady (archive fs)
        { rp with pos := (archive (fs.take i)).length } := h
    have hrest := hsteady.rest
    simp only at hrest
    rw [archive_drop fs i hi] at hrest
    have hi' : i < cs.length := by rw [← hfs.length_eq]; exact hi
    obtain ⟨r, rp₂, hread, hholds, -⟩ := read_frame hcodec (hfs.get hi hi') hrest
    have hkept := preserves_read cr tune (ReadPos.steady_stable (archive fs)) _ hsteady
    rw [hread] at hkept
    obtain ⟨rs, hvisits, hall⟩ := ih (fun j hj => horder j (by simp [hj])) hkept
    refine ⟨r :: rs, .next ho (Prog.mapErr_of_ok (ReadPos.seek_start _ _)) hread hvisits,
      .cons ⟨cs[i], List.getElem?_eq_getElem hi', hholds⟩ hall⟩

/-- Valid jobs, written to an empty file, make an archive that can be read. -/
theorem archive_of_valid (hcr : cr.HeadersLawful) (htemp : tune.TempOk) (jobs : List Job)
    (hjobs : ∀ j ∈ jobs, j.Valid cr tune) {f : OutFile} (hf : f.Calm) (hempty : f.content = []) :
    ∃ fs f', writeAllRecords cr (jobs.map fun j => (j.record, j.enc)) f = (.ok (starts 0 fs), f') ∧
      f'.content = archive fs ∧ List.Forall₂ (Frame.Reads cr tune) fs (jobs.map Job.contents) := by
  obtain ⟨offsets, f', hw⟩ := writeAllRecords_ok jobs (fun j hj => (hjobs j hj).fits) hf
  obtain ⟨fs, rfl, hcontent, hall⟩ := writeAllRecords_frames jobs hf hempty hw
  exact ⟨fs, f', hw, hcontent,
    reads_of_readable hall fun j hj => (hjobs j hj).readable hcr htemp⟩

/-- **The round trip.** Valid jobs, written to an empty file, are all written. A reader at the
start gets the records back in order, each from the offset that its write returned, and then the
end; and so it does after seeking to the offsets in any order. -/
theorem round_trip (hcr : cr.HeadersLawful) (hcodec : cr.CodecLawful) (htemp : tune.TempOk)
    (jobs : List Job) (hjobs : ∀ j ∈ jobs, j.Valid cr tune) {f : OutFile} (hf : f.Calm)
    (hempty : f.content = []) :
    ∃ offsets f', writeAllRecords cr (jobs.map fun j => (j.record, j.enc)) f = (.ok offsets, f') ∧
      offsets.length = jobs.length ∧
      ∀ file : File, file.Own → file.content = f'.content →
        (∃ rs rp rp', Reads cr tune ⟨file, 0⟩ (offsets.zip rs) rp ∧
          List.Forall₂ (fun r (j : Job) => r.Holds j.contents) rs jobs ∧
          read cr tune rp = (.ok none, rp')) ∧
        ∀ order, (∀ i ∈ order, i < jobs.length) → ∀ pos,
          ∃ rs, Visits cr tune offsets ⟨file, pos⟩ order rs ∧
            List.Forall₂ (fun i r => ∃ j, jobs[i]? = some j ∧ r.Holds j.contents) order rs := by
  obtain ⟨fs, f', hw, hcontent, hreads⟩ := archive_of_valid hcr htemp jobs hjobs hf hempty
  have hlength : fs.length = jobs.length := by
    rw [hreads.length_eq, List.length_map]
  refine ⟨starts 0 fs, f', hw, by rw [starts_length, hlength], fun file hown hfile => ?_⟩
  rw [hcontent] at hfile
  constructor
  · have hrest : Rest (⟨file, 0⟩ : ReadPos) 0 (archive fs ++ []) .eof := by
      have hr := ReadPos.rest_own hown 0
      rwa [hfile, List.drop_zero, ← List.append_nil (archive fs)] at hr
    obtain ⟨rs, rp, hseq, hall, hend⟩ := reads_archive hcodec hreads hrest
    obtain ⟨rp', hnone, -⟩ := read_end hend
    exact ⟨rs, rp, rp', hseq, List.forall₂_map_right_iff.mp hall, hnone⟩
  · intro order horder pos
    have hsteady : ReadPos.Steady (archive fs) ⟨file, pos⟩ := by
      rw [← hfile]
      exact ReadPos.steady_own hown pos
    obtain ⟨rs, hvisits, hall⟩ :=
      visits_archive hcodec hreads order (by simpa using horder) hsteady
    refine ⟨rs, hvisits, hall.imp fun i r ⟨c, hc, hholds⟩ => ?_⟩
    rw [List.getElem?_map, Option.map_eq_some_iff] at hc
    obtain ⟨j, hj, rfl⟩ := hc
    exact ⟨j, hj, hholds⟩

/-- The sample record, written plain and compressed. -/
def sampleJobs : List Job :=
  [⟨Sample.record, Sample.contents, .plain, Sample.record_holds⟩,
    ⟨Sample.record, Sample.contents, .gzip 6, Sample.record_holds⟩]

theorem sampleContents_fits : ∀ mode, Sample.contents.Fits sampleCrates mode := by
  intro mode
  refine ⟨?_, ?_, ?_⟩
  · constructor <;> cases mode <;> decide +kernel
  · cases mode <;> decide +kernel
  · rintro payload (⟨rfl, rfl⟩ | ⟨hmode, level, chunks, hflat, rfl⟩)
    · decide +kernel
    · rw [sampleCrates_encoded, hflat]
      cases mode
      · exact absurd rfl hmode
      · decide +kernel
      · decide +kernel

theorem sampleContents_parsable : Parsable Sample.contents.metaHeaders ∧
    Parsable Sample.contents.reqHeaders ∧ Parsable Sample.contents.resHeaders := by
  have hempty : Parsable .empty := ⟨by decide, by simp [Multimap.empty, Multimap.iter]⟩
  refine ⟨hempty, hempty, by decide, fun e he => ?_⟩
  have hiter : Sample.contents.resHeaders.iter = [(Sample.name, Sample.value)] := rfl
  rw [hiter, List.mem_singleton] at he
  rw [he]
  constructor <;> rintro b ⟨⟩ <;> rfl

theorem sampleJobs_valid :
    ∀ j ∈ sampleJobs, j.Valid sampleCrates (Sample.tunables 2 3 (by decide)) := by
  obtain ⟨hm, hq, hs⟩ := sampleContents_parsable
  intro j hj
  rcases List.mem_cons.mp hj with rfl | hj
  · exact ⟨sampleContents_fits _, hm, hq, hs, rfl, fun h => absurd rfl h⟩
  · rw [List.mem_singleton.mp hj]
    exact ⟨sampleContents_fits _, hm, hq, hs, rfl, fun _ => by decide⟩

/-- The round trip of the sample: two records, the second at offset 67. -/
theorem sampleJobs_round_trip :
    ∃ offsets f', writeAllRecords sampleCrates (sampleJobs.map fun j => (j.record, j.enc))
        OutFile.empty = (.ok offsets, f') ∧ offsets.length = 2 ∧
      ∃ rs rp rp', Reads sampleCrates (Sample.tunables 2 3 (by decide))
          ⟨File.quiet f'.content, 0⟩ (offsets.zip rs) rp ∧
        List.Forall₂ (fun r (j : Job) => r.Holds j.contents) rs sampleJobs ∧
        read sampleCrates (Sample.tunables 2 3 (by decide)) rp = (.ok none, rp') := by
  obtain ⟨offsets, f', hw, hlen, h⟩ :=
    round_trip sampleCrates_headersLawful sampleCrates_codecLawful (Sample.tunables_tempOk _)
      sampleJobs sampleJobs_valid OutFile.empty_calm rfl
  exact ⟨offsets, f', hw, hlen, (h (File.quiet f'.content) (File.quiet_own _) rfl).1⟩

/-- **A compressed record can be too long to read.** The sample record, compressed, is within
all the limits of writing and is written; but its response body is longer than a `max_body` of
two, and reading it is an error. -/
theorem long_body_rejected :
    Sample.record.Holds Sample.contents ∧ Sample.contents.Fits sampleCrates .gzip ∧
    (write sampleCrates Sample.record (.gzip 6) OutFile.empty).1 = .ok 0 ∧
    (read sampleCrates (Sample.tunables 2 2 (by decide))
      ⟨File.quiet (write sampleCrates Sample.record (.gzip 6) OutFile.empty).2.content, 0⟩).1 =
        .err (.body (.bodyTooLong 3)) :=
  ⟨Sample.record_holds, sampleContents_fits .gzip, by decide +kernel, by decide +kernel⟩

end BodyArchive
