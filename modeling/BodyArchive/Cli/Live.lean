import BodyArchive.Barc.Snapshot
import BodyArchive.Cli.Print

/-!
# A file that is being written

`barc cat` and `barc cp` can be run on a file while records are appended to it. What they get to see is a
snapshot (`commands_snapshot`): the records that are done at one moment.
-/

namespace BodyArchive.Cli

section Commands

variable {cr : Crates} {tempDir : TempDir} {disk : Disk} {path : Bytes}

/-- **A command gets a snapshot.** Run on a file while records are appended to it, from the start or from
a record that is done, `cat` prints and `cp` copies what they would of the records that are done at one
later moment. A record that is partly written at that moment is not there for them. -/
theorem commands_snapshot (hcodec : cr.CodecLawful) (a : LiveFile cr (Tunables.new tempDir)) {m : Nat}
    (hdisk : disk path = .ok (a.after m)) {start : StartPos} {k : Nat}
    (hstart : start.Names a.frames k) (hdone : a.Done m (k - start.toSkip)) (count : Nat) :
    ∃ m' n, m ≤ m' ∧ a.Snapshot m' n ∧
      (∀ (parts : Parts) (W : Type) [Write W] (G : W → Bytes → Prop) (_ : Accepts G) (w : W)
        (got : Bytes), G w got →
        Prog.OkElsePanic (∀ e ∈ entries start count k (a.frames.take n) (a.contents.take n),
            Printable parts e.2)
          (fun _ w' => G w' (got ++ (entries start count k (a.frames.take n)
            (a.contents.take n)).flatMap (entryText path parts)))
          (cat cr tempDir disk path start count parts w)) ∧
      ∀ (outFile : Bytes) (strategy : Record → Encoder) (out : OutFile), path ≠ outFile → out.Calm →
        (∀ rec c, c ∈ selected start count k (a.contents.take n) → rec.Holds c →
          c.Fits cr (strategy rec).mode) →
        ∃ fs out', cp cr tempDir disk path outFile start count strategy out = (.ok (), out') ∧
          out'.content = out.content ++ archive fs ∧
          List.Forall₂ (Copied cr strategy) fs (selected start count k (a.contents.take n)) := by
  have hlen : a.frames.length = a.entries.length := List.length_map _
  obtain ⟨got, hgot, hle, hpos, hfirst⟩ : ∃ got, k = got + start.toSkip ∧ got ≤ a.entries.length ∧
      start.position = (archive (a.frames.take got)).length ∧ a.Done m got := by
    cases start with
    | index s => exact ⟨0, (Nat.zero_add s).symm ▸ hstart, Nat.zero_le _, rfl, List.nil_prefix⟩
    | offset o => exact ⟨k, rfl, hlen ▸ hstart.1, hstart.2, hdone⟩
  obtain ⟨m', n, rs, rp, rp', hm, hsnapshot, hn, hreads, hall, hend⟩ :=
    a.snapshot_reads hcodec hle hfirst
  have hholds : List.Forall₂ (Frame.Holds cr) (a.frames.take n) (a.contents.take n) := by
    refine List.forall₂_take n (List.forall₂_map_left_iff.mpr ?_)
    exact a.reads.imp fun e c h => h.1
  have htake : (a.frames.take n).take got = a.frames.take got := by
    rw [List.take_take, Nat.min_eq_left hn]
  rw [← hpos] at hreads
  obtain ⟨recs, hentries, hcat, hcp⟩ := commands_reads hdisk hholds (htake.symm ▸ hpos) hreads hall
    hend count
  rw [← hgot] at hentries
  refine ⟨m', n, hm, hsnapshot, ?_, ?_⟩
  · intro parts W _ G hG w got hw
    rw [hcat]
    exact emitAll_prints hG path parts hentries hw
  · intro outFile strategy out hne hout hfits
    have hrecs : List.Forall₂ Record.Holds (recs.map Prod.snd)
        (selected start count k (a.contents.take n)) := by
      rw [← entries_snd start count k hholds.length_eq, List.forall₂_map_left_iff,
        List.forall₂_map_right_iff]
      exact hentries.imp fun r e h => h.2
    obtain ⟨out', hrun⟩ := emitAll_fits hrecs hfits hout
    obtain ⟨fs, -, hcontent, hcopied⟩ := emitAll_copied hrecs hout hrun
    exact ⟨fs, out', (hcp outFile strategy out hne).trans hrun, hcontent, hcopied⟩

end Commands

/-- The sample archive, while it is written: the first record and a part of the second, and then the
rest. -/
def liveSample : LiveFile sampleCrates (Tunables.new Tunables.calmDir) where
  env := [⟨(journal 0 (plainArchive.frames.map whole)).take 4, .full⟩,
    ⟨(journal 0 (plainArchive.frames.map whole)).drop 4, .full⟩]
  entries := plainArchive.frames.map whole
  contents := plainArchive.contents
  reads := by
    rw [List.forall₂_map_left_iff]
    apply plainArchive.reads.imp
    intro f c h
    rwa [whole_frame]
  fair := by simp [Delivery.Fair]
  written := by simp
  whole := headsWhole_of_full (by simp)

/-- One record or both are printed, or none. -/
theorem liveSample_printed : ∃ m n, liveSample.Snapshot m n ∧
    cat sampleCrates Tunables.calmDir (fun _ => .ok (liveSample.after 0)) [97] .default usizeMax .default
      ([] : Bytes) = (.ok (), (entries .default usizeMax 0 (liveSample.frames.take n)
        (liveSample.contents.take n)).flatMap (entryText [97] .default)) := by
  obtain ⟨m, n, -, hsnapshot, hcat, -⟩ := @commands_snapshot sampleCrates Tunables.calmDir
    (fun _ => .ok (liveSample.after 0)) [97] sampleCrates_codecLawful liveSample 0 rfl .default 0 rfl
    List.nil_prefix usizeMax
  refine ⟨m, n, hsnapshot, ?_⟩
  rcases hcat .default Bytes _ (accepts_vec []) [] [] rfl with ⟨-, u, w', h, hw'⟩ | ⟨hnot, -⟩
  · rw [h, hw']
    rfl
  · refine absurd ?_ hnot
    intro e he
    have hprintable : Printable .default Sample.contents :=
      ⟨fun _ => by decide +kernel, fun _ => by decide +kernel, fun _ => by decide +kernel⟩
    have hsame : e.2 = Sample.contents := by
      have hmem : e.2 ∈ liveSample.contents :=
        List.mem_of_mem_take (List.mem_of_mem_drop (List.mem_of_mem_take (List.of_mem_zip he).2))
      exact List.eq_of_mem_replicate hmem
    rwa [hsame]

end BodyArchive.Cli
