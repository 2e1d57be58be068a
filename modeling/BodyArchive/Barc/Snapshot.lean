import BodyArchive.Barc.Concurrent

/-!
# Snapshots

A file that records are written to, with the writes of each, its place holder, its payload in pieces and
its head, coming between any two reads of a reader.

What a reader gets until nothing more is there is a snapshot all the same (`snapshot_reads`): the records
that are done at one moment, in full and in order, and nothing of the others.
-/

namespace BodyArchive

/-! ## Reading up to the last record -/

section Live

variable {cr : Crates} {tune : Tunables} {env : List Event} {es : List Entry} {cs : List Contents}

/-- A head is read at once, whenever it is. -/
def HeadsWhole (env : List Event) : Prop := ∀ n, HeadWhole (env.drop n)

theorem follows_heads (hwhole : HeadsWhole env) {got : Nat} {rp : ReadPos}
    (h : Follows env es got rp) : HeadWhole rp.file.env := by
  obtain ⟨n, hn⟩ := h.later
  rw [hn, File.skip_env]
  exact hwhole n

/-- The frames that are done, from the first `got` on. -/
theorem frames_from {got n : Nat} (hgot : got < n) (hn : n ≤ es.length) :
    ((es.map Entry.frame).take n).drop got =
      es[got].frame :: ((es.map Entry.frame).take n).drop (got + 1) := by
  have hlen : got < ((es.map Entry.frame).take n).length := by
    rw [List.length_take, List.length_map]
    omega
  rw [List.drop_eq_getElem_cons hlen, List.getElem_take, List.getElem_map]

/-- **Reading until nothing more is there**: the records from the first `got` to those that are done
when the last call ends. -/
theorem follows_reads (hcodec : cr.CodecLawful)
    (hes : List.Forall₂ (fun e c => Frame.Reads cr tune (Entry.frame e) c) es cs)
    (hfair : ∀ e ∈ env, e.delivery.Fair) (henv : env.flatMap Event.ops <+: journal 0 es)
    (hwhole : HeadsWhole env) {got : Nat} {rp : ReadPos} (h : Follows env es got rp) :
    ∃ n rs rp' rp'', got ≤ n ∧
      Reads cr tune rp
        ((starts rp.pos (((es.map Entry.frame).take n).drop got)).zip rs) rp' ∧
      List.Forall₂ Record.Holds rs ((cs.take n).drop got) ∧
      read cr tune rp' = (.ok none, rp'') ∧ Follows env es n rp'' ∧
      ∀ k ≤ es.length, journal 0 (es.take k) <+: doneBy env rp''.file.env → k ≤ n := by
  rcases hcall : read cr tune rp with ⟨x, rp'⟩
  rcases h.read hcodec hes hfair henv (follows_heads hwhole h) hcall with
    ⟨rfl, hfollows, -, hlast⟩ | ⟨r, c, rfl, hc, hholds, hnext⟩
  · refine ⟨got, [], rp, rp', Nat.le_refl _, ?_, ?_, hcall, hfollows, hlast⟩
    · rw [List.zip_nil_right]
      exact .done rp
    · rw [List.drop_of_length_le (List.length_take_le _ _)]
      exact .nil
  · have hlt : got < es.length := hnext.le
    obtain ⟨n, rs, rp₁, rp₂, hgot, hreads, hall, hend, hfollows, hlast⟩ :=
      follows_reads hcodec hes hfair henv hwhole hnext
    have hpos : rp'.pos = rp.pos + es[got].frame.bytes.length := by
      rw [hnext.pos_eq, h.pos_eq, List.take_succ_eq_append_getElem hlt, List.map_append,
        archive_append, List.length_append]
      simp [archive]
    refine ⟨n, r :: rs, rp₁, rp₂, by omega, ?_, ?_, hend, hfollows, hlast⟩
    · rw [frames_from hgot hfollows.le, starts, List.zip_cons_cons, ← hpos]
      exact .next hcall hreads
    · obtain ⟨hclt, rfl⟩ := List.getElem?_eq_some_iff.mp hc
      have hlen : got < (cs.take n).length := by
        rw [List.length_take]
        omega
      rw [List.drop_eq_getElem_cons hlen, List.getElem_take]
      exact .cons hholds hall
termination_by es.length - got

/-- Reads go on in the file, some events later. -/
theorem reads_later {rp rp' : ReadPos} {rs : List (Nat × Record)}
    (h : Reads cr tune rp rs rp') : ∃ j, rp'.file = rp.file.skip j := by
  induction h with
  | done rp => exact ⟨0, rfl⟩
  | @next rp rp₁ rp₂ r rs hread _ ih =>
    obtain ⟨j, hj⟩ := ih
    have hlater := preserves_read cr tune (File.stable_later rp.file) rp ⟨0, rfl⟩
    rw [hread] at hlater
    obtain ⟨i, hi⟩ := hlater
    exact ⟨i + j, by rw [hj, hi, File.skip_skip]⟩

end Live

/-! ## Snapshots -/

/-- A file that records are written to, with the events between reads. -/
structure LiveFile (cr : Crates) (tune : Tunables) where
  env : List Event
  entries : List Entry
  contents : List Contents
  reads : List.Forall₂ (fun e c => Frame.Reads cr tune (Entry.frame e) c) entries contents
  fair : ∀ e ∈ env, e.delivery.Fair
  written : env.flatMap Event.ops <+: journal 0 entries
  whole : HeadsWhole env

namespace LiveFile

variable {cr : Crates} {tune : Tunables} (a : LiveFile cr tune)

def frames : List Frame := a.entries.map Entry.frame

/-- The file after some events. -/
def after (m : Nat) : File := atEvent a.env m

/-- All writes of the first `k` records are done after `m` events. -/
def Done (m k : Nat) : Prop := journal 0 (a.entries.take k) <+: (a.env.take m).flatMap Event.ops

/-- The first `n` records are those that are done after `m` events. -/
structure Snapshot (m n : Nat) : Prop where
  le : n ≤ a.entries.length
  done_iff : ∀ k ≤ a.entries.length, a.Done m k ↔ k ≤ n

/-- A moment has one snapshot. -/
theorem Snapshot.unique {m n n' : Nat} (h : a.Snapshot m n) (h' : a.Snapshot m n') : n = n' :=
  Nat.le_antisymm ((h'.done_iff n h.le).mp ((h.done_iff n h.le).mpr (Nat.le_refl _)))
    ((h.done_iff n' h'.le).mp ((h'.done_iff n' h'.le).mpr (Nat.le_refl _)))

/-- **Reading a file that is written**, from a record that is done: what is read is a snapshot of a
later moment. -/
theorem snapshot_reads (hcodec : cr.CodecLawful) {m got : Nat} (hgot : got ≤ a.entries.length)
    (hdone : a.Done m got) :
    ∃ m' n rs rp rp', m ≤ m' ∧ a.Snapshot m' n ∧ got ≤ n ∧
      Reads cr tune ⟨a.after m, (archive (a.frames.take got)).length⟩
        ((starts (archive (a.frames.take got)).length ((a.frames.take n).drop got)).zip rs) rp ∧
      List.Forall₂ Record.Holds rs ((a.contents.take n).drop got) ∧
      read cr tune rp = (.ok none, rp') := by
  have hfollows : Follows a.env a.entries got
      ⟨a.after m, (archive (a.frames.take got)).length⟩ := by
    refine ⟨hgot, ⟨m, rfl⟩, ?_, ?_⟩
    · rw [frames, ← List.map_take]
    · show _ <+: doneBy a.env (atEvent a.env m).env
      rwa [doneBy_atEvent]
  obtain ⟨n, rs, rp, rp', hle, hreads, hall, hend, hlast, hmax⟩ :=
    follows_reads hcodec a.reads a.fair a.written a.whole hfollows
  obtain ⟨i, hi⟩ := reads_later hreads
  have hlater := preserves_read cr tune (File.stable_later rp.file) rp ⟨0, rfl⟩
  rw [hend] at hlater
  obtain ⟨j, hj⟩ := hlater
  have hfile : rp'.file = atEvent a.env (m + i + j) := by
    rw [hj, hi]
    show ((atEvent a.env m).skip i).skip j = _
    rw [atEvent, File.skip_skip, File.skip_skip, Nat.add_assoc]
  have hops : doneBy a.env rp'.file.env = (a.env.take (m + i + j)).flatMap Event.ops := by
    rw [hfile, doneBy_atEvent]
  refine ⟨m + i + j, n, rs, rp, rp', by omega, ⟨hlast.le, ?_⟩, hle, hreads, hall, hend⟩
  intro k hk
  rw [hops] at hmax
  constructor
  · exact hmax k hk
  · intro hkn
    have hn := hlast.done
    rw [hops] at hn
    exact (journal_take 0 a.entries hkn).trans hn

end LiveFile

/-- A frame, as an entry with one piece. -/
def whole (f : Frame) : Entry := ⟨f.head, [f.payload]⟩

theorem whole_frame (f : Frame) : (whole f).frame = f := by
  obtain ⟨head, payload⟩ := f
  show (⟨head, [payload].flatten⟩ : Frame) = _
  rw [List.flatten_singleton]

theorem headsWhole_of_full {env : List Event} (h : ∀ e ∈ env, e.delivery = .full) :
    HeadsWhole env := by
  intro n
  cases hdrop : env.drop n with
  | nil => trivial
  | cons e rest =>
    have hmem : e ∈ env := List.mem_of_mem_drop (hdrop ▸ List.mem_cons_self)
    rw [HeadWhole, h e hmem]
    trivial

/-! ## Appending to an archive -/

/-- The journal of the frames that are there. -/
theorem journal_whole {fs : List Frame} (hfit : ∀ fr ∈ fs, fr.head.Fits) (c : Bytes) :
    (journal c.length (fs.map whole)).foldl FileOp.apply c = c ++ archive fs := by
  induction fs generalizing c with
  | nil => simp [journal, archive]
  | cons fr fs ih =>
    have hlen : c.length + (whole fr).frame.bytes.length = (c ++ fr.bytes).length := by
      rw [whole_frame, List.length_append]
    rw [List.map_cons, journal, List.foldl_append, foldl_ops c (hfit fr List.mem_cons_self), hlen,
      whole_frame, ih (fun f hf => hfit f (List.mem_cons_of_mem fr hf)), archive_cons,
      List.append_assoc]

theorem map_whole (fs : List Frame) : (fs.map whole).map Entry.frame = fs := by
  rw [List.map_map]
  exact List.map_id'' (fun fr => whole_frame fr) fs

theorem starts_append (p : Nat) (fs gs : List Frame) :
    starts p (fs ++ gs) = starts p fs ++ starts (p + (archive fs).length) gs := by
  induction fs generalizing p with
  | nil => rfl
  | cons fr fs ih =>
    rw [List.cons_append, starts, ih, starts, archive_cons, List.length_append, Nat.add_assoc]
    rfl

section Appended

variable {cr : Crates} {tune : Tunables} {fs : List Frame} {cs cs' : List Contents} {es : List Entry}
  {env : List Event}

/-- An archive that records are appended to: the records that are there have been written before. -/
def appended (hfs : List.Forall₂ (Frame.Reads cr tune) fs cs)
    (hes : List.Forall₂ (fun e c => Frame.Reads cr tune (Entry.frame e) c) es cs')
    (hfair : ∀ e ∈ env, e.delivery.Fair) (hwhole : HeadsWhole env)
    (henv : env.flatMap Event.ops <+: journal (archive fs).length es) : LiveFile cr tune where
  env := ⟨journal 0 (fs.map whole), .full⟩ :: env
  entries := fs.map whole ++ es
  contents := cs ++ cs'
  reads := by
    refine List.rel_append ?_ hes
    rw [List.forall₂_map_left_iff]
    apply hfs.imp
    intro fr c h
    rwa [whole_frame]
  fair := by
    intro e he
    rcases List.mem_cons.mp he with rfl | he
    · trivial
    · exact hfair e he
  written := by
    rw [List.flatMap_cons, journal_append, map_whole, Nat.zero_add]
    exact (List.prefix_append_right_inj _).mpr henv
  whole := by
    intro n
    cases n with
    | zero => trivial
    | succ n => exact hwhole n

variable (hfs : List.Forall₂ (Frame.Reads cr tune) fs cs)
  (hes : List.Forall₂ (fun e c => Frame.Reads cr tune (Entry.frame e) c) es cs')
  (hfair : ∀ e ∈ env, e.delivery.Fair) (hwhole : HeadsWhole env)
  (henv : env.flatMap Event.ops <+: journal (archive fs).length es)

/-- It is the archive, and then the events. -/
theorem appended_after (m : Nat) :
    (appended hfs hes hfair hwhole henv).after (m + 1) = (⟨archive fs, env⟩ : File).skip m := by
  have hfit : ∀ fr ∈ fs, fr.head.Fits := by
    intro fr hfr
    obtain ⟨i, hi, rfl⟩ := List.getElem_of_mem hfr
    exact (hfs.get hi (by rw [← hfs.length_eq]; exact hi)).1.fits
  have hbase := journal_whole hfit []
  rw [List.nil_append] at hbase
  show (⟨(journal 0 (fs.map whole)).foldl FileOp.apply [], env⟩ : File).skip m = _
  rw [show (0 : Nat) = ([] : Bytes).length from rfl, hbase]

/-- The appended records that are done. -/
theorem appended_done (m k : Nat) :
    (appended hfs hes hfair hwhole henv).Done (m + 1) (fs.length + k) ↔
      journal (archive fs).length (es.take k) <+: (env.take m).flatMap Event.ops := by
  have htake : (fs.map whole ++ es).take (fs.length + k) = fs.map whole ++ es.take k := by
    rw [← List.length_map whole, List.take_length_add_append]
  show journal 0 ((fs.map whole ++ es).take (fs.length + k)) <+:
    journal 0 (fs.map whole) ++ (env.take m).flatMap Event.ops ↔ _
  rw [htake, journal_append, map_whole, Nat.zero_add, List.prefix_append_right_inj]

theorem appended_frames :
    (appended hfs hes hfair hwhole henv).frames = fs ++ es.map Entry.frame := by
  show (fs.map whole ++ es).map Entry.frame = _
  rw [List.map_append, map_whole]

include hfs hes hfair hwhole henv in
/-- **Reading an archive that is appended to**, from its start: the records that were there, and those of
the others that are done at a later moment. -/
theorem appended_reads (hcodec : cr.CodecLawful) (m : Nat) :
    ∃ m' n rs rp rp', m ≤ m' ∧
      Reads cr tune ⟨(⟨archive fs, env⟩ : File).skip m, 0⟩
        ((starts 0 (fs ++ (es.map Entry.frame).take n)).zip rs) rp ∧
      List.Forall₂ Record.Holds rs (cs ++ cs'.take n) ∧ read cr tune rp = (.ok none, rp') ∧
      ∀ k ≤ es.length, journal (archive fs).length (es.take k) <+:
        (env.take m').flatMap Event.ops ↔ k ≤ n := by
  let a := appended hfs hes hfair hwhole henv
  have hlen : a.entries.length = fs.length + es.length := by
    show (fs.map whole ++ es).length = _
    rw [List.length_append, List.length_map]
  obtain ⟨m', n, rs, rp, rp', hm, hsnap, -, hreads, hall, hend⟩ :=
    @LiveFile.snapshot_reads cr tune a hcodec (m + 1) 0 (Nat.zero_le _) List.nil_prefix
  obtain ⟨m', rfl⟩ : ∃ j, m' = j + 1 := ⟨m' - 1, by omega⟩
  have hdone (k : Nat) (hk : k ≤ es.length) : journal (archive fs).length (es.take k) <+:
      (env.take m').flatMap Event.ops ↔ fs.length + k ≤ n := by
    rw [← appended_done hfs hes hfair hwhole henv m' k]
    exact hsnap.done_iff _ (by omega)
  have hbase : fs.length ≤ n := (hdone 0 (Nat.zero_le _)).mp List.nil_prefix
  obtain ⟨n, rfl⟩ := Nat.exists_eq_add_of_le hbase
  have hframes : a.frames.take (fs.length + n) = fs ++ (es.map Entry.frame).take n := by
    rw [appended_frames hfs hes hfair hwhole henv, List.take_length_add_append]
  have hcontents : a.contents.take (fs.length + n) = cs ++ cs'.take n := by
    show (cs ++ cs').take (fs.length + n) = _
    rw [hfs.length_eq, List.take_length_add_append]
  rw [List.drop_zero, hframes] at hreads
  rw [List.drop_zero, hcontents] at hall
  rw [appended_after hfs hes hfair hwhole henv] at hreads
  refine ⟨m', n, rs, rp, rp', by omega, hreads, hall, hend, fun k hk => ?_⟩
  rw [hdone k hk]
  omega

end Appended

end BodyArchive
