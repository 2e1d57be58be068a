import BodyArchive.Barc.Failures

/-!
# What a write does to the file

`BarcWriter::write`, seen by others who look at the file: its writes, one by one. However it ends, they
are all behind what was there (`write_ops`). If it returns its offset, they are the writes of one record
(`write_ok_ops`).
-/

namespace BodyArchive

/-! ## What every operation keeps -/

/-- The operations of a file keep `I`, from the offset `low` on. -/
structure Kept (low : Nat) (I : OutFile → Prop) : Prop where
  bytes : ∀ bs, Prog.Preserves I (OutFile.write bs)
  seek : ∀ {target : OutFile → Nat}, (∀ f, I f → low ≤ target f) →
    Prog.Preserves I (OutFile.seekTo target)
  flush : Prog.Preserves I OutFile.flush
  end_le : ∀ f, I f → low ≤ f.content.length
  pos_le : ∀ f, I f → low ≤ f.pos

namespace Kept

variable {cr : Crates} {low : Nat} {I : OutFile → Prop}

theorem onFile {ε α : Type} {m : Prog OutFile ε α} (hm : Prog.Preserves I m) :
    Prog.Preserves (fun w : EncodeWrapper cr => I w.file) (EncodeWrapper.onFile m) := by
  intro w hw
  have hkept := hm w.file hw
  rcases hx : m w.file with ⟨x, f⟩
  rw [EncodeWrapper.onFile_of hx]
  rwa [hx] at hkept

theorem encode (h : Kept low I) (bs : Bytes) :
    Prog.Preserves (fun w : EncodeWrapper cr => I w.file) (EncodeWrapper.write bs) := by
  intro w hw
  by_cases hbs : bs = []
  · rw [EncodeWrapper.write, if_pos hbs]
    exact hw
  by_cases hmode : w.mode = .plain
  · simp only [EncodeWrapper.write, if_neg hbs, if_pos hmode]
    exact onFile (h.bytes bs) w hw
  · simp only [EncodeWrapper.write, if_neg hbs, if_neg hmode]
    exact onFile (h.bytes _) { w with chunks := w.chunks ++ [bs] } hw

theorem finish (h : Kept low I) :
    Prog.Preserves (fun w : EncodeWrapper cr => I w.file) EncodeWrapper.finish := by
  intro w hw
  by_cases hmode : w.mode = .plain
  · simp only [EncodeWrapper.finish, if_pos hmode]
    exact onFile (h.flush.mapErr _) w hw
  · simp only [EncodeWrapper.finish, if_neg hmode]
    refine onFile ?_ w hw
    exact ((h.bytes _).mapErr _).bind fun _ => (h.flush.mapErr _).bind fun _ => (h.bytes _).dropErr

theorem record (h : Kept low I) (rec : Record) (enc : Encoder) :
    Prog.Preserves I (writeRecord cr rec enc) := by
  have hW (bs : Bytes) : Prog.Carries (fun w : EncodeWrapper cr => I w.file) id
      (writeAll bs : Prog (EncodeWrapper cr) IoError Unit) := (h.encode bs).carries
  have hparts : Prog.Carries (fun w : EncodeWrapper cr => I w.file) id (writeParts cr rec) := by
    refine Prog.carries_get (fun w => ?_) fun w => rfl
    exact (carries_writeHeaders hW _ _).bind fun _ => (carries_writeHeaders hW _ _).bind fun _ =>
      (carries_writeBody hW _ _).bind fun _ => (carries_writeHeaders hW _ _).bind fun _ =>
      (Prog.carries_assert _ _).bind fun _ => (carries_writeBody hW _ _).bind fun _ =>
      h.finish.carries.bind fun _ => Prog.carries_pure _
  intro f hf
  exact hparts.preserves ⟨f, enc, []⟩ hf

/-- **A write keeps** what all its operations keep. -/
theorem write (h : Kept low I) (rec : Record) (enc : Encoder) :
    Prog.Preserves I (BodyArchive.write cr rec enc) := by
  have hhead (head : RecordHead) : Prog.Carries I id (writeRecordHead head) :=
    carries_writeRecordHead (fun bs => (h.bytes bs).carries) head
  have hseek {target : OutFile → Nat} (ht : ∀ f, I f → low ≤ target f) :
      Prog.Carries I id (Prog.mapErr BarcError.io (OutFile.seekTo target)) :=
    ((h.seek ht).mapErr _).carries
  have hflush : Prog.Carries I id (Prog.mapErr BarcError.io OutFile.flush) :=
    (h.flush.mapErr _).carries
  refine Prog.Carries.preserves (h := id) ?_
  refine (hseek h.end_le).bind_of (Q := fun start => low ≤ start) ?_ fun start hstart => ?_
  · -- The record starts at the end of the file.
    intro f start f' hI hrun
    have hrun' := Prog.mapErr_eq_ok hrun
    have hI' := (h.seek h.end_le) f hI
    simp only [OutFile.seekTo] at hrun' hI'
    rcases hn : f.next with ⟨_ | ⟨k, e⟩, f₁⟩ <;> rw [hn] at hI' hrun' <;> cases hrun'
    exact h.pos_le _ hI'
  exact (hhead _).bind fun _ => hflush.bind fun _ => (h.record rec enc).carries.bind fun head =>
    (hseek h.pos_le).bind fun stop => (Prog.carries_assert _ _).bind fun _ =>
    (Prog.carries_assert _ _).bind fun _ => (hseek fun _ _ => hstart).bind fun _ =>
    (hhead _).bind fun _ => (hseek h.end_le).bind fun _ => hflush.bind fun _ => Prog.carries_pure _

end Kept

/-! ## The writes of a call -/

/-- Writes behind a prefix of the content keep it. -/
theorem prefix_foldl {base c : Bytes} {ops : List FileOp} (h : base <+: c)
    (hops : ∀ op ∈ ops, base.length ≤ op.pos) : base <+: ops.foldl FileOp.apply c := by
  induction ops generalizing c with
  | nil => exact h
  | cons op ops ih =>
    exact ih (FileOp.prefix_apply h (hops op List.mem_cons_self)) fun o ho =>
      hops o (List.mem_cons_of_mem op ho)

/-- The file since its content was `c` and its log was `log`: it has been written behind `c` only. -/
def Since (c : Bytes) (log : List FileOp) (f : OutFile) : Prop :=
  c.length ≤ f.pos ∧ ∃ ops, f.log = log ++ ops ∧ f.content = ops.foldl FileOp.apply c ∧
    ∀ op ∈ ops, c.length ≤ op.pos

namespace Since

variable {c : Bytes} {log : List FileOp} {f : OutFile}

theorem length_le (h : Since c log f) : c.length ≤ f.content.length := by
  obtain ⟨-, ops, -, hcontent, hops⟩ := h
  rw [hcontent]
  exact (prefix_foldl List.prefix_rfl hops).length_le

theorem next (h : Since c log f) : Since c log f.next.2 := by
  unfold OutFile.next
  split <;> exact h

theorem put (h : Since c log f) (bs : Bytes) : Since c log (f.put bs) := by
  obtain ⟨hpos, ops, hlog, hcontent, hops⟩ := h
  refine ⟨Nat.le_trans hpos (Nat.le_add_right _ _), ops ++ [⟨f.pos, bs⟩], ?_, ?_, ?_⟩
  · rw [OutFile.put_log, hlog, List.append_assoc]
  · rw [OutFile.put_content, hcontent, List.foldl_append]
    rfl
  · intro op hop
    rcases List.mem_append.mp hop with hop | hop
    · exact hops op hop
    · rw [List.mem_singleton.mp hop]
      exact hpos

theorem kept (c : Bytes) (log : List FileOp) : Kept c.length (Since c log) where
  bytes bs := by
    intro f hf
    have hnext := hf.next
    unfold OutFile.write
    split
    · exact hf
    · rcases hn : f.next with ⟨_ | ⟨k, e⟩, f₁⟩ <;> rw [hn] at hnext
      · exact hnext.put bs
      · exact hnext.put _
  seek := by
    intro target ht f hf
    have hnext := hf.next
    unfold OutFile.seekTo
    rcases hn : f.next with ⟨_ | ⟨k, e⟩, f₁⟩ <;> rw [hn] at hnext
    · exact ⟨ht _ hnext, hnext.2⟩
    · exact hnext
  flush := by
    intro f hf
    have hnext := hf.next
    unfold OutFile.flush
    rcases hn : f.next with ⟨_ | ⟨k, e⟩, f₁⟩ <;> rw [hn] at hnext
    · exact hnext
    · exact hnext
  end_le f hf := hf.length_le
  pos_le f hf := hf.1

end Since

variable {cr : Crates}

/-- **The writes of a call**, however it ends, are all behind what was there. -/
theorem write_ops (rec : Record) (enc : Encoder) (f : OutFile) :
    ∃ ops, (write cr rec enc f).2.log = f.log ++ ops ∧
      (write cr rec enc f).2.content = ops.foldl FileOp.apply f.content ∧
      ∀ op ∈ ops, f.content.length ≤ op.pos := by
  -- Wherever the file stood before, the first seek comes to its end; if that fails, nothing is written.
  rcases hn : f.next with ⟨_ | ⟨k, e⟩, f₁⟩
  · have hstart : write cr rec enc f = write cr rec enc { f with pos := f.content.length } := by
      rcases f with ⟨content, pos, _ | ⟨_ | ⟨k, e⟩, script⟩, log⟩ <;> first | rfl | cases hn
    have hsince : Since f.content f.log { f with pos := f.content.length } :=
      ⟨Nat.le_refl _, [], (List.append_nil _).symm, rfl, by simp⟩
    rw [hstart]
    exact ((Since.kept f.content f.log).write rec enc _ hsince).2
  · have hfail : write cr rec enc f = (.err (.io e), f₁) := by
      refine Prog.bind_of_err ?_
      simp only [OutFile.seekEnd, OutFile.seekTo, Prog.mapErr, hn]
    have hsame : f₁.content = f.content ∧ f₁.log = f.log := by
      rcases f with ⟨content, pos, _ | ⟨_ | ⟨k, e⟩, script⟩, log⟩ <;> cases hn
      exact ⟨rfl, rfl⟩
    rw [hfail]
    exact ⟨[], by rw [hsame.2, List.append_nil], hsame.1, by simp⟩

/-- **The writes of a call that returned its offset** are those of one record. -/
theorem write_ok_ops {rec : Record} {c : Contents} {enc : Encoder} (hd : Drained cr enc)
    (hr : rec.Holds c) {f f' : OutFile} {o : Nat} (h : write cr rec enc f = (.ok o, f')) :
    ∃ e : Entry, e.frame.Holds cr c ∧ e.head.compress = enc.mode ∧
      f'.log = f.log ++ e.ops f.content.length := by
  have hhush := write_hush hd h
  rcases write_calm cr f.hush_calm hr enc with
    ⟨head, payload, f₁, hok, hmode, hl, hwritten⟩ | ⟨-, msg, f₁, hpanic⟩
  · rw [hok] at hhush
    cases hhush
    obtain ⟨pieces, rfl, hlog⟩ := hwritten.log_eq
    exact ⟨⟨head, pieces⟩, hl, hmode, hlog⟩
  · rw [hpanic] at hhush
    cases hhush

end BodyArchive
