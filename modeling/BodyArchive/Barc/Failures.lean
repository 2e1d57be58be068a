import BodyArchive.Barc.RoundTrip

/-!
# Writing with failures

A write can fail at any of its file operations, and leaves behind what has reached the file by
then. If it returns its offset, all its operations have completed, and it has left what it leaves
in a file without failures (`write_ok_whole`); except that an encoder may still write when it is
dropped, and nobody learns if that fails.

`Attempt` is a write that may fail, and a `Chain` is any sequence of them on one file. As long as
every attempt is clean, leaving nothing or a whole record, the failed ones hide nothing
(`chain_read`). An attempt that leaves part of a record hides all that come after it
(`record_hidden`).
-/

namespace BodyArchive

/-! ## A write that returns its offset -/

section Parts

variable {W : Type} [Write W] {I : W → Prop} {h : W → W}
  (hW : ∀ bs, Prog.Carries I h (writeAll bs : Prog W IoError Unit))

include hW

theorem carries_writeAllLen (bs : Bytes) : Prog.Carries I h (writeAllLen bs : Prog W BarcError Nat) :=
  ((hW bs).mapErr _).bind fun _ => Prog.carries_pure _

theorem carries_writeLines (es : List (HeaderName × HeaderValue)) (size : Nat) :
    Prog.Carries I h (writeLines size es : Prog W BarcError Nat) := by
  induction es generalizing size with
  | nil => exact Prog.carries_pure _
  | cons e es ih =>
    obtain ⟨key, value⟩ := e
    exact (carries_writeAllLen hW _).bind fun _ => (carries_writeAllLen hW _).bind fun _ =>
      (carries_writeAllLen hW _).bind fun _ => (carries_writeAllLen hW _).bind fun _ => ih _

theorem carries_writePadding (withCrlf : Bool) (size : Nat) :
    Prog.Carries I h (writePadding withCrlf size : Prog W BarcError Nat) := by
  unfold writePadding
  split
  · exact (carries_writeAllLen hW _).bind fun _ => Prog.carries_pure _
  · exact Prog.carries_pure _

theorem carries_writeHeaders (withCrlf : Bool) (headers : HeaderMap) :
    Prog.Carries I h (writeHeaders withCrlf headers : Prog W BarcError Nat) :=
  (carries_writeLines hW _ _).bind fun _ => (carries_writePadding hW _ _).bind fun _ =>
    (Prog.carries_assert _ _).bind fun _ => Prog.carries_pure _

theorem carries_copy {R : Type} [Read R] :
    Prog.Carries (fun s : R × W => I s.2) (fun s => (s.1, h s.2)) (copy (R := R) (W := W)) := by
  refine Prog.carries_loop (I := fun s : R × W => I s.2) (h := fun s => (s.1, h s.2))
    (fun written => ?_) (fun _ => rfl) 0
  refine (Prog.carries_onFst _).bind fun x => ?_
  split
  · exact Prog.carries_pure _
  · exact (hW _).onSnd.bind fun _ => Prog.carries_pure _
  · exact Prog.carries_pure _
  · exact Prog.carries_throw _

theorem carries_writeTo (body : BodyImage) : Prog.Carries I h (body.writeTo (W := W)) := by
  refine Prog.Carries.bind ?_ fun _ => Prog.carries_pure _
  cases body.state with
  | ram v =>
    refine Prog.Carries.mapErr ?_ _
    induction v with
    | nil => exact Prog.carries_pure _
    | cons b v ih => exact (hW b).bind fun _ => ih
  | fsRead f =>
    exact (((carries_copy hW).withLocal _).mapErr _).bind fun _ => Prog.carries_pure _
  | fsReadSlice rs =>
    exact (((carries_copy hW).withLocal _).mapErr _).bind fun _ => Prog.carries_pure _
  | memMap m => exact (hW m).mapErr _

theorem carries_writeBody (withCrlf : Bool) (body : BodyImage) :
    Prog.Carries I h (writeBody withCrlf body : Prog W BarcError Nat) :=
  ((carries_writeTo hW body).mapErr _).bind fun _ => carries_writePadding hW _ _

theorem carries_writeRecordHead (head : RecordHead) :
    Prog.Carries I h (writeRecordHead head : Prog W BarcError Unit) := by
  refine Prog.Carries.bind ?_ fun _ => (carries_writeAllLen hW _).bind fun _ => Prog.carries_assert _ _
  exact (Prog.carries_assert _ _).bind fun _ => (Prog.carries_assert _ _).bind fun _ =>
    (Prog.carries_assert _ _).bind fun _ => (Prog.carries_assert _ _).bind fun _ =>
    Prog.carries_assert _ _

end Parts

variable {cr : Crates}

namespace EncodeWrapper

/-- The wrapper without coming failures of its file. -/
def hush (w : EncodeWrapper cr) : EncodeWrapper cr := { w with file := w.file.hush }

/-- The wrapper's encoder, and what its file is written behind. -/
def Above (base : Bytes) (enc : Encoder) (w : EncodeWrapper cr) : Prop :=
  w.enc = enc ∧ w.file.Above base

section Carries

variable {base : Bytes} {enc : Encoder}

theorem carries_onFile {ε α : Type} {h : OutFile → OutFile} {m : Prog OutFile ε α}
    (hm : Prog.Carries (OutFile.Above base) h m) :
    Prog.Carries (Above base enc) (fun w => { w with file := h w.file })
      (onFile m : Prog (EncodeWrapper cr) ε α) := by
  rintro w ⟨henc, hI⟩
  obtain ⟨hI', hcarry⟩ := hm w.file hI
  refine ⟨⟨henc, hI'⟩, fun a w' hrun => ?_⟩
  rcases hx : m w.file with ⟨x, f⟩
  rw [onFile_of hx] at hrun
  cases hrun
  exact onFile_of (hcarry a _ hx)

theorem carries_write (bs : Bytes) :
    Prog.Carries (Above base enc) hush (write bs : Prog (EncodeWrapper cr) _ _) := by
  intro w hI
  by_cases hbs : bs = []
  · simp only [write, if_pos hbs]
    refine ⟨hI, fun u w' hrun => ?_⟩
    cases hrun
    rfl
  by_cases hmode : w.mode = .plain
  · have hmode' : w.hush.mode = .plain := hmode
    simp only [write, if_neg hbs, if_pos hmode, if_pos hmode']
    exact carries_onFile (OutFile.carries_write base bs) w hI
  · have hmode' : ¬ w.hush.mode = .plain := hmode
    simp only [write, if_neg hbs, if_neg hmode, if_neg hmode']
    exact carries_onFile (OutFile.carries_write base _) { w with chunks := w.chunks ++ [bs] } hI

/-- `finish` carries over what the last write of a dropped encoder does. -/
theorem carries_finish {h : OutFile → OutFile}
    (hfile : ∀ bs, Prog.Carries (OutFile.Above base) h (OutFile.write bs))
    (hflush : Prog.Carries (OutFile.Above base) h OutFile.flush)
    (hdrop : enc.mode ≠ .plain → ∀ chunks, Prog.Carries (OutFile.Above base) h
      (Prog.dropErr (OutFile.write (cr.close enc.mode enc.level chunks)) :
        Prog OutFile BarcError Unit)) :
    Prog.Carries (Above base enc) (fun w => { w with file := h w.file })
      (finish : Prog (EncodeWrapper cr) _ _) := by
  rintro w ⟨rfl, hI⟩
  by_cases hmode : w.mode = .plain
  · have hmode' : (⟨h w.file, w.enc, w.chunks⟩ : EncodeWrapper cr).mode = .plain := hmode
    simp only [finish, if_pos hmode, if_pos hmode']
    exact carries_onFile (hflush.mapErr _) w ⟨rfl, hI⟩
  · have hmode' : ¬ (⟨h w.file, w.enc, w.chunks⟩ : EncodeWrapper cr).mode = .plain := hmode
    simp only [finish, if_neg hmode, if_neg hmode']
    refine carries_onFile ?_ w ⟨rfl, hI⟩
    exact ((hfile _).mapErr _).bind fun _ => (hflush.mapErr _).bind fun _ => hdrop hmode _

end Carries

end EncodeWrapper

section Write

variable {base : Bytes} {enc : Encoder} {h : OutFile → OutFile} (rec : Record)

theorem carries_writeParts
    (hW : ∀ bs, Prog.Carries (EncodeWrapper.Above base enc) (fun w => { w with file := h w.file })
      (writeAll bs : Prog (EncodeWrapper cr) IoError Unit))
    (hfinish : Prog.Carries (EncodeWrapper.Above base enc) (fun w => { w with file := h w.file })
      (EncodeWrapper.finish : Prog (EncodeWrapper cr) _ _)) :
    Prog.Carries (EncodeWrapper.Above base enc) (fun w => { w with file := h w.file })
      (writeParts cr rec) := by
  refine Prog.carries_get (fun w => ?_) fun w => rfl
  exact (carries_writeHeaders hW _ _).bind fun _ => (carries_writeHeaders hW _ _).bind fun _ =>
    (carries_writeBody hW _ _).bind fun _ => (carries_writeHeaders hW _ _).bind fun _ =>
    (Prog.carries_assert _ _).bind fun _ => (carries_writeBody hW _ _).bind fun _ =>
    hfinish.bind fun _ => Prog.carries_pure _

theorem carries_writeRecord
    (hparts : Prog.Carries (EncodeWrapper.Above base enc) (fun w => { w with file := h w.file })
      (writeParts cr rec)) :
    Prog.Carries (OutFile.Above base) h (writeRecord cr rec enc) := by
  intro f hI
  obtain ⟨hI', hcarry⟩ := hparts ⟨f, enc, []⟩ ⟨rfl, hI⟩
  refine ⟨hI'.2, fun head f' hrun => ?_⟩
  rcases hx : writeParts cr rec ⟨f, enc, []⟩ with ⟨x, w⟩
  simp only [writeRecord, hx, Prod.mk.injEq] at hrun
  obtain ⟨rfl, rfl⟩ := hrun
  have hcarried := hcarry head w hx
  simp only [writeRecord, hcarried]

theorem carries_writeBarc
    (hseek : ∀ {target : OutFile → Nat}, (∀ f, target f.hush = target f) →
      (∀ f, OutFile.Above base f → base.length ≤ target f) →
      Prog.Carries (OutFile.Above base) h (OutFile.seekTo target))
    (hfile : ∀ bs, Prog.Carries (OutFile.Above base) h (OutFile.write bs))
    (hflush : Prog.Carries (OutFile.Above base) h OutFile.flush)
    (hrecord : Prog.Carries (OutFile.Above base) h (writeRecord cr rec enc)) :
    Prog.Carries (OutFile.Above base) h (write cr rec enc) := by
  have hhead (head : RecordHead) : Prog.Carries (OutFile.Above base) h (writeRecordHead head) :=
    carries_writeRecordHead hfile head
  have hend : Prog.Carries (OutFile.Above base) h (Prog.mapErr BarcError.io OutFile.seekEnd) :=
    (hseek (fun _ => rfl) fun f hI => hI.1.length_le).mapErr _
  refine hend.bind_of (Q := fun start => base.length ≤ start) ?_ fun start hstart => ?_
  · -- The record starts at the end of the file, behind the base.
    intro f start f' hI hrun
    have hseek' := Prog.mapErr_eq_ok hrun
    simp only [OutFile.seekEnd, OutFile.seekTo] at hseek'
    have hI' := hI.next
    rcases hn : f.next with ⟨_ | ⟨k, e⟩, f₁⟩ <;> rw [hn] at hI' hseek' <;> cases hseek'
    exact hI'.1.length_le
  exact (hhead _).bind fun _ => (hflush.mapErr _).bind fun _ => hrecord.bind fun head =>
    ((hseek (fun _ => rfl) fun f hI => hI.2).mapErr _).bind fun stop =>
    (Prog.carries_assert _ _).bind fun _ => (Prog.carries_assert _ _).bind fun _ =>
    ((hseek (fun _ => rfl) fun _ _ => hstart).mapErr _).bind fun _ => (hhead _).bind fun _ =>
    hend.bind fun _ => (hflush.mapErr _).bind fun _ => Prog.carries_pure _

end Write

/-- An encoder with nothing left to write when it is dropped. -/
def Drained (cr : Crates) (enc : Encoder) : Prop :=
  enc.mode = .plain ∨ ∀ chunks, cr.close enc.mode enc.level chunks = []

section Ends

variable {base : Bytes} {enc : Encoder} {rec : Record}

/-- Nothing that a write does reaches what it was to be written behind. -/
theorem write_above (enc : Encoder) {f : OutFile} (hI : OutFile.Above base f) :
    OutFile.Above base (write cr rec enc f).2 := by
  have hfile (bs : Bytes) : Prog.Carries (OutFile.Above base) id (OutFile.write bs) :=
    (OutFile.carries_write base bs).preserves.carries
  have hflush : Prog.Carries (OutFile.Above base) id OutFile.flush :=
    (OutFile.carries_flush base).preserves.carries
  have hW (bs : Bytes) : Prog.Carries (EncodeWrapper.Above base enc) id
      (writeAll bs : Prog (EncodeWrapper cr) IoError Unit) :=
    (EncodeWrapper.carries_write bs).preserves.carries
  have hfinish : Prog.Carries (EncodeWrapper.Above base enc) id
      (EncodeWrapper.finish : Prog (EncodeWrapper cr) _ _) :=
    EncodeWrapper.carries_finish hfile hflush fun _ _ => (hfile _).preserves.dropErr.carries
  have hparts := carries_writeParts (h := id) rec hW hfinish
  have hrecord := carries_writeRecord rec hparts
  have hwrite := carries_writeBarc rec
    (fun ht habove => (OutFile.carries_seekTo ht habove).preserves.carries) hfile hflush hrecord
  exact (hwrite f hI).1

/-- **A write only appends**, however it ends. -/
theorem write_appends (rec : Record) (enc : Encoder) (f : OutFile) :
    f.content <+: (write cr rec enc f).2.content := by
  -- Wherever the file stood before, the first seek comes to its end.
  have hstart : (write cr rec enc f).2.content =
      (write cr rec enc { f with pos := f.content.length }).2.content := by
    rcases f with ⟨content, pos, _ | ⟨_ | ⟨k, e⟩, script⟩, log⟩ <;> rfl
  have hI : OutFile.Above f.content { f with pos := f.content.length } :=
    ⟨List.prefix_rfl, Nat.le_refl _⟩
  rw [hstart]
  exact (write_above enc hI).1

/-- A write that returned its offset would have done the same without coming failures. -/
theorem write_hush (hd : Drained cr enc) {f f' : OutFile} {o : Nat}
    (h : write cr rec enc f = (.ok o, f')) : write cr rec enc f.hush = (.ok o, f'.hush) := by
  have hfile (bs : Bytes) : Prog.Carries (OutFile.Above []) OutFile.hush (OutFile.write bs) :=
    OutFile.carries_write [] bs
  have hflush := OutFile.carries_flush []
  have hdrop (hmode : enc.mode ≠ .plain) (chunks : List Bytes) :
      Prog.Carries (OutFile.Above []) OutFile.hush
        (Prog.dropErr (OutFile.write (cr.close enc.mode enc.level chunks)) :
          Prog OutFile BarcError Unit) := by
    rw [hd.resolve_left hmode chunks]
    exact Prog.carries_pure ()
  have hrecord := carries_writeRecord rec (@carries_writeParts cr _ _ _ rec
    (fun bs => EncodeWrapper.carries_write bs) (EncodeWrapper.carries_finish hfile hflush hdrop))
  have hwrite := carries_writeBarc rec OutFile.carries_seekTo hfile hflush hrecord
  exact (hwrite f ⟨List.nil_prefix, Nat.zero_le _⟩).2 o f' h

/-- **A write that returned its offset** has left a whole record at the end of the file. -/
theorem write_ok_whole {c : Contents} (hd : Drained cr enc) (hr : rec.Holds c) {f f' : OutFile}
    {o : Nat} (h : write cr rec enc f = (.ok o, f')) :
    o = f.content.length ∧ ∃ fr : Frame, fr.Holds cr c ∧ fr.head.compress = enc.mode ∧
      f'.content = f.content ++ fr.bytes := by
  have hhush := write_hush hd h
  rcases write_calm cr f.hush_calm hr enc with
    ⟨head, payload, f₁, hok, hmode, hl, hwritten⟩ | ⟨-, msg, f₁, hpanic⟩
  · rw [hok] at hhush
    cases hhush
    exact ⟨rfl, ⟨head, payload⟩, hl, hmode, hwritten.content_eq⟩
  · rw [hpanic] at hhush
    cases hhush

end Ends

/-! ## Attempts -/

/-- A write that may fail. An encoder that a failure drops can still write something then. -/
structure Attempt (cr : Crates) where
  job : Job
  before : OutFile
  result : Res BarcError Nat
  file : OutFile
  ran : write cr job.record job.enc before = (result, file)
  dropped : Bytes
  dropped_nil : ∀ o, result = .ok o → dropped = []

namespace Attempt

variable {cr : Crates}

/-- The content it leaves. -/
def after (a : Attempt cr) : Bytes := a.file.content ++ a.dropped

/-- It returned its offset. -/
def ok (a : Attempt cr) : Bool :=
  match a.result with
  | .ok _ => true
  | _ => false

/-- It left the whole record. -/
def Whole (a : Attempt cr) : Prop :=
  ∃ fr : Frame, fr.Holds cr a.job.contents ∧ fr.head.compress = a.job.enc.mode ∧
    a.after = a.before.content ++ fr.bytes

/-- It left the whole record, or it failed and left nothing. A write that returned its offset has
left the record, unless the encoder wrote when it was dropped and that was lost. -/
def Clean (a : Attempt cr) : Prop :=
  a.Whole ∨ (a.ok = true ∧ Drained cr a.job.enc) ∨ (a.ok = false ∧ a.after = a.before.content)

theorem appends (a : Attempt cr) : a.before.content <+: a.after := by
  have h := @write_appends cr a.job.record a.job.enc a.before
  rw [a.ran] at h
  exact h.trans (List.prefix_append _ _)

theorem whole_of_ok {a : Attempt cr} (hok : a.ok = true) (hd : Drained cr a.job.enc) : a.Whole := by
  unfold ok at hok
  split at hok
  · next o hresult =>
    have hran := a.ran
    rw [hresult] at hran
    obtain ⟨-, fr, hholds, hmode, hcontent⟩ := write_ok_whole hd a.job.holds hran
    refine ⟨fr, hholds, hmode, ?_⟩
    rw [after, a.dropped_nil o hresult, List.append_nil, hcontent]
  · cases hok

theorem Clean.whole_or {a : Attempt cr} (h : a.Clean) :
    a.Whole ∨ (a.ok = false ∧ a.after = a.before.content) := by
  rcases h with hwhole | ⟨hok, hd⟩ | hnone
  · exact .inl hwhole
  · exact .inl (whole_of_ok hok hd)
  · exact .inr hnone

/-- Where it was to leave its record. -/
def start (a : Attempt cr) : Nat := a.before.content.length

end Attempt

section Chain

variable {cr : Crates}

/-- Attempts one after the other on a file with the content `c`, which leave `c'`. -/
def Chain (c : Bytes) : List (Attempt cr) → Bytes → Prop
  | [], c' => c' = c
  | a :: as, c' => a.before.content = c ∧ Chain a.after as c'

theorem chain_append {c c' : Bytes} {as bs : List (Attempt cr)} :
    Chain c (as ++ bs) c' ↔ ∃ c₁, Chain c as c₁ ∧ Chain c₁ bs c' := by
  induction as generalizing c with
  | nil =>
    constructor
    · intro h
      exact ⟨c, rfl, h⟩
    · rintro ⟨c₁, rfl, h⟩
      exact h
  | cons a as ih =>
    simp only [List.cons_append, Chain, ih]
    constructor
    · rintro ⟨hc, c₁, has, hbs⟩
      exact ⟨c₁, ⟨hc, has⟩, hbs⟩
    · rintro ⟨c₁, ⟨hc, has⟩, hbs⟩
      exact ⟨hc, c₁, has, hbs⟩

theorem chain_prefix {c c' : Bytes} {as : List (Attempt cr)} (h : Chain c as c') : c <+: c' := by
  induction as generalizing c with
  | nil => rw [show c' = c from h]
  | cons a as ih =>
    obtain ⟨rfl, hrest⟩ := h
    exact a.appends.trans (ih hrest)

theorem chain_mem {c c' : Bytes} {as : List (Attempt cr)} (h : Chain c as c') {a : Attempt cr}
    (ha : a ∈ as) : a.after <+: c' := by
  induction as generalizing c with
  | nil => cases ha
  | cons b as ih =>
    obtain ⟨-, hrest⟩ := h
    rcases List.mem_cons.mp ha with rfl | ha
    · exact chain_prefix hrest
    · exact ih hrest ha

/-- **Clean attempts** leave an archive of the records of some of them, those that returned their
offsets included. -/
theorem chain_clean {c c' : Bytes} {as : List (Attempt cr)} (h : Chain c as c')
    (hclean : ∀ a ∈ as, a.Clean) :
    ∃ kept frames, kept.Sublist as ∧ (as.filter Attempt.ok).Sublist kept ∧
      (∀ a ∈ kept, a.Whole) ∧
      List.Forall₂ (fun (fr : Frame) (a : Attempt cr) => fr.Holds cr a.job.contents) frames kept ∧
      c' = c ++ archive frames ∧ kept.map Attempt.start = starts c.length frames := by
  induction as generalizing c with
  | nil => exact ⟨[], [], .slnil, .slnil, by simp, .nil, by rw [show c' = c from h]; simp [archive], rfl⟩
  | cons a as ih =>
    obtain ⟨rfl, hrest⟩ := h
    obtain ⟨kept, frames, hsub, hoks, hwholes, hall, hc', hstarts⟩ :=
      ih hrest fun b hb => hclean b (by simp [hb])
    rcases (hclean a (by simp)).whole_or with hwhole | ⟨hfailed, hnone⟩
    · obtain ⟨fr, hholds, -, hafter⟩ := id hwhole
      refine ⟨a :: kept, fr :: frames, hsub.cons_cons a, ?_, ?_, .cons hholds hall, ?_, ?_⟩
      · cases hok : a.ok with
        | true => rw [List.filter_cons_of_pos hok]; exact hoks.cons_cons a
        | false => rw [List.filter_cons_of_neg (by simp [hok])]; exact hoks.cons a
      · intro b hb
        rcases List.mem_cons.mp hb with rfl | hb
        · exact hwhole
        · exact hwholes b hb
      · rw [hc', hafter, archive_cons, List.append_assoc]
      · rw [List.map_cons, hstarts, hafter, List.length_append]
        rfl
    · rw [hnone] at hc' hstarts
      refine ⟨kept, frames, hsub.cons a, ?_, hwholes, hall, hc', hstarts⟩
      rw [List.filter_cons_of_neg (by simp [hfailed])]
      exact hoks

/-- **Failed writes that leave nothing, or a whole record, hide nothing.** Take writes on one file,
empty at first, of which the first ones are clean, and let each record that these left be readable
from where it starts. Then a reader at the start gets in order the records of some of the clean
writes, whole, with all that returned their offsets among them; and if there are no other writes,
it gets no more. -/
theorem chain_read {tune : Tunables} (hcodec : cr.CodecLawful) {as bs : List (Attempt cr)}
    {c' : Bytes} (h : Chain [] (as ++ bs) c') (hclean : ∀ a ∈ as, a.Clean)
    (halone : ∀ a ∈ as, a.Whole → ∃ r rp,
      read cr tune ⟨File.quiet c', a.start⟩ = (.ok (some r), rp) ∧ r.Holds a.job.contents)
    {file : File} (hown : file.Own) (hc' : file.content = c') :
    ∃ kept : List (Attempt cr), kept.Sublist as ∧ (as.filter Attempt.ok).Sublist kept ∧
      (∀ a ∈ kept, a.Whole) ∧ ∃ rs rp, Reads cr tune ⟨file, 0⟩ ((kept.map Attempt.start).zip rs) rp ∧
        List.Forall₂ (fun r (a : Attempt cr) => r.Holds a.job.contents) rs kept ∧
        (bs = [] → ∃ rp', read cr tune rp = (.ok none, rp')) := by
  obtain ⟨c₁, has, hbs⟩ := chain_append.mp h
  obtain ⟨kept, frames, hsub, hoks, hwholes, hall, hc₁, hstarts⟩ := chain_clean has hclean
  obtain ⟨z, hz⟩ := chain_prefix hbs
  rw [List.nil_append] at hc₁
  rw [hc₁] at hz
  refine ⟨kept, hsub, hoks, hwholes, ?_⟩
  -- Every frame can be read, since it can be from where it starts.
  have hreads : List.Forall₂ (Frame.Reads cr tune) frames (kept.map fun a => a.job.contents) := by
    rw [List.forall₂_map_right_iff]
    refine List.forall₂_of_length_eq_of_get hall.length_eq fun i hi hk => ?_
    have hmem : kept[i] ∈ kept := List.getElem_mem hk
    obtain ⟨r, rp, hread, hholds⟩ := halone _ (hsub.subset hmem) (hwholes _ hmem)
    have hstart : kept[i].start = (archive (frames.take i)).length := by
      have hget := starts_get 0 frames i hi
      rw [show (0 : Nat) = ([] : Bytes).length from rfl, ← hstarts, List.getElem?_map,
        List.getElem?_eq_getElem hk] at hget
      simpa using hget
    have hrest := (ReadPos.steady_own (File.quiet_own c') kept[i].start).rest
    simp only [File.quiet_content] at hrest
    rw [← hz, List.drop_append_of_le_length, hstart, archive_drop frames i hi,
      List.append_assoc] at hrest
    · rw [← hz, hstart] at hread
      exact reads_of_read hcodec (hall.get hi hk) hrest hread hholds
    · rw [hstart, ← List.take_append_drop i frames, archive_append]
      simp
  have hrest : Rest (⟨file, 0⟩ : ReadPos) 0 (archive frames ++ z) .eof := by
    have hr := ReadPos.rest_own hown 0
    rwa [hc', List.drop_zero, ← hz] at hr
  obtain ⟨rs, rp, hseq, hheld, hend⟩ := reads_archive hcodec hreads hrest
  refine ⟨rs, rp, by rwa [hstarts], List.forall₂_map_right_iff.mp hheld, fun hnil => ?_⟩
  subst hnil
  have hz' : z = [] := by
    have hsame : c' = c₁ := hbs
    rw [hsame, hc₁] at hz
    simpa using hz
  rw [hz'] at hend
  obtain ⟨rp', hnone, -⟩ := read_end hend
  exact ⟨rp', hnone⟩

/-- The record of a valid job is readable from where it starts. -/
theorem chain_alone {tune : Tunables} (hcr : cr.HeadersLawful) (hcodec : cr.CodecLawful)
    (htemp : tune.TempOk) {c c' : Bytes} {as : List (Attempt cr)} (h : Chain c as c')
    {a : Attempt cr} (ha : a ∈ as) (hvalid : a.job.Valid cr tune) (hwhole : a.Whole) :
    ∃ r rp, read cr tune ⟨File.quiet c', a.start⟩ = (.ok (some r), rp) ∧
      r.Holds a.job.contents := by
  obtain ⟨fr, hholds, hmode, hafter⟩ := hwhole
  obtain ⟨z, hz⟩ := chain_mem h ha
  have hrest := (ReadPos.steady_own (File.quiet_own c') a.start).rest
  simp only [File.quiet_content] at hrest
  rw [← hz, hafter, List.append_assoc, Attempt.start, List.drop_left] at hrest
  have hreads : fr.Reads cr tune a.job.contents := by
    refine ⟨hholds, ?_⟩
    rw [hmode]
    exact hvalid.readable hcr htemp
  obtain ⟨r, rp, hread, hr, -⟩ := read_frame hcodec hreads hrest
  rw [← hz, hafter, List.append_assoc]
  exact ⟨r, rp, hread, hr⟩

end Chain

/-- A write whose encoder has nothing left when a failure drops it. -/
def Attempt.of (job : Job) (before : OutFile) : Attempt sampleCrates :=
  ⟨job, before, _, _, rfl, [], fun _ _ => rfl⟩

/-- The sample record is written plain; then a write fails at its first seek; then the sample
record is written compressed. -/
def sampleAttempts : List (Attempt sampleCrates) :=
  let first := Attempt.of sampleJobs[0] OutFile.empty
  let second := Attempt.of sampleJobs[0] { first.file with script := [.failed 0 (.other 5)] }
  [first, second, Attempt.of sampleJobs[1] { second.file with script := [] }]

/-- Both records are read, and then nothing. -/
theorem sampleAttempts_read :
    ∃ c' rs rp rp', Chain [] sampleAttempts c' ∧ 2 ≤ rs.length ∧
      Reads sampleCrates (Sample.tunables 2 3 (by decide)) ⟨File.quiet c', 0⟩ rs rp ∧
      read sampleCrates (Sample.tunables 2 3 (by decide)) rp = (.ok none, rp') := by
  obtain ⟨c', hchain⟩ : ∃ c', Chain [] (sampleAttempts ++ []) c' :=
    ⟨sampleAttempts[2].after, rfl, (List.append_nil _).symm, (List.append_nil _).symm, rfl⟩
  have hclean : ∀ a ∈ sampleAttempts, a.Clean := by
    simp only [sampleAttempts, List.forall_mem_cons]
    refine ⟨?_, ?_, ?_, by simp⟩
    · exact .inr (.inl ⟨by decide +kernel, .inl rfl⟩)
    · exact .inr (.inr ⟨by decide +kernel, by decide +kernel⟩)
    · exact .inr (.inl ⟨by decide +kernel, .inr fun _ => rfl⟩)
  have hjobs : ∀ a ∈ sampleAttempts, a.job ∈ sampleJobs := by
    simp [sampleAttempts, Attempt.of, sampleJobs]
  have hoks : (sampleAttempts.filter Attempt.ok).length = 2 := by decide +kernel
  have halone (a : Attempt sampleCrates) (ha : a ∈ sampleAttempts) (hwhole : a.Whole) :
      ∃ r rp, read sampleCrates (Sample.tunables 2 3 (by decide)) ⟨File.quiet c', a.start⟩ =
        (.ok (some r), rp) ∧ r.Holds a.job.contents :=
    chain_alone sampleCrates_headersLawful sampleCrates_codecLawful
      (Sample.tunables_tempOk (by decide)) hchain (by simpa using ha)
      (sampleJobs_valid _ (hjobs a ha)) hwhole
  obtain ⟨kept, -, hkept, -, rs, rp, hreads, hall, hend⟩ :=
    chain_read sampleCrates_codecLawful hchain hclean halone (File.quiet_own _) rfl
  obtain ⟨rp', hnone⟩ := hend rfl
  refine ⟨c', _, rp, rp', by simpa using hchain, ?_, hreads, hnone⟩
  have hle := hkept.length_le
  rw [hoks] at hle
  rw [List.length_zip, List.length_map, hall.length_eq, Nat.min_self]
  exact hle

/-- **A failed write can hide the next record.** A write that fails after its reserved head leaves
that; the next write returns its offset, but a reader at the start finds the reserved head. -/
theorem record_hidden :
    let failed := write sampleCrates Sample.record .plain
      { OutFile.empty with script := [.done, .done, .failed 0 (.other 5)] }
    let next := write sampleCrates Sample.record .plain failed.2
    failed.1 = .err (.io (.other 5)) ∧ next.1 = .ok 54 ∧
      (read sampleCrates (Sample.tunables 2 3 (by decide)) ⟨File.quiet next.2.content, 0⟩).1 =
        .ok none :=
  ⟨by decide +kernel, by decide +kernel, by decide +kernel⟩

end BodyArchive
