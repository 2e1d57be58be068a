import BodyArchive.Barc.RoundTrip

/-!
# Reading while a writer writes

A reader at the start of a file, and a writer of records at its end, whose writes come between
any two calls of the reader's. `Polls` is what the reader gets, call by call. Its invariant,
`Follows`, is that the reader stands after the records it has received, all of which are done; and
a call of `read` (`Follows.read`) returns the next record if its head is there when the reader
looks at it, and leaves the position alone otherwise.

A head is read by one call that is not interrupted (`HeadWhole`): that is what it means for the
head not to be torn.
-/

namespace BodyArchive

/-! ## Reading a head at once -/

/-- The first call that is not interrupted delivers a whole head, if there is one. -/
def HeadWhole : List Event → Prop
  | [] => True
  | e :: env =>
    match e.delivery with
    | .full => True
    | .upTo k => v2HeadSize ≤ k
    | .interrupted => HeadWhole env
    | .failed _ => False

/-- **A head that is read at once** is read from one content of the file. -/
theorem readRecordHeadBuf_whole {f : File} (hf : HeadWhole f.env) (p : Nat) :
    ∃ n, ∀ bs, bs = (f.skip (n + 1)).content.drop p → bs = [] ∨ v2HeadSize ≤ bs.length →
      readRecordHeadBuf (⟨f, p⟩ : ReadPos) = (.ok (bs.take v2HeadSize),
        ⟨f.skip (n + 1), p + (bs.take v2HeadSize).length⟩) := by
  obtain ⟨content, env⟩ := f
  -- One call that delivers all that is asked for.
  have once (f : File) (hd : ∀ bs, f.tick.1.deliver v2HeadSize bs = .ok (bs.take v2HeadSize)) :
      ∀ bs, bs = (f.skip 1).content.drop p → bs = [] ∨ v2HeadSize ≤ bs.length →
      readRecordHeadBuf (⟨f, p⟩ : ReadPos) = (.ok (bs.take v2HeadSize),
        ⟨f.skip 1, p + (bs.take v2HeadSize).length⟩) := by
    intro bs hbs hsize
    have hr : Read.read (⟨f, p⟩ : ReadPos) (v2HeadSize - ([] : Bytes).length) =
        (.ok (bs.take v2HeadSize), ⟨f.skip 1, p + (bs.take v2HeadSize).length⟩) := by
      rw [hbs]
      show ReadPos.read ⟨f, p⟩ v2HeadSize = _
      rw [ReadPos.read, File.readAt, hd]
      rfl
    refine Prog.loop_of_done readRecordHeadBufStep_decreasing ?_
    rw [readRecordHeadBufStep, Prog.bind_of_ok (tryRead_of hr)]
    rcases hsize with hnil | hsize
    · rw [hnil]
      rfl
    · have hlen : (bs.take v2HeadSize).length = v2HeadSize := by
        rw [List.length_take]
        omega
      cases hc : bs.take v2HeadSize with
      | nil =>
        rw [hc] at hlen
        cases hlen
      | cons b rest =>
        rw [hc] at hlen
        simp only [List.nil_append]
        rw [if_pos (Nat.le_of_eq hlen.symm)]
        rfl
  induction env generalizing content with
  | nil => exact ⟨0, once ⟨content, []⟩ fun bs => rfl⟩
  | cons e env ih =>
    unfold HeadWhole at hf
    have htick : (⟨content, e :: env⟩ : File).tick =
        (e.delivery, ⟨e.ops.foldl FileOp.apply content, env⟩) := rfl
    cases hd : e.delivery with
    | full => exact ⟨0, once _ fun bs => by rw [htick, hd]; rfl⟩
    | upTo k =>
      simp only [hd] at hf
      refine ⟨0, once _ fun bs => ?_⟩
      rw [htick, hd, Delivery.deliver, Nat.min_eq_right hf]
    | failed err =>
      simp only [hd] at hf
    | interrupted =>
      simp only [hd] at hf
      obtain ⟨n, hn⟩ := ih (e.ops.foldl FileOp.apply content) hf
      refine ⟨n + 1, fun bs hbs hsize => ?_⟩
      have hr : Read.read (⟨⟨content, e :: env⟩, p⟩ : ReadPos) (v2HeadSize - ([] : Bytes).length) =
          (.error .interrupted, ⟨⟨e.ops.foldl FileOp.apply content, env⟩, p⟩) := by
        show ReadPos.read _ _ = _
        rw [ReadPos.read, File.readAt, htick, hd]
        rfl
      have hnext : readRecordHeadBufStep [] (⟨⟨content, e :: env⟩, p⟩ : ReadPos) =
          (.ok (.inl []), ⟨⟨e.ops.foldl FileOp.apply content, env⟩, p⟩) := by
        rw [readRecordHeadBufStep, Prog.bind_of_ok (tryRead_of hr)]
        rfl
      rw [readRecordHeadBuf, Prog.loop_of_next readRecordHeadBufStep_decreasing hnext]
      exact hn bs hbs hsize

/-! ## The calls of a reader -/

section Session

variable (cr : Crates) (tune : Tunables)

/-- The calls of `read` by a reader from a position on, and what they returned. Every head is read
at once. -/
inductive Polls : ReadPos → List (Res BarcError (Option Record)) → ReadPos → Prop
  | start (rp : ReadPos) : Polls rp [] rp
  | call {rp rp₁ rp₂ : ReadPos} {xs : List (Res BarcError (Option Record))}
      {x : Res BarcError (Option Record)} (run : Polls rp xs rp₁) (whole : HeadWhole rp₁.file.env)
      (read : read cr tune rp₁ = (x, rp₂)) : Polls rp (xs ++ [x]) rp₂

/-- The records among the results. -/
def received (xs : List (Res BarcError (Option Record))) : List Record :=
  xs.filterMap fun
    | .ok r => r
    | _ => none

/-- The writes of a file's environment before its last events. -/
def doneBy (env left : List Event) : List FileOp :=
  (env.take (env.length - left.length)).flatMap Event.ops

/-- The reader's invariant: it stands after `got` records, and they are done. -/
structure Follows (env : List Event) (es : List Entry) (got : Nat) (rp : ReadPos) : Prop where
  le : got ≤ es.length
  later : ∃ n, rp.file = (⟨[], env⟩ : File).skip n
  pos_eq : rp.pos = (archive ((es.take got).map Entry.frame)).length
  done : journal 0 (es.take got) <+: doneBy env rp.file.env

variable {cr tune}

theorem doneBy_drop (env : List Event) (n : Nat) :
    doneBy env (env.drop n) = (env.take n).flatMap Event.ops := by
  rw [doneBy, List.length_drop, Nat.sub_sub_eq_min, Nat.min_comm, ← List.take_eq_take_min]

/-- The file as its environment began, some events later. -/
abbrev atEvent (env : List Event) (n : Nat) : File := (⟨[], env⟩ : File).skip n

theorem doneBy_atEvent (env : List Event) (n : Nat) :
    doneBy env (atEvent env n).env = (env.take n).flatMap Event.ops := by
  rw [File.skip_env, doneBy_drop]

theorem doneBy_mono (env : List Event) {m n : Nat} (h : m ≤ n) :
    doneBy env (atEvent env m).env <+: doneBy env (atEvent env n).env := by
  obtain ⟨k, rfl⟩ := Nat.exists_eq_add_of_le h
  rw [doneBy_atEvent, doneBy_atEvent, List.take_add, List.flatMap_append]
  exact List.prefix_append _ _

section Seen

variable {env : List Event} {es : List Entry}

/-- What there is to see at an event. -/
theorem seen_atEvent (hfit : ∀ e ∈ es, e.head.Fits)
    (henv : env.flatMap Event.ops <+: journal 0 es) (n : Nat) :
    ∃ i tail, Seen [] es (doneBy env (atEvent env n).env) i tail ∧
      (atEvent env n).content = archive ((es.take i).map Entry.frame) ++ tail := by
  have hpre : (env.take n).flatMap Event.ops <+: journal ([] : Bytes).length es := by
    refine List.IsPrefix.trans ?_ henv
    conv_rhs => rw [← List.take_append_drop n env, List.flatMap_append]
    exact List.prefix_append _ _
  obtain ⟨i, tail, hseen⟩ := exists_seen hfit hpre
  refine ⟨i, tail, by rwa [doneBy_atEvent], ?_⟩
  have hcontent := hseen.content_eq
  rw [List.nil_append] at hcontent
  rw [File.skip_content, after, hcontent]

/-- The records after the first `got` of `i`, with the next one in front. -/
theorem archive_take {i got : Nat} (h : got ≤ i) :
    archive ((es.take i).map Entry.frame) = archive ((es.take got).map Entry.frame) ++
      archive (((es.take i).drop got).map Entry.frame) := by
  rw [← archive_append, ← List.map_append]
  conv_lhs => rw [← List.take_append_drop got (es.take i), List.take_take, Nat.min_eq_left h]

/-- **A record that is done stays**: once there are more than `got` records, the next one after
`got` is there at every later event. -/
theorem frame_stays (hfit : ∀ e ∈ es, e.head.Fits) (henv : env.flatMap Event.ops <+: journal 0 es)
    {i got n n' : Nat} {tail : Bytes} (hseen : Seen [] es (doneBy env (atEvent env n).env) i tail)
    (hlt : got < es.length) (hgot : got < i) (hn : n ≤ n') :
    es[got].frame.bytes <+:
      (atEvent env n').content.drop (archive ((es.take got).map Entry.frame)).length := by
  obtain ⟨i', tail', hseen', hcontent⟩ := seen_atEvent hfit henv n'
  have hi := hseen.mono hseen' (doneBy_mono env hn)
  have hlt' : got < (es.take i').length := by
    rw [List.length_take]
    omega
  rw [hcontent, archive_take (show got ≤ i' by omega), List.append_assoc, List.drop_left,
    List.drop_eq_getElem_cons hlt', List.map_cons, archive_cons, List.getElem_take,
    List.append_assoc]
  exact List.prefix_append _ _

/-! ## One call -/

/-- A reserved head is as good as the end of the file. -/
theorem read_reserved {rp rp₁ : ReadPos} {bs : Bytes}
    (hhead : readRecordHeadBuf rp = (.ok (bs.take v2HeadSize), rp₁))
    (hbs : bs = [] ∨ RecordHead.v2Reserve.format <+: bs) (hpos : bs = [] → rp₁.pos = rp.pos) :
    read cr tune rp = (.ok none, ⟨rp₁.file, rp.pos⟩) := by
  rcases hbs with hnil | ⟨z, hz⟩
  · have hrp₁ : rp₁ = ⟨rp₁.file, rp.pos⟩ := by
      rw [← hpos hnil]
    rw [hnil] at hhead
    have hnone : readRecordHead rp = (.ok none, rp₁) := by
      rw [readRecordHead, Prog.bind_of_ok hhead]
      rfl
    rw [read, Prog.get_bind, Prog.bind_of_ok hnone, ← hrp₁]
    rfl
  · have hfits := RecordHead.v2Reserve_fits
    have htake : bs.take v2HeadSize = RecordHead.v2Reserve.format := by
      rw [← hz, ← hfits.format_length, List.take_left]
    rw [htake] at hhead
    have hsome : readRecordHead rp = (.ok (some .v2Reserve), rp₁) := by
      rw [readRecordHead, Prog.bind_of_ok hhead, headOf_format hfits]
      rfl
    rw [read, Prog.get_bind, Prog.bind_of_ok hsome]
    rfl

/-- **One call of a reader that follows a writer.** Either it returns nothing and stays, and then
it has received all that is done by the time the call has ended; or it returns the next record. -/
theorem Follows.read (hcodec : cr.CodecLawful) {cs : List Contents}
    (hes : List.Forall₂ (fun e c => Frame.Reads cr tune (Entry.frame e) c) es cs)
    (hfair : ∀ e ∈ env, e.delivery.Fair) (henv : env.flatMap Event.ops <+: journal 0 es)
    {got : Nat} {rp : ReadPos} (h : Follows env es got rp)
    (hwhole : HeadWhole rp.file.env) {x : Res BarcError (Option Record)} {rp' : ReadPos}
    (call : BodyArchive.read cr tune rp = (x, rp')) :
    (x = .ok none ∧ Follows env es got rp' ∧ rp'.pos = rp.pos ∧
      ∀ k ≤ es.length, journal 0 (es.take k) <+: doneBy env rp'.file.env → k ≤ got) ∨
    (∃ r c, x = .ok (some r) ∧ cs[got]? = some c ∧ r.Holds c ∧ Follows env es (got + 1) rp') := by
  have hfit : ∀ e ∈ es, e.head.Fits := by
    intro e he
    obtain ⟨k, hk, rfl⟩ := List.getElem_of_mem he
    exact (hes.get hk (by rw [← hes.length_eq]; exact hk)).1.fits
  obtain ⟨file, p⟩ := rp
  obtain ⟨hle, ⟨m, hm⟩, hpos, hdone⟩ := h
  simp only at hm hpos hdone hwhole
  obtain ⟨n, hhead⟩ := readRecordHeadBuf_whole hwhole p
  have hlater : file.skip (n + 1) = atEvent env (m + (n + 1)) := by rw [hm, File.skip_skip]
  rw [hlater] at hhead
  generalize hj : m + (n + 1) = j at hlater hhead
  obtain ⟨i, tail, hseen, hcontent⟩ := seen_atEvent hfit henv j
  have hmono : doneBy env file.env <+: doneBy env (atEvent env j).env := by
    rw [hm]
    exact doneBy_mono env (by omega)
  have hgot : got ≤ i := hseen.last got hle (hdone.trans hmono)
  have hdrop : (atEvent env j).content.drop p =
      archive (((es.take i).drop got).map Entry.frame) ++ tail := by
    rw [hcontent, archive_take hgot, hpos, List.append_assoc, List.drop_left]
  rcases Nat.eq_or_lt_of_le hgot with heq | hlt
  · -- The next record is not there yet.
    left
    subst heq
    have hnone : (es.take got).drop got = [] := List.drop_of_length_le (by rw [List.length_take]; omega)
    rw [hnone, List.map_nil] at hdrop
    have htail : (atEvent env j).content.drop p = tail := hdrop
    have hsize : tail = [] ∨ v2HeadSize ≤ tail.length := by
      refine hseen.tail_eq.imp id fun hr => ?_
      rw [← RecordHead.v2Reserve_fits.format_length]
      exact hr.length_le
    have hread := @read_reserved cr tune ⟨file, p⟩ _ tail (hhead tail htail.symm hsize)
      hseen.tail_eq (fun hnil => by rw [hnil]; rfl)
    rw [call] at hread
    obtain ⟨rfl, rfl⟩ := Prod.mk.inj hread
    exact ⟨rfl, ⟨hle, ⟨j, rfl⟩, hpos, hdone.trans hmono⟩, rfl, hseen.last⟩
  · -- The next record is there, and stays.
    right
    have hlen : got < es.length := by
      have := hseen.le
      omega
    have hlen' : got < cs.length := by
      rw [← hes.length_eq]
      exact hlen
    obtain ⟨hl, hr⟩ : Frame.Reads cr tune es[got].frame cs[got] := hes.get hlen hlen'
    have hstay (k : Nat) (hk : j ≤ k) :
        es[got].frame.bytes <+: (atEvent env k).content.drop p := by
      rw [hpos]
      exact frame_stays hfit henv hseen hlen hlt hk
    have hnext : (archive ((es.take (got + 1)).map Entry.frame)).length =
        p + es[got].frame.bytes.length := by
      rw [List.take_succ_eq_append_getElem hlen, List.map_append, archive_append,
        List.length_append, hpos]
      simp [archive]
    have hcommitted : journal 0 (es.take (got + 1)) <+: doneBy env (atEvent env j).env :=
      (journal_take 0 es hlt).trans hseen.committed
    generalize es[got].frame = fr at hl hr hstay hnext
    have hformat := Laid.format_length hl
    obtain ⟨z, hz⟩ := hstay j (Nat.le_refl j)
    rw [Frame.bytes, List.append_assoc] at hz
    have hhead' := hhead _ hz (.inr (by rw [List.length_append, hformat]; omega))
    rw [← hformat, List.take_left, hformat] at hhead'
    have hsome : readRecordHead (⟨file, p⟩ : ReadPos) =
        (.ok (some fr.head), ⟨atEvent env j, p + v2HeadSize⟩) := by
      rw [readRecordHead, Prog.bind_of_ok hhead', headOf_format hl.fits]
      rfl
    have hrest : Rest (⟨atEvent env j, p + v2HeadSize⟩ : ReadPos) (p + v2HeadSize)
        (fr.payload ++ []) .more := by
      refine ⟨rfl, File.skip_fair j (show File.Fair ⟨[], env⟩ from hfair), fun c hc => ?_⟩
      obtain ⟨k, rfl⟩ := hc
      obtain ⟨z', hz'⟩ := hstay (j + k) (Nat.le_add_right j k)
      rw [← File.skip_content, File.skip_skip, List.append_nil, ← List.drop_drop, ← hz', Frame.bytes,
        List.append_assoc, ← hformat, List.drop_left]
      exact List.prefix_append _ _
    obtain ⟨hok, -⟩ := @readRecord_laid cr tune hcodec _ _ _ _ _ _ _ hl hrest
    obtain ⟨r, rp₂, hread, hholds, hrest₂⟩ := hok hr
    have hkept := preserves_readRecord cr tune (File.stable_later (atEvent env j)) p fr.head
      ⟨atEvent env j, p + v2HeadSize⟩ ⟨0, rfl⟩
    rw [hread] at hkept
    obtain ⟨k, hk⟩ := hkept
    have hk' : rp₂.file = atEvent env (j + k) := hk.trans (File.skip_skip j k _)
    rw [BodyArchive.read, Prog.get_bind, Prog.bind_of_ok hsome] at call
    have hcall := call.symm.trans hread
    obtain ⟨rfl, rfl⟩ := Prod.mk.inj hcall
    refine ⟨r, cs[got], rfl, List.getElem?_eq_getElem hlen', hholds, hlen, ⟨j + k, hk'⟩, ?_, ?_⟩
    · rw [(ReadPos.rest_iff.mp hrest₂).pos_eq, hnext, Frame.Holds.bytes_length hl, Nat.add_assoc]
    · rw [hk']
      exact hcommitted.trans (doneBy_mono env (Nat.le_add_right j k))

/-- **Any calls** of a reader from the start leave it following the writer. -/
theorem Polls.follows (hcodec : cr.CodecLawful) {cs : List Contents}
    (hes : List.Forall₂ (fun e c => Frame.Reads cr tune (Entry.frame e) c) es cs)
    (hfair : ∀ e ∈ env, e.delivery.Fair) (henv : env.flatMap Event.ops <+: journal 0 es)
    {xs : List (Res BarcError (Option Record))} {rp : ReadPos}
    (run : Polls cr tune ⟨⟨[], env⟩, 0⟩ xs rp) :
    Follows env es (received xs).length rp := by
  induction run with
  | start => exact ⟨Nat.zero_le _, ⟨0, rfl⟩, rfl, List.nil_prefix⟩
  | call run whole read ih =>
    rcases ih.read hcodec hes hfair henv whole read with
      ⟨rfl, hfollows, -⟩ | ⟨r, c, rfl, -, -, hfollows⟩
    · simpa [received] using hfollows
    · simpa [received] using hfollows

end Seen

end Session

/-! ## The session -/

/-- **One writer, and a reader.** Records are written one after the other to an empty file, and
each can be read from its offset once all are written. Let the same writes, with each payload in
any pieces, come between the calls of a reader at the start of the file in any way. Then each call
of `read` returns the next record, in the order of writing; or it returns nothing and leaves the
position alone, and then the reader has received every record whose writes are done when the call
ends. -/
theorem concurrent_read {cr : Crates} {tune : Tunables} (hcodec : cr.CodecLawful) (jobs : List Job)
    {f f' : OutFile} {offsets : List Nat} (hf : f.Calm) (hempty : f.content = []) (hlog : f.log = [])
    (hw : writeAllRecords cr (jobs.map fun j => (j.record, j.enc)) f = (.ok offsets, f'))
    (halone : ∀ (i o : Nat) (j : Job), offsets[i]? = some o → jobs[i]? = some j →
      ∃ r rp, read cr tune ⟨File.quiet f'.content, o⟩ = (.ok (some r), rp) ∧ r.Holds j.contents) :
    ∃ es, f'.log = journal 0 es ∧
      ∀ es' : List Entry, es'.map Entry.frame = es.map Entry.frame →
      ∀ env : List Event, (∀ e ∈ env, e.delivery.Fair) → env.flatMap Event.ops <+: journal 0 es' →
      ∀ xs rp₁ x rp₂, Polls cr tune ⟨⟨[], env⟩, 0⟩ xs rp₁ → HeadWhole rp₁.file.env →
        read cr tune rp₁ = (x, rp₂) →
        (x = .ok none ∧ rp₂.pos = rp₁.pos ∧
          ∀ k ≤ jobs.length, journal 0 (es'.take k) <+: doneBy env rp₂.file.env →
            k ≤ (received xs).length) ∨
        (∃ r j, x = .ok (some r) ∧ jobs[(received xs).length]? = some j ∧ r.Holds j.contents) := by
  obtain ⟨es, -, hoffsets, hcontent, hlog', hall⟩ := writeAllRecords_journal jobs hf hw
  rw [hempty, List.nil_append] at hcontent
  rw [hlog, hempty, List.nil_append] at hlog'
  rw [hempty] at hoffsets
  refine ⟨es, hlog', fun es' hframes env hfair henv xs rp₁ x rp₂ run whole call => ?_⟩
  -- Every frame can be read, from what is read of it in the end.
  have hreads : List.Forall₂ (fun e (j : Job) => Frame.Reads cr tune (Entry.frame e) j.contents)
      es jobs := by
    refine List.forall₂_of_length_eq_of_get hall.length_eq fun i hi hj => ?_
    have hi' : i < (es.map Entry.frame).length := by simpa using hi
    have hheld : (es[i]).frame.Holds cr (jobs[i]).contents := (hall.get hi hj).1
    obtain ⟨r, rp, hread, hholds⟩ := halone i _ jobs[i]
      (by rw [hoffsets]; exact starts_get 0 _ i hi') (List.getElem?_eq_getElem hj)
    have hrest := (ReadPos.steady_own (File.quiet_own f'.content)
      (0 + (archive ((es.map Entry.frame).take i)).length)).rest
    simp only [File.quiet_content, Nat.zero_add] at hrest hread
    rw [hcontent, archive_drop _ i hi', List.getElem_map] at hrest
    rw [hcontent] at hread
    exact reads_of_read hcodec hheld hrest hread hholds
  have hreads' : List.Forall₂ (fun e c => Frame.Reads cr tune (Entry.frame e) c) es'
      (jobs.map Job.contents) := by
    have hmapped : List.Forall₂ (Frame.Reads cr tune) (es.map Entry.frame) (jobs.map Job.contents) :=
      List.forall₂_map_left_iff.mpr (List.forall₂_map_right_iff.mpr hreads)
    rw [← hframes] at hmapped
    exact List.forall₂_map_left_iff.mp hmapped
  have hlen : es'.length = jobs.length := by
    rw [hreads'.length_eq, List.length_map]
  rcases (run.follows hcodec hreads' hfair henv).read hcodec hreads' hfair henv whole call with
    ⟨rfl, -, hpos, hlast⟩ | ⟨r, c, rfl, hc, hholds, -⟩
  · exact .inl ⟨rfl, hpos, by rwa [hlen] at hlast⟩
  · rw [List.getElem?_map, Option.map_eq_some_iff] at hc
    obtain ⟨j, hj, rfl⟩ := hc
    exact .inr ⟨r, j, rfl, hj, hholds⟩

/-- Valid jobs can be read once they are written. -/
theorem read_valid {cr : Crates} {tune : Tunables} (hcr : cr.HeadersLawful)
    (hcodec : cr.CodecLawful) (htemp : tune.TempOk) {jobs : List Job}
    (hjobs : ∀ j ∈ jobs, j.Valid cr tune) {f f' : OutFile} {offsets : List Nat} (hf : f.Calm)
    (hempty : f.content = [])
    (hw : writeAllRecords cr (jobs.map fun j => (j.record, j.enc)) f = (.ok offsets, f'))
    (i o : Nat) (j : Job) (ho : offsets[i]? = some o) (hj : jobs[i]? = some j) :
    ∃ r rp, read cr tune ⟨File.quiet f'.content, o⟩ = (.ok (some r), rp) ∧ r.Holds j.contents := by
  obtain ⟨fs, hoffsets, hcontent, hall⟩ := writeAllRecords_frames jobs hf hempty hw
  have hreads := reads_of_readable hall fun j hj => (hjobs j hj).readable hcr htemp
  have hi : i < (jobs.map Job.contents).length := by
    rw [List.length_map]
    exact (List.getElem?_eq_some_iff.mp hj).1
  have hsteady := ReadPos.steady_own (File.quiet_own f'.content) o
  rw [File.quiet_content, hcontent] at hsteady
  obtain ⟨rs, hvisits, hvisited⟩ := visits_archive hcodec hreads [i]
    (fun k hk => by rw [List.mem_singleton.mp hk]; exact hi) hsteady
  cases hvisits with
  | @next _ rp₁ rp₂ _ o' r _ _ ho' hseek hread rest =>
    have hsame : some o' = some o := by
      rw [← ho', ← ho, hoffsets]
    cases hsame
    cases hseek
    cases hvisited with
    | cons hc _ =>
      obtain ⟨c, hc, hholds⟩ := hc
      rw [List.getElem?_map, hj] at hc
      cases hc
      rw [hcontent]
      exact ⟨r, rp₂, hread, hholds⟩

/-- The sample session: the first call comes after any number of the writes, in the middle of a record
or not, and the others are done by the second one. -/
theorem sampleJobs_concurrent :
    ∃ offsets f', writeAllRecords sampleCrates (sampleJobs.map fun j => (j.record, j.enc))
        OutFile.empty = (.ok offsets, f') ∧
      ∀ k x rp, read sampleCrates (Sample.tunables 2 3 (by decide))
          ⟨⟨[], [⟨f'.log.take k, .full⟩, ⟨f'.log.drop k, .full⟩]⟩, 0⟩ = (x, rp) →
        (x = .ok none ∧ rp.pos = 0) ∨ (∃ r, x = .ok (some r) ∧ r.Holds Sample.contents) := by
  obtain ⟨offsets, f', hw⟩ :=
    writeAllRecords_ok sampleJobs (fun j hj => (sampleJobs_valid j hj).fits) OutFile.empty_calm
  obtain ⟨es, hlog, hsession⟩ := concurrent_read sampleCrates_codecLawful sampleJobs
    OutFile.empty_calm rfl rfl hw
    (read_valid sampleCrates_headersLawful sampleCrates_codecLawful
      (Sample.tunables_tempOk (by decide)) sampleJobs_valid OutFile.empty_calm rfl hw)
  refine ⟨offsets, f', hw, fun k x rp hread => ?_⟩
  have hfair : ∀ e ∈ [Event.mk (f'.log.take k) .full, ⟨f'.log.drop k, .full⟩], e.delivery.Fair := by
    simp [Delivery.Fair]
  have hwrites : [Event.mk (f'.log.take k) .full, ⟨f'.log.drop k, .full⟩].flatMap Event.ops <+:
      journal 0 es := by
    rw [← hlog]
    simp
  rcases hsession es rfl _ hfair hwrites [] _ x rp (.start _) trivial hread with
    ⟨hnone, hpos, -⟩ | ⟨r, j, hsome, hj, hholds⟩
  · exact .inl ⟨hnone, hpos⟩
  · cases hj
    exact .inr ⟨r, hsome, hholds⟩

end BodyArchive
