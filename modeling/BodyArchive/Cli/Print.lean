import BodyArchive.Cli.Copy
import BodyArchive.Cli.Offsets

/-!
# Printing

What `barc cat` prints of an archive depends only on the contents of its records and on where they
lie, not on how they are compressed (`cat_prints`). Header blocks are printed with the empty line after
them, also those of compressed records, which are stored without it; so a block that just fits in a
compressed record is too long to be printed, and `cat` panics on it.

The offset in the line before a record is what `--offset` takes: given back with a count of one, it
prints the same entry again (`printed_offset_prints`).
-/

namespace BodyArchive.Cli

/-! ## The text of an entry -/

/-- A part, if it is to be printed. -/
def shown (present : Bool) (bs : Bytes) : Bytes := if present then bs else []

/-- What is printed of the contents of a record. -/
def partsText (parts : Parts) (c : Contents) : Bytes :=
  shown parts.metaH (block true c.metaHeaders) ++ shown parts.reqHead (block true c.reqHeaders) ++
    shown parts.reqBody (pad true c.reqBody) ++ shown parts.resHead (block true c.resHeaders) ++
    shown parts.resBody (pad true c.resBody)

/-- What is printed of a record, with the offset that is shown for it. -/
def entryText (barcPath : Bytes) (parts : Parts) (e : Nat × Contents) : Bytes :=
  recordLine barcPath e.1 ++ [10] ++ partsText parts e.2

/-- The header blocks to be printed are within the limit, with the empty line after them. -/
structure Printable (parts : Parts) (c : Contents) : Prop where
  meta_le : parts.metaH = true → (block true c.metaHeaders).length ≤ v2MaxHblock
  req_le : parts.reqHead = true → (block true c.reqHeaders).length ≤ v2MaxHblock
  res_le : parts.resHead = true → (block true c.resHeaders).length ≤ v2MaxHblock

/-- The limits in the order of the assertions. -/
theorem printable_iff (parts : Parts) (c : Contents) :
    ((parts.metaH = true → (block true c.metaHeaders).length ≤ v2MaxHblock) ∧
      (parts.reqHead = true → (block true c.reqHeaders).length ≤ v2MaxHblock) ∧
      (parts.resHead = true → (block true c.resHeaders).length ≤ v2MaxHblock) ∧ True) ↔
      Printable parts c :=
  ⟨fun ⟨h₁, h₂, h₃, _⟩ => ⟨h₁, h₂, h₃⟩, fun ⟨h₁, h₂, h₃⟩ => ⟨h₁, h₂, h₃, trivial⟩⟩

section Print

variable {W : Type} [Write W] {G : W → Bytes → Prop}

theorem println_accepts (hG : Accepts G) {w : W} {got : Bytes} (hw : G w got) (text : Bytes) :
    ∃ w', println text w = ((.ok () : Res Flaw Unit), w') ∧ G w' (got ++ (text ++ [10])) := by
  obtain ⟨w', h, hw'⟩ := hG w got (text ++ [10]) hw
  refine ⟨w', ?_, hw'⟩
  rw [println, h]

theorem printHeaders_accepts (hG : Accepts G) {w : W} {got : Bytes} (hw : G w got) (present : Bool)
    (headers : HeaderMap) :
    Prog.OkElsePanic (present = true → (block true headers).length ≤ v2MaxHblock)
      (fun _ w' => G w' (got ++ shown present (block true headers)))
      (printPart present (writeHeaders true headers) w) := by
  cases present with
  | false => exact .inl ⟨fun h => (Bool.false_ne_true h).elim, (), w, rfl, by simpa [shown] using hw⟩
  | true =>
    rcases writeHeaders_accepts hG hw true headers with ⟨hle, n, w', h, -, hw'⟩ | ⟨hlong, msg, w', h⟩
    · refine .inl ⟨fun _ => hle, (), w', ?_, hw'⟩
      exact Prog.bind_of_ok (Prog.mapErr_of_ok h)
    · refine .inr ⟨fun hle => hlong (hle rfl), msg, w', ?_⟩
      have hpanic : Prog.mapErr Flaw.barc (writeHeaders true headers) w = (.panic msg, w') := by
        rw [Prog.mapErr, h]
      exact Prog.bind_of_panic hpanic

theorem printBody_accepts (hG : Accepts G) {w : W} {got : Bytes} (hw : G w got) (present : Bool)
    {body : BodyImage} {bs : Bytes} (hb : body.Backs bs) :
    ∃ w', printPart present (writeBody true body) w = ((.ok () : Res Flaw Unit), w') ∧
      G w' (got ++ shown present (pad true bs)) := by
  cases present with
  | false => exact ⟨w, rfl, by simpa [shown] using hw⟩
  | true =>
    obtain ⟨w', h, hw'⟩ := writeBody_accepts hG hw true hb
    exact ⟨w', Prog.bind_of_ok (Prog.mapErr_of_ok h), hw'⟩

/-- **One record** is printed, if its blocks are within the limit. -/
theorem printRecord_accepts (hG : Accepts G) {w : W} {got : Bytes} (hw : G w got) (barcPath : Bytes)
    (parts : Parts) (off : Nat) {rec : Record} {c : Contents} (hr : rec.Holds c) :
    Prog.OkElsePanic (Printable parts c)
      (fun _ w' => G w' (got ++ entryText barcPath parts (off, c)))
      (printRecord barcPath parts off rec w) := by
  obtain ⟨-, hmeta, hreq, hreqB, hres, hresB⟩ := hr
  refine Prog.OkElsePanic.congr ?_ (printable_iff parts c)
  rw [printRecord, hmeta, hreq, hres]
  obtain ⟨w₁, h₁, hw₁⟩ := println_accepts hG hw (recordLine barcPath off)
  refine Prog.OkElsePanic.bind_ok h₁ ?_
  refine (printHeaders_accepts hG hw₁ parts.metaH c.metaHeaders).bind ?_
  rintro - - w₂ hw₂
  refine (printHeaders_accepts hG hw₂ parts.reqHead c.reqHeaders).bind ?_
  rintro - - w₃ hw₃
  obtain ⟨w₄, h₄, hw₄⟩ := printBody_accepts hG hw₃ parts.reqBody hreqB
  refine Prog.OkElsePanic.bind_ok h₄ ?_
  refine (printHeaders_accepts hG hw₄ parts.resHead c.resHeaders).bind ?_
  rintro - - w₅ hw₅
  obtain ⟨w₆, h₆, hw₆⟩ := printBody_accepts hG hw₅ parts.resBody hresB
  refine .inl ⟨trivial, (), w₆, h₆, ?_⟩
  simpa only [entryText, partsText, List.append_assoc] using hw₆

/-- **Records are printed** one after the other, up to the first with a block over the limit. -/
theorem emitAll_prints (hG : Accepts G) (barcPath : Bytes) (parts : Parts) {recs : List (Nat × Record)}
    {es : List (Nat × Contents)}
    (hes : List.Forall₂ (fun r e => r.1 = e.1 ∧ Record.Holds r.2 e.2) recs es) {w : W} {got : Bytes}
    (hw : G w got) :
    Prog.OkElsePanic (∀ e ∈ es, Printable parts e.2)
      (fun _ w' => G w' (got ++ es.flatMap (entryText barcPath parts)))
      (emitAll (printRecord barcPath parts) recs w) := by
  induction hes generalizing w got with
  | nil => exact .inl ⟨fun e he => absurd he List.not_mem_nil, (), w, rfl, by simpa using hw⟩
  | @cons r e recs es hre _ ih =>
    obtain ⟨off, rec⟩ := r
    obtain ⟨off', c⟩ := e
    obtain ⟨rfl, hholds⟩ : off = off' ∧ rec.Holds c := hre
    have hall : (Printable parts c ∧ ∀ e ∈ es, Printable parts e.2) ↔
        ∀ e ∈ (off, c) :: es, Printable parts e.2 := by rw [List.forall_mem_cons]
    refine Prog.OkElsePanic.congr
      ((printRecord_accepts hG hw barcPath parts off hholds).bind ?_) hall
    rintro - - w₁ hw₁
    rw [List.flatMap_cons, ← List.append_assoc]
    exact ih hw₁

end Print

/-! ## The entries of an archive -/

/-- The entries that are shown: what is selected, from the record `k` on, the first with the position
where reading starts, and the others with their own. -/
def entries (start : StartPos) (count k : Nat) (fs : List Frame) (cs : List Contents) :
    List (Nat × Contents) :=
  (start.position :: (starts 0 fs).drop (k + 1)).zip (selected start count k cs)

section Entries

variable {cr : Crates} {tempDir : TempDir} {disk : Disk} {barcPath : Bytes}

/-- What is handed on of records that hold some contents: the first with the offset of the loop, the
others with the offsets behind the records before them. -/
theorem emitted_entries (start : StartPos) (count i off : Nat) {recs : List (Record × Nat)}
    {cs : List Contents} (h : List.Forall₂ Record.Holds (recs.map Prod.fst) cs) :
    List.Forall₂ (fun r e => r.1 = e.1 ∧ Record.Holds r.2 e.2) (emitted start count i off recs)
      ((off :: (recs.map Prod.snd).drop (start.toSkip - i)).zip
        ((cs.drop (start.toSkip - i)).take (count - max i start.toSkip))) := by
  induction recs generalizing i off cs with
  | nil =>
    cases h
    simp [emitted]
  | cons r recs ih =>
    obtain ⟨rec, next⟩ := r
    cases h with
    | @cons _ c _ cs hc hcs =>
      rw [emitted]
      by_cases hskip : i < start.toSkip
      · obtain ⟨n, hn⟩ : ∃ n, start.toSkip - i = n + 1 := ⟨start.toSkip - i - 1, by omega⟩
        have hrest := ih (i + 1) off hcs
        rw [show start.toSkip - (i + 1) = n by omega,
          show max (i + 1) start.toSkip = max i start.toSkip by omega] at hrest
        rw [if_pos hskip, hn, List.map_cons, List.drop_succ_cons, List.drop_succ_cons]
        exact hrest
      · have hzero : start.toSkip - i = 0 := by omega
        rw [if_neg hskip, hzero, List.drop_zero, List.drop_zero]
        by_cases hcount : count < i + 1
        · have hnone : count - max i start.toSkip = 0 := by omega
          rw [if_pos hcount, hnone, List.take_zero, List.zip_nil_right]
          exact .nil
        · obtain ⟨n, hn⟩ : ∃ n, count - max i start.toSkip = n + 1 :=
            ⟨count - max i start.toSkip - 1, by omega⟩
          have hrest := ih (i + 1) next hcs
          rw [show start.toSkip - (i + 1) = 0 by omega, List.drop_zero, List.drop_zero,
            show count - max (i + 1) start.toSkip = n by omega] at hrest
          rw [if_neg hcount, hn, List.take_succ_cons, List.map_cons, List.zip_cons_cons]
          exact .cons ⟨rfl, hc⟩ hrest

/-- The offsets behind the records of a sequence are those of the records after them. -/
theorem behind_snd (rs : List (Nat × Record)) (last : Nat) :
    (behind rs last).map Prod.snd = (rs.map Prod.fst).drop 1 ++ List.replicate (min 1 rs.length) last := by
  induction rs with
  | nil => rfl
  | cons r rs ih =>
    rw [behind, List.map_cons, ih]
    cases rs <;> simp

theorem starts_drop (p : Nat) (fs : List Frame) (n : Nat) :
    (starts p fs).drop n = starts (p + (archive (fs.take n)).length) (fs.drop n) := by
  induction fs generalizing p n with
  | nil => simp [starts]
  | cons f fs ih =>
    cases n with
    | zero => simp [archive]
    | succ n =>
      rw [starts, List.drop_succ_cons, ih, List.take_succ_cons, archive_cons, List.length_append,
        Nat.add_assoc, List.drop_succ_cons]

theorem bind_ofRes_ok {σ ε : Type} (m : Prog σ ε Unit) (s : σ) :
    (m >>= fun _ => Prog.ofRes (.ok ())) s = m s := by
  rcases hm : m s with ⟨u | e | msg, s'⟩
  · exact Prog.bind_of_ok hm
  · exact Prog.bind_of_err hm
  · exact Prog.bind_of_panic hm

/-- What follows a list is not reached by a shorter one. -/
theorem zip_append_short {α β : Type} {as : List α} (bs : List α) {cs : List β}
    (h : cs.length ≤ as.length) : (as ++ bs).zip cs = as.zip cs := by
  induction as generalizing cs with
  | nil => rw [List.eq_nil_of_length_eq_zero (Nat.le_zero.mp h), List.zip_nil_right, List.zip_nil_right]
  | cons a as ih =>
    cases cs with
    | nil => rfl
    | cons c cs => rw [List.cons_append, List.zip_cons_cons, List.zip_cons_cons, ih (by simpa using h)]

/-- The offsets that the loop shows, for an archive from its frame `n` on. -/
theorem entries_eq {start : StartPos} {count n : Nat} {fs : List Frame} {cs : List Contents}
    (hfs : List.Forall₂ (Frame.Holds cr) fs cs) (hstart : start.position = (archive (fs.take n)).length)
    {rs : List Record} (hrs : rs.length = (fs.drop n).length) (last : Nat) :
    (start.position :: ((behind ((starts start.position (fs.drop n)).zip rs) last).map
      Prod.snd).drop (start.toSkip - 0)).zip
      (((cs.drop n).drop (start.toSkip - 0)).take (count - max 0 start.toSkip)) =
    entries start count (n + start.toSkip) fs cs := by
  have hfst : ((starts start.position (fs.drop n)).zip rs).map Prod.fst = (starts 0 fs).drop n := by
    rw [List.map_fst_zip (by rw [starts_length, hrs]), starts_drop, Nat.zero_add, hstart]
  have hlen : ((starts 0 fs).drop n).length = cs.length - n := by
    rw [List.length_drop, starts_length, hfs.length_eq]
  rw [behind_snd, hfst, Nat.sub_zero, Nat.zero_max, entries, selected, List.drop_drop,
    List.drop_append, List.drop_drop, List.drop_drop, ← List.cons_append]
  rw [Nat.add_right_comm n 1 start.toSkip]
  apply zip_append_short
  rw [List.length_cons, List.length_drop, List.length_take, List.length_drop, starts_length,
    hfs.length_eq]
  omega

/-- The contents of the entries are what is selected. -/
theorem entries_snd (start : StartPos) (count k : Nat) {fs : List Frame} {cs : List Contents}
    (hlen : fs.length = cs.length) :
    (entries start count k fs cs).map Prod.snd = selected start count k cs := by
  rw [entries]
  apply List.map_snd_zip
  rw [selected, List.length_take, List.length_drop, List.length_cons, List.length_drop,
    starts_length, hlen]
  omega

/-- **What the commands do with a file**, from what is read of it: each hands on the entries, from the
frame `n` on. -/
theorem commands_reads {file : File} (hdisk : disk barcPath = .ok file) {start : StartPos} {n : Nat}
    {fs : List Frame} {cs : List Contents} (hfs : List.Forall₂ (Frame.Holds cr) fs cs)
    (hpos : start.position = (archive (fs.take n)).length) {rs : List Record} {rp rp' : ReadPos}
    (hreads : BodyArchive.Reads cr (Tunables.new tempDir) ⟨file, start.position⟩
      ((starts start.position (fs.drop n)).zip rs) rp)
    (hall : List.Forall₂ Record.Holds rs (cs.drop n))
    (hlast : read cr (Tunables.new tempDir) rp = (.ok none, rp')) (count : Nat) :
    ∃ recs : List (Nat × Record),
      List.Forall₂ (fun r e => r.1 = e.1 ∧ Record.Holds r.2 e.2) recs
        (entries start count (n + start.toSkip) fs cs) ∧
      (∀ (W : Type) [Write W] (parts : Parts) (out : W),
        cat cr tempDir disk barcPath start count parts out =
          emitAll (printRecord barcPath parts) recs out) ∧
      ∀ (barcOut : Bytes) (strategy : Record → Encoder) (out : OutFile), barcPath ≠ barcOut →
        cp cr tempDir disk barcPath barcOut start count strategy out =
          emitAll (copyRecord cr strategy) recs out := by
  have hnone : ∀ r : Record, (.ok none : Res BarcError (Option Record)) ≠ .ok (some r) := by
    intro r hr
    cases hr
  obtain ⟨ending, hending, hloop⟩ := select_reads hreads hlast hnone start count 0 start.position
  have hok : ending = .ok () := by
    rcases hending with h | h <;> exact h
  have hselect (σ : Type) (emit : Nat → Record → Prog σ Flaw Unit) (out : σ) :
      (Prog.ofRes (openReader disk barcPath) >>= fun reader =>
        Prog.withLocal reader (select cr (Tunables.new tempDir) start count emit)) out =
      emitAll emit (emitted start count 0 start.position
        (behind ((starts start.position (fs.drop n)).zip rs) (offset rp))) out := by
    rw [← bind_ofRes_ok (emitAll _ _), ← hok, ← hloop σ emit out, openReader, hdisk]
    cases start with
    | index s => rfl
    | offset o => rfl
  have hlen : rs.length = (fs.drop n).length := by
    rw [hall.length_eq, (List.forall₂_drop n hfs).length_eq]
  have hzip : rs.length ≤ (starts start.position (fs.drop n)).length := by
    rw [starts_length, hlen]
  have hentries := emitted_entries start count 0 start.position
    (show List.Forall₂ Record.Holds ((behind ((starts start.position (fs.drop n)).zip rs)
      (offset rp)).map Prod.fst) (cs.drop n) by rwa [behind_fst, List.map_snd_zip hzip])
  rw [entries_eq hfs hpos hlen] at hentries
  refine ⟨_, hentries, fun W _ parts out => hselect W _ out, ?_⟩
  intro barcOut strategy out hne
  rw [cp, if_neg hne]
  exact hselect OutFile _ out

/-- What `cat` prints of one file: its entries, if their blocks are within the limit, however their
records are compressed. Otherwise it panics. -/
theorem cat_archive (hcodec : cr.CodecLawful) (a : ArchiveFile cr (Tunables.new tempDir))
    (hdisk : disk barcPath = .ok a.file) {start : StartPos} {k : Nat} (hstart : start.Names a.frames k)
    (count : Nat) (parts : Parts) {W : Type} [Write W] {G : W → Bytes → Prop} (hG : Accepts G) {w : W}
    {got : Bytes} (hw : G w got) :
    Prog.OkElsePanic (∀ e ∈ entries start count k a.frames a.contents, Printable parts e.2)
      (fun _ w' => G w' (got ++
        (entries start count k a.frames a.contents).flatMap (entryText barcPath parts)))
      (cat cr tempDir disk barcPath start count parts w) := by
  obtain ⟨n, hn, hk⟩ : ∃ n, start.position = (archive (a.frames.take n)).length ∧
      k = n + start.toSkip := by
    cases start with
    | index s => exact ⟨0, rfl, (Nat.zero_add s).symm ▸ hstart⟩
    | offset o => exact ⟨k, hstart.2, rfl⟩
  have hrest : Rest (⟨a.file, start.position⟩ : ReadPos) start.position
      (archive (a.frames.drop n) ++ []) .eof := by
    have hr := ReadPos.rest_own a.own start.position
    have hsplit : archive a.frames = archive (a.frames.take n) ++ archive (a.frames.drop n) := by
      rw [← archive_append, List.take_append_drop]
    have hfrom : a.file.content.drop start.position = archive (a.frames.drop n) ++ [] := by
      rw [a.content_eq, hsplit, hn, List.drop_left, List.append_nil]
    rwa [hfrom] at hr
  obtain ⟨rs, rp, hreads, hall, hend⟩ := reads_archive hcodec (List.forall₂_drop n a.reads) hrest
  obtain ⟨rp', hlast, -⟩ := @read_end cr (Tunables.new tempDir) _ _ hend
  obtain ⟨recs, hentries, hcat, -⟩ := commands_reads hdisk (a.reads.imp fun f c hf => hf.1) hn hreads
    hall hlast count
  rw [hcat, hk]
  exact emitAll_prints hG barcPath parts hentries hw

/-! ## Several files -/

/-- How `cat` ends when it has come to these paths: there are none, or the first cannot be opened. -/
inductive CatEnds (disk : Disk) : List Bytes → Res Flaw Unit → Prop
  | done : CatEnds disk [] (.ok ())
  | missing {path : Bytes} {e : IoError} (rest : List Bytes) (h : disk path = .error e) :
      CatEnds disk (path :: rest) (.err (.barc (.io e)))

theorem CatEnds.run {rest : List Bytes} {x : Res Flaw Unit} (h : CatEnds disk rest x)
    (start : StartPos) (count : Nat) (parts : Parts) {W : Type} [Write W] (w : W) :
    (rest.forM fun f => cat cr tempDir disk f start count parts) w = (x, w) := by
  cases h with
  | done => rfl
  | @missing path e rest h =>
    have hcat : cat cr tempDir disk path start count parts w = (.err (.barc (.io e)), w) := by
      rw [cat, openReader, h]
      rfl
    exact Prog.bind_of_err hcat

/-- A file that `cat` can read, by its path. -/
structure IsShown (disk : Disk) (start : StartPos) (k : Nat)
    (input : Bytes × ArchiveFile cr (Tunables.new tempDir)) : Prop where
  disk_eq : disk input.1 = .ok input.2.file
  names : start.Names input.2.frames k

/-- **What `cat` prints**: the entries of its files, one file after the other, if their blocks are within
the limit, however their records are compressed; up to a file that is missing. Otherwise it panics. -/
theorem cat_prints (hcodec : cr.CodecLawful) {start : StartPos} {count k : Nat}
    {inputs : List (Bytes × ArchiveFile cr (Tunables.new tempDir))} {rest : List Bytes}
    {m : FilterArgs} (hfiles : m.files = inputs.map Prod.fst ++ rest)
    (hflags : filterFlags m = .ok (start, count)) (hinputs : ∀ i ∈ inputs, IsShown disk start k i)
    {x : Res Flaw Unit} (hrest : CatEnds disk rest x) (present : Parts) {W : Type} [Write W]
    {G : W → Bytes → Prop} (hG : Accepts G) {w : W} {got : Bytes} (hw : G w got) :
    ((∀ i ∈ inputs, ∀ e ∈ entries start count k i.2.frames i.2.contents,
        Printable (partFlags present) e.2) ∧
      ∃ w', runCat cr tempDir disk m present w = (x, w') ∧
        G w' (got ++ inputs.flatMap fun i =>
          (entries start count k i.2.frames i.2.contents).flatMap
            (entryText i.1 (partFlags present)))) ∨
    (¬ (∀ i ∈ inputs, ∀ e ∈ entries start count k i.2.frames i.2.contents,
        Printable (partFlags present) e.2) ∧
      ∃ msg w', runCat cr tempDir disk m present w = (.panic msg, w')) := by
  have hrun : runCat cr tempDir disk m present w =
      ((inputs.map Prod.fst ++ rest).forM fun f =>
        cat cr tempDir disk f start count (partFlags present)) w := by
    rw [runCat, hflags, hfiles]
    rfl
  rw [hrun]
  clear hrun hfiles
  induction inputs generalizing w got with
  | nil =>
    refine .inl ⟨fun i hi => absurd hi List.not_mem_nil, w, hrest.run start count _ w, ?_⟩
    rwa [List.flatMap_nil, List.append_nil]
  | cons i inputs ih =>
    have hi := hinputs i List.mem_cons_self
    rcases cat_archive hcodec i.2 hi.disk_eq hi.names count (partFlags present) hG hw with
      ⟨hprintable, u, w₁, hcat, hw₁⟩ | ⟨hnot, msg, w₁, hcat⟩
    · have hstep : (((i :: inputs).map Prod.fst ++ rest).forM fun f =>
          cat cr tempDir disk f start count (partFlags present)) w =
          ((inputs.map Prod.fst ++ rest).forM fun f =>
            cat cr tempDir disk f start count (partFlags present)) w₁ := Prog.bind_of_ok hcat
      rw [hstep, List.forall_mem_cons, List.flatMap_cons, ← List.append_assoc]
      rcases ih (fun j hj => hinputs j (List.mem_cons_of_mem _ hj)) hw₁ with ⟨hall, h⟩ | ⟨hnot, h⟩
      · exact .inl ⟨⟨hprintable, hall⟩, h⟩
      · exact .inr ⟨fun hall => hnot hall.2, h⟩
    · exact .inr ⟨fun hall => hnot (hall i List.mem_cons_self), msg, w₁, Prog.bind_of_panic hcat⟩

end Entries

/-! ## Offsets given back -/

/-- Reading digits onto a value makes it no smaller. -/
theorem le_of_parseHexFrom {bs : Bytes} {v n : Nat} (h : parseHexFrom v bs = .ok n) : v ≤ n := by
  induction bs generalizing v with
  | nil =>
    cases h
    exact Nat.le_refl _
  | cons d ds ih =>
    rw [parseHexFrom] at h
    split at h
    · next x hx =>
      have hle := ih h
      omega
    · cases h

theorem toDigit_hexDigit : ∀ {d : Nat}, d < 16 → toDigit 16 (hexDigit d) = some d := by
  decide

/-- Digits that are lowercase are read alike by both parsers, up to the limit. -/
theorem fromDigits_of_parseHex {limit : Nat} {bs : Bytes} {v n : Nat}
    (h : parseHexFrom v bs = .ok n) (hn : n ≤ limit) : fromDigits 16 limit v bs = .ok n := by
  induction bs generalizing v with
  | nil =>
    cases h
    rfl
  | cons d ds ih =>
    rw [parseHexFrom] at h
    split at h
    · next x hx =>
      obtain ⟨rfl, hx16⟩ := hexDigit_hexVal hx
      have hle := le_of_parseHexFrom h
      rw [fromDigits, toDigit_hexDigit hx16]
      dsimp only
      rw [if_pos (Nat.le_trans hle hn)]
      exact ih h
    · cases h

/-- A number that is all digits has no sign. -/
theorem fromStrRadix_of_parseHex {limit : Nat} {bs : Bytes} {n : Nat} (hne : bs ≠ [])
    (h : parseHex bs = .ok n) (hn : n ≤ limit) : fromStrRadix 16 limit bs = .ok n := by
  have hdigits : fromDigits 16 limit 0 bs = .ok n := fromDigits_of_parseHex h hn
  unfold fromStrRadix
  split
  · exact absurd rfl hne
  · cases h
  · cases h
  · exact hdigits

/-- A number is printed in enough digits, whatever the width. -/
theorem parseHex_hexPad_wide (w n : Nat) : parseHex (hexPad w n) = .ok n ∧ hexPad w n ≠ [] := by
  have hlt : n < 16 ^ max w (n.log2 / 4 + 1) := by
    calc n < 2 ^ (n.log2 + 1) := Nat.lt_log2_self
      _ ≤ 2 ^ (4 * (n.log2 / 4 + 1)) := Nat.pow_le_pow_right (by decide) (by omega)
      _ = 16 ^ (n.log2 / 4 + 1) := by rw [Nat.pow_mul]
      _ ≤ 16 ^ max w (n.log2 / 4 + 1) :=
        Nat.pow_le_pow_right (by decide) (Nat.le_max_right _ _)
  have hpos : 0 < max w (n.log2 / 4 + 1) := by omega
  have hsame : hexPad w n = hexPad (max w (n.log2 / 4 + 1)) n := (hexPad_eq hpos hlt).symm
  rw [hsame]
  refine ⟨parseHex_hexPad hpos hlt, ?_⟩
  intro hnil
  have hlen := hexPad_length hpos hlt
  rw [hnil, List.length_nil] at hlen
  omega

/-- The text that an offset is shown as. -/
def offsetText (offset : Nat) : Bytes := ascii "0x" ++ hexPad 10 offset

/-- The arguments for one record of a file, by the text of its offset. -/
def oneAt (path : Bytes) (text : Bytes) : FilterArgs := ⟨[path], none, some text, some (ascii "1")⟩

/-- The line before a record shows this text. -/
theorem recordLine_offsetText (barcPath : Bytes) (offset : Nat) :
    recordLine barcPath offset = ascii "====== file " ++ padDash 38 barcPath ++ ascii " offset " ++
      offsetText offset ++ ascii " ======" := by
  have hsplit : ascii " offset 0x" = ascii " offset " ++ ascii "0x" := rfl
  rw [recordLine, offsetText, hsplit]
  simp only [List.append_assoc]

theorem filterFlags_oneAt (path : Bytes) {o : Nat} (ho : o < 2 ^ 64) :
    filterFlags (oneAt path (offsetText o)) = .ok (.offset o, 1) := by
  obtain ⟨hparse, hne⟩ := parseHex_hexPad_wide 10 o
  have hradix : fromStrRadix 16 (2 ^ 64 - 1) (hexPad 10 o) = .ok o :=
    fromStrRadix_of_parseHex hne hparse (by omega)
  have htake : (offsetText o).take 2 = ascii "0x" := rfl
  have hdrop : (offsetText o).drop 2 = hexPad 10 o := rfl
  have hoffset : offsetFlag (oneAt path (offsetText o)) .default = .ok (.offset o) := by
    show ((oneFile "--offset" [path]) >>= fun _ => _) = _
    rw [htake, if_pos rfl, hdrop, hradix]
    rfl
  show (offsetFlag (oneAt path (offsetText o)) .default >>= fun start => _) = _
  rw [hoffset]
  rfl

section Offsets

variable {cr : Crates} {tempDir : TempDir} {disk : Disk} {barcPath : Bytes}

/-- The entries of the whole archive are its records, each with its own offset. -/
theorem entries_all {fs : List Frame} {cs : List Contents} (hlen : fs.length = cs.length) {k : Nat}
    {e : Nat × Contents} (h : (entries .default usizeMax 0 fs cs)[k]? = some e) :
    k < fs.length ∧ e.1 = (archive (fs.take k)).length ∧ cs[k]? = some e.2 := by
  obtain ⟨hoff, hsel⟩ := List.getElem?_zip_eq_some.mp h
  have hc : cs[k]? = some e.2 := by
    rw [selected, List.drop_zero, List.getElem?_take] at hsel
    split at hsel
    · exact hsel
    · cases hsel
  have hk : k < fs.length := by
    rw [hlen]
    exact (List.getElem?_eq_some_iff.mp hc).1
  refine ⟨hk, ?_, hc⟩
  cases k with
  | zero => exact (Option.some.inj hoff).symm
  | succ k =>
    rw [List.getElem?_cons_succ, List.getElem?_drop, Nat.add_comm, Nat.add_comm 0 1,
      starts_get 0 fs (k + 1) hk, Nat.zero_add] at hoff
    exact (Option.some.inj hoff).symm

/-- **An offset is printed to be given back.** For every entry that `cat` shows of a whole archive, the
line before it has a text for the offset that, given to `--offset` with a count of one, shows that entry
and no other. -/
theorem printed_offset_prints (hcodec : cr.CodecLawful) (a : ArchiveFile cr (Tunables.new tempDir))
    (hlen : a.file.content.length < 2 ^ 64) (hdisk : disk barcPath = .ok a.file) {k : Nat}
    {e : Nat × Contents} (he : (entries .default usizeMax 0 a.frames a.contents)[k]? = some e)
    (present : Parts) {W : Type} [Write W] {G : W → Bytes → Prop} (hG : Accepts G) {w : W} {got : Bytes}
    (hw : G w got) :
    recordLine barcPath e.1 = ascii "====== file " ++ padDash 38 barcPath ++ ascii " offset " ++
      offsetText e.1 ++ ascii " ======" ∧
    Prog.OkElsePanic (Printable (partFlags present) e.2)
      (fun _ w' => G w' (got ++ entryText barcPath (partFlags present) e))
      (runCat cr tempDir disk (oneAt barcPath (offsetText e.1)) present w) := by
  refine ⟨recordLine_offsetText barcPath e.1, ?_⟩
  obtain ⟨hk, hoff, hc⟩ := entries_all a.reads.length_eq he
  have hbound : e.1 < 2 ^ 64 := by
    have hle : (archive (a.frames.take k)).length ≤ a.file.content.length := by
      have hsplit : archive a.frames = archive (a.frames.take k) ++ archive (a.frames.drop k) := by
        rw [← archive_append, List.take_append_drop]
      rw [a.content_eq, hsplit, List.length_append]
      omega
    omega
  have hone : entries (.offset e.1) 1 k a.frames a.contents = [e] := by
    have hdrop : a.contents.drop k = e.2 :: a.contents.drop (k + 1) := by
      obtain ⟨hk', hget⟩ := List.getElem?_eq_some_iff.mp hc
      rw [← hget]
      exact List.drop_eq_getElem_cons hk'
    rw [entries, selected, hdrop]
    simp [StartPos.position, StartPos.toSkip]
  have hprints := cat_archive hcodec a hdisk (show StartPos.Names a.frames k (.offset e.1) from
    ⟨Nat.le_of_lt hk, hoff⟩) 1 (partFlags present) hG hw
  rw [hone, List.flatMap_cons, List.flatMap_nil, List.append_nil] at hprints
  have hrun : runCat cr tempDir disk (oneAt barcPath (offsetText e.1)) present w =
      cat cr tempDir disk barcPath (.offset e.1) 1 (partFlags present) w := by
    rw [runCat, filterFlags_oneAt barcPath hbound]
    exact bind_ofRes_ok _ w
  rw [hrun]
  exact hprints.congr (by simp)

end Offsets

/-! ## Samples -/

/-- A disk that has the sample archive at one path. -/
def plainDisk : Disk := fun path => if path = [97] then .ok plainArchive.file else .error (.other 2)

/-- The sample archive, printed twice, and then a file that is missing. -/
theorem plainArchive_printed :
    runCat sampleCrates Tunables.calmDir plainDisk ⟨[[97], [97], [98]], none, none, none⟩ .falsie
      ([] : Bytes) =
      (.err (.barc (.io (.other 2))), entryText [97] .default (0, Sample.contents) ++
        entryText [97] .default (67, Sample.contents) ++
        (entryText [97] .default (0, Sample.contents) ++
          entryText [97] .default (67, Sample.contents))) := by
  have hentries : entries .default usizeMax 0 plainArchive.frames plainArchive.contents =
      [(0, Sample.contents), (67, Sample.contents)] := by decide +kernel
  have hinput : ∀ i ∈ [(([97] : Bytes), plainArchive), ([97], plainArchive)],
      IsShown plainDisk .default 0 i := by
    intro i hi
    obtain rfl : i = ([97], plainArchive) := by simpa using hi
    exact ⟨rfl, rfl⟩
  have hparts : partFlags .falsie = .default := rfl
  have hprints := cat_prints sampleCrates_codecLawful
    (show (⟨[[97], [97], [98]], none, none, none⟩ : FilterArgs).files = _ from rfl)
    (show filterFlags ⟨[[97], [97], [98]], none, none, none⟩ = .ok (.default, usizeMax) from rfl)
    hinput (.missing [] (show plainDisk [98] = .error (.other 2) from rfl)) .falsie
    (accepts_vec []) (show ([] : Bytes) = [] ++ [] from rfl)
  simp only [List.forall_mem_cons, List.flatMap_cons, List.flatMap_nil, List.append_nil, hentries,
    hparts] at hprints
  rcases hprints with ⟨-, w', h, hw'⟩ | ⟨hnot, -⟩
  · rw [h, hw']
    rfl
  · refine absurd ?_ hnot
    have hprintable : Printable .default Sample.contents :=
      ⟨fun _ => by decide +kernel, fun _ => by decide +kernel, fun _ => by decide +kernel⟩
    simp [hprintable]

/-- The second record of the sample archive, by the offset that is shown for it. -/
theorem plainArchive_second :
    runCat sampleCrates Tunables.calmDir plainDisk (oneAt [97] (ascii "0x0000000043")) .falsie
      ([] : Bytes) = (.ok (), entryText [97] .default (67, Sample.contents)) := by
  obtain ⟨-, hprints⟩ := printed_offset_prints sampleCrates_codecLawful plainArchive
    (by decide +kernel) (show plainDisk [97] = .ok plainArchive.file from rfl)
    (show (entries .default usizeMax 0 plainArchive.frames plainArchive.contents)[1]? =
      some (67, Sample.contents) by decide +kernel) .falsie (accepts_vec [])
    (show ([] : Bytes) = [] ++ [] from rfl)
  have htext : offsetText 67 = ascii "0x0000000043" := by decide +kernel
  rw [htext] at hprints
  rcases hprints with ⟨-, u, w', h, hw'⟩ | ⟨hnot, -⟩
  · rw [h, hw']
    rfl
  · refine absurd ?_ hnot
    exact ⟨fun _ => by decide +kernel, fun _ => by decide +kernel, fun _ => by decide +kernel⟩

end BodyArchive.Cli
