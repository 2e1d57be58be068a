import BodyArchive.Barc.Offset

/-!
# The commands `cat` and `cp`

Both commands read an archive from a start and hand on a count of records, one to standard output
and one to another archive. They share their loop, and in it one counter, both for the records that
are skipped up to an index and for those that are handed on. What comes of that is `emitted`, and
`selects_iff` says when these are the records that were asked for.
-/

namespace BodyArchive.Cli

/-! ## The flags -/

/-- The errors of `str::parse` for an unsigned number. -/
inductive ParseIntError where
  | empty
  | invalidDigit
  | posOverflow
  deriving DecidableEq, Repr

/-- `Flaw`: what a command fails with. -/
inductive Flaw where
  /-- `quit!`. -/
  | clError (text : Bytes)
  | parseInt (e : ParseIntError)
  | barc (e : BarcError)
  deriving DecidableEq

/-- `to_digit`. -/
def toDigit (radix : Nat) (b : UInt8) : Option Nat :=
  let d :=
    if 48 ≤ b && b ≤ 57 then b.toNat - 48
    else if 97 ≤ b && b ≤ 122 then b.toNat - 87
    else if 65 ≤ b && b ≤ 90 then b.toNat - 55
    else radix
  if d < radix then some d else none

/-- Digits read onto a value. -/
def fromDigits (radix limit : Nat) : Nat → Bytes → Except ParseIntError Nat
  | v, [] => .ok v
  | v, d :: ds =>
    match toDigit radix d with
    | none => .error .invalidDigit
    | some x =>
      if v * radix + x ≤ limit then fromDigits radix limit (v * radix + x) ds
      else .error .posOverflow

/-- `from_str_radix`, for an unsigned type up to `limit`. -/
def fromStrRadix (radix limit : Nat) : Bytes → Except ParseIntError Nat
  | [] => .error .empty
  | [43] => .error .invalidDigit
  | 43 :: ds => fromDigits radix limit 0 ds
  | ds => fromDigits radix limit 0 ds

inductive StartPos where
  | offset (o : Nat)
  | index (s : Nat)
  deriving DecidableEq, Repr

namespace StartPos

def default : StartPos := .index 0

/-- The records to be skipped. -/
def toSkip : StartPos → Nat
  | .offset _ => 0
  | .index s => s

end StartPos

/-- The arguments that select records. -/
structure FilterArgs where
  files : List Bytes
  index : Option Bytes
  offset : Option Bytes
  count : Option Bytes

/-- A flag that selects records is for one file only. -/
def oneFile (flag : String) (files : List Bytes) : Except Flaw Unit :=
  if 1 < files.length then
    .error (.clError (ascii flag ++ ascii " flag can't be applied to more than one input file"))
  else .ok ()

/-- The value of `--index`, if it is there. -/
def indexFlag (m : FilterArgs) (start : StartPos) : Except Flaw StartPos :=
  match m.index with
  | none => .ok start
  | some v => do
    oneFile "--index" m.files
    let s ← (fromStrRadix 10 usizeMax v).mapError .parseInt
    return .index s

/-- The value of `--offset`, if it is there. -/
def offsetFlag (m : FilterArgs) (start : StartPos) : Except Flaw StartPos :=
  match m.offset with
  | none => .ok start
  | some v => do
    oneFile "--offset" m.files
    let o ← (if v.take 2 = ascii "0x" then fromStrRadix 16 (2 ^ 64 - 1) (v.drop 2)
      else fromStrRadix 10 (2 ^ 64 - 1) v).mapError .parseInt
    return .offset o

/-- The value of `--count`, without which it is `usize::max_value()`. -/
def countFlag (m : FilterArgs) : Except Flaw Nat :=
  match m.count with
  | none => .ok usizeMax
  | some v => do
    oneFile "--count" m.files
    (fromStrRadix 10 usizeMax v).mapError .parseInt

/-- `filter_flags`. -/
def filterFlags (m : FilterArgs) : Except Flaw (StartPos × Nat) := do
  let start ← indexFlag m .default
  -- `--index` and `--offset` exclude each other.
  let start ← offsetFlag m start
  let count ← countFlag m
  return (start, count)

/-- The parts of a record to be printed. -/
structure Parts where
  metaH : Bool
  reqHead : Bool
  reqBody : Bool
  resHead : Bool
  resBody : Bool
  deriving DecidableEq, Repr

namespace Parts

def falsie : Parts := ⟨false, false, false, false, false⟩

def default : Parts := ⟨true, true, true, true, true⟩

end Parts

/-- `part_flags`: the flags that are present, or else all parts. -/
def partFlags (present : Parts) : Parts :=
  if present.metaH || present.reqHead || present.reqBody || present.resHead || present.resBody then
    present
  else .default

/-! ## The commands -/

/-- `File::open`, on the paths of the input files. -/
abbrev Disk := Bytes → Except IoError File

/-- `println!`, which panics when standard output fails. -/
def println {W : Type} [Write W] (text : Bytes) : Prog W Flaw Unit := fun w =>
  match writeAll (text ++ [10]) w with
  | (.ok (), w') => (.ok (), w')
  | (.err _, w') => (.panic "failed printing to stdout", w')
  | (.panic msg, w') => (.panic msg, w')

/-- The characters of a text in UTF-8. -/
def charCount (s : Bytes) : Nat := s.countP fun b => !(128 ≤ b && b < 192)

/-- The format `{:-<w}`. -/
def padDash (w : Nat) (s : Bytes) : Bytes := s ++ List.replicate (w - charCount s) 45

/-- A part of a record, if it is to be printed. -/
def printPart {W : Type} (present : Bool) (m : Prog W BarcError Nat) : Prog W Flaw Unit :=
  if present then do
    let _ ← Prog.mapErr .barc m
    pure ()
  else pure ()

/-- The line before a record. -/
def recordLine (barcPath : Bytes) (offset : Nat) : Bytes :=
  ascii "====== file " ++ padDash 38 barcPath ++ ascii " offset 0x" ++ hexPad 10 offset ++
    ascii " ======"

/-- What `cat` prints of a record. -/
def printRecord {W : Type} [Write W] (barcPath : Bytes) (parts : Parts) (offset : Nat)
    (rec : Record) : Prog W Flaw Unit := do
  println (recordLine barcPath offset)
  printPart parts.metaH (writeHeaders true rec.metaHeaders)
  printPart parts.reqHead (writeHeaders true rec.reqHeaders)
  printPart parts.reqBody (writeBody true rec.reqBody)
  printPart parts.resHead (writeHeaders true rec.resHeaders)
  printPart parts.resBody (writeBody true rec.resBody)

section Commands

variable (cr : Crates)

/-- What `cp` does with a record. The strategy chooses an encoder for it. -/
def copyRecord (strategy : Record → Encoder) (_ : Nat) (rec : Record) : Prog OutFile Flaw Unit := do
  let _ ← Prog.mapErr .barc (write cr rec (strategy rec))
  pure ()

variable (tune : Tunables)

/-- One round of the loop of both commands, with the counter and the offset it hands on. -/
def selectStep {σ : Type} (start : StartPos) (count : Nat)
    (emit : Nat → Record → Prog σ Flaw Unit) (n : Nat × Nat) :
    Prog (ReadPos × σ) Flaw ((Nat × Nat) ⊕ Unit) := do
  match ← Prog.onFst (Prog.mapErr .barc (read cr tune)) with
  | none => pure (.inr ())
  | some rec =>
    if n.1 < start.toSkip then pure (.inl (n.1 + 1, n.2))
    else if count < n.1 + 1 then pure (.inr ())
    else do
      Prog.onSnd (emit n.2 rec)
      let reader ← Prog.onFst Prog.get
      pure (.inl (n.1 + 1, offset reader))

/-- The loop of both commands, after the seek to an offset. -/
def select {σ : Type} (start : StartPos) (count : Nat) (emit : Nat → Record → Prog σ Flaw Unit) :
    Prog (ReadPos × σ) Flaw Unit := do
  match start with
  | .offset o => Prog.onFst (Prog.mapErr .barc (seek o))
  | .index _ => pure ()
  let reader ← Prog.onFst Prog.get
  Prog.loop (fun s => Read.fuel s.1) (selectStep cr tune start count emit) (0, offset reader)

/-- The reader of an input file. -/
def openReader (disk : Disk) (path : Bytes) : Res Flaw ReadPos :=
  match disk path with
  | .ok file => .ok ⟨file, 0⟩
  | .error e => .err (.barc (.io e))

/-- The `cat` command implementation. -/
def cat {W : Type} [Write W] (tempDir : TempDir) (disk : Disk) (barcPath : Bytes)
    (start : StartPos) (count : Nat) (parts : Parts) : Prog W Flaw Unit := do
  let reader ← Prog.ofRes (openReader disk barcPath)
  Prog.withLocal reader
    (select cr (Tunables.new tempDir) start count (printRecord barcPath parts))

/-- The `cp` command implementation. Its state is the file at `barcOut`, open for writing. -/
def cp (tempDir : TempDir) (disk : Disk) (barcIn barcOut : Bytes) (start : StartPos) (count : Nat)
    (strategy : Record → Encoder) : Prog OutFile Flaw Unit :=
  if barcIn = barcOut then
    Prog.throw (.clError (ascii "BARC input and output file are the same: " ++ barcIn))
  else do
    let reader ← Prog.ofRes (openReader disk barcIn)
    Prog.withLocal reader
      (select cr (Tunables.new tempDir) start count (copyRecord cr strategy))

/-- The `cat` branch of `run`. -/
def runCat {W : Type} [Write W] (tempDir : TempDir) (disk : Disk) (m : FilterArgs)
    (present : Parts) : Prog W Flaw Unit := do
  let parts := partFlags present
  let (start, count) ← Prog.ofRes (.ofExcept (filterFlags m))
  m.files.forM fun f => cat cr tempDir disk f start count parts

/-- The `cp` branch of `run`. -/
def runCp (tempDir : TempDir) (disk : Disk) (m : FilterArgs) (outFile : Bytes)
    (strategy : Record → Encoder) : Prog OutFile Flaw Unit := do
  let (start, count) ← Prog.ofRes (.ofExcept (filterFlags m))
  m.files.forM fun fin => cp cr tempDir disk fin outFile start count strategy

end Commands

/-! ## What is handed on -/

/-- Records handed on one after the other, each with an offset. -/
def emitAll {σ : Type} (emit : Nat → Record → Prog σ Flaw Unit) :
    List (Nat × Record) → Prog σ Flaw Unit
  | [] => pure ()
  | (off, rec) :: rest => do
    emit off rec
    emitAll emit rest

/-- The records that the loop hands on, from a counter and an offset, when it reads these, each
with the offset behind it. -/
def emitted (start : StartPos) (count : Nat) : Nat → Nat → List (Record × Nat) →
    List (Nat × Record)
  | _, _, [] => []
  | i, off, (rec, behind) :: rest =>
    if i < start.toSkip then emitted start count (i + 1) off rest
    else if count < i + 1 then []
    else (off, rec) :: emitted start count (i + 1) behind rest

/-- **What the one counter comes to**: of the records from the index on, there are only as many as
the count has left over after the skipped ones. -/
theorem emitted_eq (start : StartPos) (count i off : Nat) (recs : List (Record × Nat)) :
    (emitted start count i off recs).map Prod.snd =
      ((recs.map Prod.fst).drop (start.toSkip - i)).take (count - max i start.toSkip) := by
  induction recs generalizing i off with
  | nil => simp [emitted]
  | cons r recs ih =>
    obtain ⟨rec, behind⟩ := r
    rw [emitted]
    by_cases hskip : i < start.toSkip
    · -- A skipped record counts too.
      obtain ⟨k, hk⟩ : ∃ k, start.toSkip - i = k + 1 := ⟨start.toSkip - i - 1, by omega⟩
      rw [if_pos hskip, ih, hk, List.map_cons, List.drop_succ_cons]
      congr 1
      · omega
      · congr 1
        omega
    · have hzero : start.toSkip - i = 0 := by omega
      rw [if_neg hskip, hzero, List.drop_zero]
      by_cases hcount : count < i + 1
      · have hnone : count - max i start.toSkip = 0 := by omega
        rw [if_pos hcount, hnone, List.take_zero, List.map_nil]
      · obtain ⟨k, hk⟩ : ∃ k, count - max i start.toSkip = k + 1 :=
          ⟨count - max i start.toSkip - 1, by omega⟩
        have hrest : count - max (i + 1) start.toSkip = k := by omega
        have hfrom : start.toSkip - (i + 1) = 0 := by omega
        rw [if_neg hcount, List.map_cons, ih, hk, hrest, hfrom, List.map_cons, List.take_succ_cons,
          List.drop_zero]

/-- The start is the record `k` of an archive: by its index, or by its offset. -/
def StartPos.Names (fs : List Frame) (k : Nat) : StartPos → Prop
  | .index s => k = s
  | .offset o => k ≤ fs.length ∧ o = (archive (fs.take k)).length

section Run

variable {cr : Crates} {tune : Tunables} {σ : Type}

/-- A round that goes on has read a record. -/
theorem selectStep_decreasing (start : StartPos) (count : Nat)
    (emit : Nat → Record → Prog σ Flaw Unit) :
    Prog.Decreasing (fun s : ReadPos × σ => Read.fuel s.1)
      (selectStep cr tune start count emit) := by
  intro n s n' s' h
  obtain ⟨x, s₁, hread, h₁⟩ := Prog.bind_eq_ok h
  obtain ⟨hx, hs₁⟩ := Prod.mk.inj hread
  have hread' := Prog.mapErr_eq_ok (show Prog.mapErr Flaw.barc (read cr tune) s.1 = (.ok x, s₁.1) from
    Prod.ext hx (congrArg Prod.fst hs₁))
  cases x with
  | none => cases h₁
  | some rec =>
    have hlt := read_fuel hread'
    have hsame : s'.1 = s₁.1 := by
      simp only at h₁
      split at h₁
      · cases h₁
        rfl
      · split at h₁
        · cases h₁
        · obtain ⟨u, s₂, hemit, h₂⟩ := Prog.bind_eq_ok h₁
          cases h₂
          exact (congrArg (fun x => x.2.1) hemit).symm
    show Read.fuel s'.1 < Read.fuel s.1
    rw [hsame]
    exact hlt

/-- The records of a sequence of reads, each with the offset behind it. -/
def behind : List (Nat × Record) → Nat → List (Record × Nat)
  | [], _ => []
  | (_, rec) :: rs, last => (rec, (rs.head?.map Prod.fst).getD last) :: behind rs last

theorem behind_fst (rs : List (Nat × Record)) (last : Nat) :
    (behind rs last).map Prod.fst = rs.map Prod.snd := by
  induction rs with
  | nil => rfl
  | cons r rs ih => rw [behind, List.map_cons, List.map_cons, ih]

/-- How a command ends when there are no more records. -/
def endOf : Res BarcError (Option Record) → Res Flaw Unit
  | .ok _ => .ok ()
  | .err e => .err (.barc e)
  | .panic msg => .panic msg

/-- **The loop over any file** hands on what `emitted` says, whatever is done with it: the reading
goes on after every record in the same way. -/
theorem select_reads {rp rp' rp'' : ReadPos} {rs : List (Nat × Record)}
    (h : Reads cr tune rp rs rp') {x : Res BarcError (Option Record)}
    (hlast : read cr tune rp' = (x, rp'')) (hx : ∀ r, x ≠ .ok (some r)) (start : StartPos)
    (count i off : Nat) :
    ∃ ending : Res Flaw Unit, (ending = .ok () ∨ ending = endOf x) ∧
      ∀ (σ : Type) (emit : Nat → Record → Prog σ Flaw Unit) (w : σ),
        Prog.withLocal rp (Prog.loop (fun s => Read.fuel s.1) (selectStep cr tune start count emit)
          (i, off)) w =
            (emitAll emit (emitted start count i off (behind rs (offset rp'))) >>=
              fun _ => Prog.ofRes ending) w := by
  induction h generalizing i off with
  | done rp =>
    refine ⟨endOf x, .inr rfl, ?_⟩
    intro σ emit w
    have hv := @selectStep_decreasing cr tune σ start count emit
    have hround : selectStep cr tune start count emit (i, off) (rp, w) =
        (match x with
          | .ok _ => .ok (.inr ())
          | .err e => .err (.barc e)
          | .panic msg => .panic msg, rp'', w) := by
      rcases x with (_ | r) | e | msg
      · rw [selectStep, Prog.bind_of_ok (Prog.onFst_of (Prog.mapErr_of_ok hlast) w)]
        rfl
      · exact absurd rfl (hx r)
      · rw [selectStep, Prog.bind_of_err (Prog.onFst_of (Prog.mapErr_of_err hlast) w)]
      · have hpanic : Prog.mapErr Flaw.barc (read cr tune) rp = (.panic msg, rp'') := by
          rw [Prog.mapErr, hlast]
        rw [selectStep, Prog.bind_of_panic (Prog.onFst_of hpanic w)]
    cases x with
    | ok r => exact Prog.withLocal_of (Prog.loop_of_done hv hround)
    | err e => exact Prog.withLocal_of (Prog.loop_of_err hv hround)
    | panic msg =>
      exact Prog.withLocal_of ((Prog.loop_eq hv _ _).trans (Prog.bind_of_panic hround))
  | @next rp rp₁ rp₂ r rs hread hrest ih =>
    have hround (σ : Type) (emit : Nat → Record → Prog σ Flaw Unit) (w : σ) :
        selectStep cr tune start count emit (i, off) (rp, w) =
          (if i < start.toSkip then pure (.inl (i + 1, off))
            else if count < i + 1 then pure (.inr ())
            else do
              Prog.onSnd (emit off r)
              let reader ← Prog.onFst Prog.get
              pure (.inl (i + 1, offset reader)) : Prog (ReadPos × σ) Flaw _) (rp₁, w) := by
      rw [selectStep, Prog.bind_of_ok (Prog.onFst_of (Prog.mapErr_of_ok hread) w)]
    rw [behind, hrest.head_offset]
    by_cases hskip : i < start.toSkip
    · obtain ⟨ending, hending, hloop⟩ := ih hlast (i + 1) off
      refine ⟨ending, hending, ?_⟩
      intro σ emit w
      have hskipped := hround σ emit w
      rw [if_pos hskip] at hskipped
      rw [emitted, if_pos hskip, ← hloop σ emit w, Prog.withLocal, Prog.withLocal,
        Prog.loop_of_next (selectStep_decreasing start count emit) hskipped]
    · by_cases hcount : count < i + 1
      · refine ⟨.ok (), .inl rfl, ?_⟩
        intro σ emit w
        have hbreak := hround σ emit w
        rw [if_neg hskip, if_pos hcount] at hbreak
        rw [emitted, if_neg hskip, if_pos hcount,
          Prog.withLocal_of (Prog.loop_of_done (selectStep_decreasing start count emit) hbreak)]
        rfl
      · obtain ⟨ending, hending, hloop⟩ := ih hlast (i + 1) (offset rp₁)
        refine ⟨ending, hending, ?_⟩
        intro σ emit w
        have hv := @selectStep_decreasing cr tune σ start count emit
        have hemits := hround σ emit w
        rw [if_neg hskip, if_neg hcount] at hemits
        rw [emitted, if_neg hskip, if_neg hcount, emitAll]
        -- The record is handed on, and that may fail.
        rcases hemit : emit off r w with ⟨⟨⟩ | e | msg, w'⟩
        · rw [Prog.bind_of_ok (Prog.onSnd_of hemit rp₁)] at hemits
          have hall : (emit off r >>= fun _ => emitAll emit (emitted start count (i + 1)
              (offset rp₁) (behind rs (offset rp₂)))) w =
                emitAll emit (emitted start count (i + 1) (offset rp₁) (behind rs (offset rp₂))) w' :=
            Prog.bind_of_ok hemit
          have hnext := hloop σ emit w'
          rw [Prog.withLocal, Prog.loop_of_next hv hemits]
          rw [Prog.withLocal] at hnext
          refine Eq.trans hnext ?_
          show Prog.bind _ _ w' = Prog.bind _ _ w
          rw [Prog.bind, Prog.bind, hall]
        · rw [Prog.bind_of_err (Prog.onSnd_of hemit rp₁)] at hemits
          rw [Prog.bind_of_err (Prog.bind_of_err hemit), Prog.withLocal_of (Prog.loop_of_err hv hemits)]
        · rw [Prog.bind_of_panic (Prog.onSnd_of hemit rp₁)] at hemits
          rw [Prog.bind_of_panic (Prog.bind_of_panic hemit)]
          exact Prog.withLocal_of ((Prog.loop_eq hv _ _).trans (Prog.bind_of_panic hemits))

/-- **The loop over an archive** hands on records of its contents. -/
theorem select_archive (hcodec : cr.CodecLawful) {fs : List Frame} {cs : List Contents}
    (hfs : List.Forall₂ (Frame.Reads cr tune) fs cs) {rp : ReadPos} {p : Nat}
    (h : Rest rp p (archive fs) .eof) :
    ∃ recs : List (Record × Nat), List.Forall₂ Record.Holds (recs.map Prod.fst) cs ∧
      ∀ (σ : Type) (start : StartPos) (count : Nat) (emit : Nat → Record → Prog σ Flaw Unit)
        (i off : Nat) (w : σ),
        Prog.withLocal rp (Prog.loop (fun s => Read.fuel s.1) (selectStep cr tune start count emit)
          (i, off)) w = emitAll emit (emitted start count i off recs) w := by
  rw [← List.append_nil (archive fs)] at h
  obtain ⟨rs, rp', hreads, hholds, hrest⟩ := reads_archive hcodec hfs h
  obtain ⟨rp'', hlast, -⟩ := @read_end cr tune _ _ hrest
  refine ⟨behind ((starts p fs).zip rs) (offset rp'), ?_, ?_⟩
  · have hlen : rs.length ≤ (starts p fs).length := by
      rw [starts_length, hholds.length_eq, hfs.length_eq]
    rwa [behind_fst, List.map_snd_zip hlen]
  · intro σ start count emit i off w
    have hnone : ∀ r : Record, (.ok none : Res BarcError (Option Record)) ≠ .ok (some r) := by
      intro r hr
      cases hr
    obtain ⟨ending, hending, hloop⟩ := select_reads hreads hlast hnone start count i off
    have hok : ending = .ok () := by
      rcases hending with h | h <;> exact h
    rw [hloop σ emit w, hok]
    rcases hall : emitAll emit (emitted start count i off
      (behind ((starts p fs).zip rs) (offset rp'))) w with ⟨⟨⟩ | e | msg, w'⟩
    · exact Prog.bind_of_ok hall
    · exact Prog.bind_of_err hall
    · exact Prog.bind_of_panic hall

/-- A run of either command on an archive, from one of its records: the seek to it, or none, and
the loop. -/
theorem select_run (hcodec : cr.CodecLawful) {fs : List Frame} {cs : List Contents}
    (hfs : List.Forall₂ (Frame.Reads cr tune) fs cs) {file : File} (hown : file.Own)
    (hcontent : file.content = archive fs) {start : StartPos} {k : Nat} (hstart : start.Names fs k) :
    ∃ recs : List (Record × Nat), ∃ off,
      List.Forall₂ Record.Holds (recs.map Prod.fst) (cs.drop (k - start.toSkip)) ∧
      ∀ (σ : Type) (count : Nat) (emit : Nat → Record → Prog σ Flaw Unit) (w : σ),
        Prog.withLocal ⟨file, 0⟩ (select cr tune start count emit) w =
          emitAll emit (emitted start count 0 off recs) w := by
  cases start with
  | index s =>
    have hk : k = s := hstart
    have hrest : Rest (⟨file, 0⟩ : ReadPos) 0 (archive fs) .eof := by
      rw [← hcontent]
      exact ReadPos.rest_own hown 0
    obtain ⟨recs, hall, hloop⟩ := select_archive hcodec hfs hrest
    refine ⟨recs, 0, ?_, fun σ count emit w => hloop σ (.index s) count emit 0 0 w⟩
    rw [hk, show s - (StartPos.index s).toSkip = 0 from Nat.sub_self s, List.drop_zero]
    exact hall
  | offset o =>
    obtain ⟨hk, ho⟩ : k ≤ fs.length ∧ o = (archive (fs.take k)).length := hstart
    have hrest : Rest (⟨file, o⟩ : ReadPos) o (archive (fs.drop k)) .eof := by
      have hr := ReadPos.rest_own hown o
      have hsplit : archive fs = archive (fs.take k) ++ archive (fs.drop k) := by
        rw [← archive_append, List.take_append_drop]
      rwa [hcontent, hsplit, ho, List.drop_left, ← ho] at hr
    obtain ⟨recs, hall, hloop⟩ := select_archive hcodec (List.forall₂_drop k hfs) hrest
    exact ⟨recs, o, hall, fun σ count emit w => hloop σ (.offset o) count emit 0 o w⟩

end Run

/-! ## What is selected -/

/-- The commands, with this start and count, select records of these contents: `cat` prints them
and does nothing else, whatever parts it prints and however standard output behaves; `cp` copies them
and does nothing else, whatever the strategy; and what it copies to a file is added after the records
that are there, if nothing fails. -/
def Selects (cr : Crates) (tempDir : TempDir) (disk : Disk) (barcIn : Bytes) (start : StartPos)
    (count : Nat) (wanted : List Contents) : Prop :=
  ∃ recs : List (Nat × Record), List.Forall₂ Record.Holds (recs.map Prod.snd) wanted ∧
    (∀ (W : Type) [Write W] (parts : Parts) (out : W),
      cat cr tempDir disk barcIn start count parts out =
        emitAll (printRecord barcIn parts) recs out) ∧
    ∀ (barcOut : Bytes) (strategy : Record → Encoder) (out : OutFile), barcIn ≠ barcOut →
      cp cr tempDir disk barcIn barcOut start count strategy out =
        emitAll (copyRecord cr strategy) recs out ∧
      (out.Calm → (∀ rec c, c ∈ wanted → rec.Holds c → c.Fits cr (strategy rec).mode) →
        ∃ fs out', cp cr tempDir disk barcIn barcOut start count strategy out = (.ok (), out') ∧
          out'.content = out.content ++ archive fs ∧ List.Forall₂ (Frame.Holds cr) fs wanted)

section Select

variable {cr : Crates} {tempDir : TempDir} {disk : Disk} {barcIn : Bytes}

/-- Records that are copied to a file end up after what is there. -/
theorem emitAll_copyRecord {strategy : Record → Encoder} {recs : List (Nat × Record)}
    {wanted : List Contents} (hrecs : List.Forall₂ Record.Holds (recs.map Prod.snd) wanted)
    (hfits : ∀ rec c, c ∈ wanted → rec.Holds c → c.Fits cr (strategy rec).mode) {out : OutFile}
    (hout : out.Calm) :
    ∃ fs out', emitAll (copyRecord cr strategy) recs out = (.ok (), out') ∧
      out'.content = out.content ++ archive fs ∧ List.Forall₂ (Frame.Holds cr) fs wanted := by
  induction recs generalizing wanted out with
  | nil =>
    cases hrecs
    exact ⟨[], out, rfl, (List.append_nil _).symm, .nil⟩
  | cons r recs ih =>
    obtain ⟨off, rec⟩ := r
    cases hrecs with
    | @cons _ c _ cs hholds hall =>
      rcases write_calm cr hout hholds (strategy rec) with
        ⟨head, payload, out₁, hw, -, hlaid, hwritten⟩ | ⟨hover, -⟩
      · obtain ⟨fs, out', hrest, hcontent, hfs⟩ :=
          ih hall (fun rec c hc => hfits rec c (List.mem_cons_of_mem _ hc)) hwritten.calm
        refine ⟨⟨head, payload⟩ :: fs, out', ?_, ?_, .cons hlaid hfs⟩
        · have hcopy : copyRecord cr strategy off rec out = (.ok (), out₁) := by
            rw [copyRecord, Prog.bind_of_ok (Prog.mapErr_of_ok hw)]
            rfl
          rw [emitAll, Prog.bind_of_ok hcopy, hrest]
        · rw [hcontent, hwritten.content_eq, archive_cons, List.append_assoc]
          rfl
      · exact absurd (hfits rec c List.mem_cons_self hholds) hover

/-- Records that are printed without any of their parts are a line each. -/
theorem emitAll_lines (recs : List (Nat × Record)) {out : OutFile} (hout : out.Calm) :
    ∃ out', emitAll (printRecord barcIn .falsie) recs out = (.ok (), out') ∧
      out'.log.map FileOp.bytes =
        out.log.map FileOp.bytes ++ recs.map fun x => recordLine barcIn x.1 ++ [10] := by
  induction recs generalizing out with
  | nil => exact ⟨out, rfl, (List.append_nil _).symm⟩
  | cons r recs ih =>
    obtain ⟨off, rec⟩ := r
    have hprintln : println (recordLine barcIn off) out =
        ((.ok () : Res Flaw Unit), out.put (recordLine barcIn off ++ [10])) := by
      rw [println, OutFile.writeAll_def, OutFile.write_calm hout (by simp)]
    have hline : printRecord barcIn .falsie off rec out =
        ((.ok () : Res Flaw Unit), out.put (recordLine barcIn off ++ [10])) := by
      rw [printRecord, Prog.bind_of_ok hprintln]
      rfl
    obtain ⟨out', hrest, hlog⟩ := ih (hout.put (recordLine barcIn off ++ [10]))
    refine ⟨out', ?_, ?_⟩
    · rw [emitAll, Prog.bind_of_ok hline, hrest]
    · rw [hlog, OutFile.put_log, List.map_append, List.append_assoc, List.map_cons]
      rfl

theorem emitAll_printRecord (recs : List (Nat × Record)) {out : OutFile} (hout : out.Calm) :
    ((emitAll (printRecord barcIn .falsie) recs out).2.log.length) =
      out.log.length + recs.length := by
  obtain ⟨out', hrun, hlog⟩ := @emitAll_lines barcIn recs _ hout
  have hlen := congrArg List.length hlog
  rw [List.length_append, List.length_map, List.length_map, List.length_map] at hlen
  rw [hrun, hlen]

/-- What the commands do with an archive. -/
theorem commands_run (hcodec : cr.CodecLawful) {fs : List Frame} {cs : List Contents}
    (hfs : List.Forall₂ (Frame.Reads cr (Tunables.new tempDir)) fs cs) {file : File}
    (hown : file.Own) (hcontent : file.content = archive fs) (hdisk : disk barcIn = .ok file)
    {start : StartPos} {k : Nat} (hstart : start.Names fs k) (count : Nat) :
    ∃ recs : List (Nat × Record),
      List.Forall₂ Record.Holds (recs.map Prod.snd)
        ((cs.drop k).take (count - start.toSkip)) ∧
      (∀ (W : Type) [Write W] (parts : Parts) (out : W),
        cat cr tempDir disk barcIn start count parts out =
          emitAll (printRecord barcIn parts) recs out) ∧
      ∀ (barcOut : Bytes) (strategy : Record → Encoder) (out : OutFile), barcIn ≠ barcOut →
        cp cr tempDir disk barcIn barcOut start count strategy out =
          emitAll (copyRecord cr strategy) recs out := by
  obtain ⟨recs, off, hall, hrun⟩ := select_run hcodec hfs hown hcontent hstart
  have hopen {σ : Type} (m : Prog (ReadPos × σ) Flaw Unit) (w : σ) :
      (Prog.ofRes (openReader disk barcIn) >>= fun reader => Prog.withLocal reader m) w =
        Prog.withLocal ⟨file, 0⟩ m w := by
    rw [openReader, hdisk]
    rfl
  refine ⟨emitted start count 0 off recs, ?_, ?_, ?_⟩
  · have hk : k - start.toSkip + start.toSkip = k := by
      cases start with
      | index s => exact Nat.sub_add_cancel (Nat.le_of_eq (Eq.symm hstart))
      | offset o => rfl
    rw [emitted_eq, Nat.sub_zero, Nat.zero_max, ← hk, ← List.drop_drop]
    exact List.forall₂_take _ (List.forall₂_drop _ hall)
  · intro W _ parts out
    rw [cat, hopen, hrun]
  · intro barcOut strategy out hne
    rw [cp, if_neg hne, hopen, hrun]

/-- **Which records are selected.** From the record `k` on, `count` records are printed or copied
exactly if the start is an offset or the first record, or there is nothing to hand on, or the count
is not less than the whole number of records: the skipped ones are counted too. -/
theorem selects_iff (hcodec : cr.CodecLawful) {fs : List Frame} {cs : List Contents}
    (hfs : List.Forall₂ (Frame.Reads cr (Tunables.new tempDir)) fs cs) {file : File}
    (hown : file.Own) (hcontent : file.content = archive fs) (hdisk : disk barcIn = .ok file)
    {start : StartPos} {k : Nat} (hstart : start.Names fs k) (count : Nat) :
    Selects cr tempDir disk barcIn start count ((cs.drop k).take count) ↔
      start.toSkip = 0 ∨ cs.length ≤ k ∨ count = 0 ∨ cs.length ≤ count := by
  obtain ⟨recs, hall, hcat, hcp⟩ := commands_run hcodec hfs hown hcontent hdisk hstart count
  have hlen := hall.length_eq
  rw [List.length_map, List.length_take, List.length_drop] at hlen
  have hskip : start.toSkip = 0 ∨ start.toSkip = k := by
    cases start with
    | index s => exact .inr (Eq.symm hstart)
    | offset o => exact .inl rfl
  constructor
  · rintro ⟨recs', hall', hcat', -⟩
    -- As many lines are printed as there are records.
    have hlines := @emitAll_printRecord barcIn recs _ OutFile.empty_calm
    have hlines' := @emitAll_printRecord barcIn recs' _ OutFile.empty_calm
    rw [← hcat OutFile .falsie OutFile.empty, hcat', hlines'] at hlines
    have hlen' := hall'.length_eq
    rw [List.length_map, List.length_take, List.length_drop] at hlen'
    by_contra hnot
    push Not at hnot
    obtain ⟨hpos, hk, hcount, hn⟩ := hnot
    omega
  · intro hcond
    have hsame : (cs.drop k).take (count - start.toSkip) = (cs.drop k).take count := by
      rw [List.take_eq_take_iff, List.length_drop]
      omega
    rw [hsame] at hall
    refine ⟨recs, hall, fun W _ parts out => hcat W parts out, ?_⟩
    intro barcOut strategy out hne
    refine ⟨hcp barcOut strategy out hne, ?_⟩
    intro hout hfits
    rw [hcp barcOut strategy out hne]
    exact emitAll_copyRecord hall hfits hout

end Select

/-! ## Samples -/

/-- The file of the sample jobs: two records of the same contents. -/
def sampleFile : File :=
  File.quiet (writeAllRecords sampleCrates (sampleJobs.map fun j => (j.record, j.enc))
    OutFile.empty).2.content

/-- A disk that has this file at every path. -/
def sampleDisk : Disk := fun _ => .ok sampleFile

theorem sampleFile_reads : ∃ fs, sampleFile.content = archive fs ∧
    List.Forall₂ (Frame.Reads sampleCrates (Tunables.new Tunables.calmDir)) fs
      [Sample.contents, Sample.contents] := by
  obtain ⟨hm, hq, hs⟩ := sampleContents_parsable
  have hvalid : ∀ j ∈ sampleJobs, j.Valid sampleCrates (Tunables.new Tunables.calmDir) := by
    intro j hj
    rcases List.mem_cons.mp hj with rfl | hj
    · exact ⟨sampleContents_fits _, hm, hq, hs, rfl, fun h => absurd rfl h⟩
    · rw [List.mem_singleton.mp hj]
      exact ⟨sampleContents_fits _, hm, hq, hs, rfl, fun _ => by decide⟩
  obtain ⟨fs, f', hw, hcontent, hreads⟩ :=
    archive_of_valid sampleCrates_headersLawful ⟨_, rfl⟩ sampleJobs hvalid OutFile.empty_calm rfl
  refine ⟨fs, ?_, hreads⟩
  rw [sampleFile, hw]
  exact hcontent

/-- Both records are selected, and the first one. -/
theorem sampleFile_selected :
    Selects sampleCrates Tunables.calmDir sampleDisk [97] .default usizeMax
      [Sample.contents, Sample.contents] ∧
    Selects sampleCrates Tunables.calmDir sampleDisk [97] .default 1 [Sample.contents] := by
  obtain ⟨fs, hcontent, hreads⟩ := sampleFile_reads
  exact ⟨(selects_iff sampleCrates_codecLawful hreads (File.quiet_own _) hcontent rfl
      (show StartPos.default.Names fs 0 from rfl) usizeMax).mpr (.inl rfl),
    (selects_iff sampleCrates_codecLawful hreads (File.quiet_own _) hcontent rfl
      (show StartPos.default.Names fs 0 from rfl) 1).mpr (.inl rfl)⟩

/-- **An index with a count selects too little.** Of a file of two records, `--index 1 --count 1`
prints nothing and copies nothing, although the second record is there. -/
theorem second_not_selected :
    (∃ fs, sampleFile.content = archive fs ∧
      List.Forall₂ (Frame.Reads sampleCrates (Tunables.new Tunables.calmDir)) fs
        [Sample.contents, Sample.contents]) ∧
    cat sampleCrates Tunables.calmDir sampleDisk [97] (.index 1) 1 .default ([] : Bytes) =
      (.ok (), []) ∧
    (cp sampleCrates Tunables.calmDir sampleDisk [97] [98] (.index 1) 1 (fun _ => .plain)
      OutFile.empty).2.content = [] ∧
    ¬ Selects sampleCrates Tunables.calmDir sampleDisk [97] (.index 1) 1 [Sample.contents] := by
  have hcat : (cat sampleCrates Tunables.calmDir sampleDisk [97] (.index 1) 1 .falsie
      OutFile.empty).2.log.length = 0 := by decide +kernel
  refine ⟨sampleFile_reads, by decide +kernel, by decide +kernel, ?_⟩
  rintro ⟨recs, hall, hprint, -⟩
  have hlines := @emitAll_printRecord [97] recs _ OutFile.empty_calm
  have hlen := hall.length_eq
  rw [← hprint, hcat] at hlines
  rw [List.length_map] at hlen
  rw [hlen] at hlines
  cases hlines

end BodyArchive.Cli
