import BodyArchive.Barc.Writer
import BodyArchive.Barc.Reader

/-!
# Archives

A file of records one after the other, as frames of a head and a payload. `writeAll` writes
records in sequence and `Reads` is a sequence of reads; an archive of readable frames is read
frame by frame (`reads_archive`), each from where the one before it ended.
-/

namespace BodyArchive

/-- A record in a file: its head and its payload. -/
structure Frame where
  head : RecordHead
  payload : Bytes
  deriving DecidableEq

namespace Frame

def bytes (f : Frame) : Bytes := f.head.format ++ f.payload

/-- The frame lays out some contents. -/
def Holds (cr : Crates) (f : Frame) (c : Contents) : Prop := Laid cr c f.head f.payload

/-- It can be read, too. -/
def Reads (cr : Crates) (tune : Tunables) (f : Frame) (c : Contents) : Prop :=
  f.Holds cr c ∧ Readable cr tune f.head.compress c

theorem Holds.bytes_length {cr : Crates} {f : Frame} {c : Contents} (h : f.Holds cr c) :
    f.bytes.length = v2HeadSize + f.payload.length := by
  rw [bytes, List.length_append, Laid.format_length h]

theorem Holds.head_le {cr : Crates} {f : Frame} {c : Contents} (h : f.Holds cr c) :
    v2HeadSize ≤ f.bytes.length := by
  rw [h.bytes_length]
  omega

end Frame

/-- The file of some frames. -/
def archive (fs : List Frame) : Bytes := fs.flatMap Frame.bytes

/-- Where the frames start, when the first does at `p`. -/
def starts : Nat → List Frame → List Nat
  | _, [] => []
  | p, f :: fs => p :: starts (p + f.bytes.length) fs

@[simp] theorem archive_cons (f : Frame) (fs : List Frame) :
    archive (f :: fs) = f.bytes ++ archive fs := rfl

theorem archive_append (fs gs : List Frame) : archive (fs ++ gs) = archive fs ++ archive gs :=
  List.flatMap_append

theorem starts_length (p : Nat) (fs : List Frame) : (starts p fs).length = fs.length := by
  induction fs generalizing p with
  | nil => rfl
  | cons f fs ih => simp [starts, ih]

/-- A frame starts where the frames before it end. -/
theorem starts_get (p : Nat) (fs : List Frame) (i : Nat) (hi : i < fs.length) :
    (starts p fs)[i]? = some (p + (archive (fs.take i)).length) := by
  induction fs generalizing p i with
  | nil => simp at hi
  | cons f fs ih =>
    cases i with
    | zero => simp [starts, archive]
    | succ i =>
      simp only [starts, List.getElem?_cons_succ, List.take_succ_cons, archive_cons,
        List.length_append]
      rw [ih (p + f.bytes.length) i (by simpa using hi), Nat.add_assoc]

theorem starts_take (p : Nat) (fs : List Frame) (n : Nat) :
    starts p (fs.take n) = (starts p fs).take n := by
  induction fs generalizing p n with
  | nil => simp [starts]
  | cons f fs ih =>
    cases n with
    | zero => rfl
    | succ n => rw [List.take_succ_cons, starts, starts, List.take_succ_cons, ih]

/-- What lies at the start of a frame. -/
theorem archive_drop (fs : List Frame) (i : Nat) (hi : i < fs.length) :
    (archive fs).drop (archive (fs.take i)).length = fs[i].bytes ++ archive (fs.drop (i + 1)) := by
  have hsplit : archive fs = archive (fs.take i) ++ (fs[i].bytes ++ archive (fs.drop (i + 1))) := by
    rw [← archive_cons, ← archive_append, ← List.drop_eq_getElem_cons hi, List.take_append_drop]
  conv_lhs => rw [hsplit]
  exact List.drop_left

/-! ## Plain frames -/

/-- The frame of some contents in a plain record. -/
def plainFrame (c : Contents) : Frame :=
  ⟨⟨(c.parts true).length, .dialog, .plain, (block true c.metaHeaders).length,
    (block true c.reqHeaders).length, (pad true c.reqBody).length,
    (block true c.resHeaders).length⟩, c.parts true⟩

/-- A plain record has no other frame. -/
theorem eq_plainFrame {cr : Crates} {f : Frame} {c : Contents} (h : f.Holds cr c)
    (hplain : f.head.compress = .plain) : f = plainFrame c := by
  obtain ⟨⟨len, recType, compress, metaH, reqH, reqB, resH⟩, payload⟩ := f
  obtain rfl : compress = .plain := hplain
  have hpayload : payload = c.parts true := by
    rcases h.payload_eq with ⟨-, hp⟩ | ⟨hne, -⟩
    · exact hp
    · exact absurd rfl hne
  have htype : recType = .dialog := h.rec_type
  have hlen : len = payload.length := h.len_eq
  have hmeta : metaH = _ := h.meta_eq
  have hreq : reqH = _ := h.req_eq
  have hbody : reqB = _ := h.req_body
  have hres : resH = _ := h.res_eq
  rw [htype, hlen, hmeta, hreq, hbody, hres, hpayload]
  rfl

theorem eq_map_plainFrame {cr : Crates} {fs : List Frame} {cs : List Contents}
    (h : List.Forall₂ (fun f c => f.head.compress = .plain ∧ f.Holds cr c) fs cs) :
    fs = cs.map plainFrame := by
  induction h with
  | nil => rfl
  | cons hf _ ih => rw [List.map_cons, ← eq_plainFrame hf.2 hf.1, ← ih]

/-! ## Reading -/

section Read

variable {cr : Crates} {tune : Tunables}

/-- What reading comes to after the head of a frame. -/
theorem read_frame_head {f : Frame} {c : Contents} (hf : f.Holds cr c) {rp : ReadPos} {p : Nat}
    {z : Bytes} {t : Tail} (h : Rest rp p (f.bytes ++ z) t) :
    ∃ rp₁, read cr tune rp = readRecord cr tune p f.head rp₁ ∧
      Rest rp₁ (p + v2HeadSize) (f.payload ++ z) t := by
  have hlen := Laid.format_length hf
  rw [Frame.bytes, List.append_assoc] at h
  obtain ⟨rp₁, h₁, hrest₁⟩ := readRecordHead_rest h
    (fun _ => by rw [List.length_append, hlen]; omega) (fun e he => by subst he; exact h.elim)
  rw [← hlen, List.take_left, headOf_format hf.fits] at h₁
  rw [← hlen, List.take_left, List.drop_left, hlen] at hrest₁
  refine ⟨rp₁, ?_, hrest₁⟩
  rw [read, Prog.get_bind, Prog.bind_of_ok h₁, (ReadPos.rest_iff.mp h).pos_eq]

/-- **A frame is read** from wherever it lies, whatever follows it. -/
theorem read_frame (hcodec : cr.CodecLawful) {f : Frame} {c : Contents} (hf : f.Reads cr tune c)
    {rp : ReadPos} {p : Nat} {z : Bytes} {t : Tail} (h : Rest rp p (f.bytes ++ z) t) :
    ∃ r rp', read cr tune rp = (.ok (some r), rp') ∧ r.Holds c ∧
      Rest rp' (p + f.bytes.length) z t := by
  obtain ⟨hl, hread⟩ := hf
  obtain ⟨rp₁, hhead, hrest₁⟩ := @read_frame_head cr tune _ _ hl _ _ _ _ h
  obtain ⟨hok, -⟩ := @readRecord_laid cr tune hcodec _ _ _ _ _ _ _ hl hrest₁
  obtain ⟨r, rp', hr, hholds, hrest⟩ := hok hread
  refine ⟨r, rp', hhead.trans hr, hholds, ?_⟩
  rw [Frame.Holds.bytes_length hl, ← Nat.add_assoc]
  exact hrest

/-- A frame that has been read from somewhere can be read from everywhere. -/
theorem reads_of_read (hcodec : cr.CodecLawful) {f : Frame} {c : Contents} (hf : f.Holds cr c)
    {rp rp' : ReadPos} {p : Nat} {z : Bytes} {t : Tail} (h : Rest rp p (f.bytes ++ z) t) {r : Record}
    (hread : read cr tune rp = (.ok (some r), rp')) (hr : r.Holds c) : f.Reads cr tune c := by
  obtain ⟨rp₁, hhead, hrest₁⟩ := @read_frame_head cr tune _ _ hf _ _ _ _ h
  obtain ⟨-, hback⟩ := @readRecord_laid cr tune hcodec _ _ _ _ _ _ _ hf hrest₁
  exact ⟨hf, hback r rp' (hhead.symm.trans hread) hr⟩

/-- At the end of the file there is no record. -/
theorem read_end {rp : ReadPos} {p : Nat} (h : Rest rp p [] .eof) :
    ∃ rp', read cr tune rp = (.ok none, rp') ∧ Rest rp' p [] .eof := by
  obtain ⟨rp₁, h₁, hrest₁⟩ := readRecordHead_rest h (by simp) (by simp)
  refine ⟨rp₁, ?_, hrest₁⟩
  rw [read, Prog.get_bind, Prog.bind_of_ok h₁]
  rfl

/-- A sequence of reads that return records, each with the offset before it. -/
inductive Reads (cr : Crates) (tune : Tunables) : ReadPos → List (Nat × Record) → ReadPos → Prop
  | done (rp : ReadPos) : Reads cr tune rp [] rp
  | next {rp rp₁ rp₂ : ReadPos} {r : Record} {rs : List (Nat × Record)}
      (h : read cr tune rp = (.ok (some r), rp₁)) (rest : Reads cr tune rp₁ rs rp₂) :
      Reads cr tune rp ((offset rp, r) :: rs) rp₂

/-- A sequence of reads starts where the reader is. -/
theorem Reads.head_offset {rp rp' : ReadPos} {rs : List (Nat × Record)}
    (h : Reads cr tune rp rs rp') : (rs.head?.map Prod.fst).getD (offset rp') = offset rp := by
  cases h with
  | done => rfl
  | next => rfl

/-- **An archive is read** frame by frame. -/
theorem reads_archive (hcodec : cr.CodecLawful) {fs : List Frame} {cs : List Contents}
    (hfs : List.Forall₂ (Frame.Reads cr tune) fs cs) {rp : ReadPos} {p : Nat} {z : Bytes}
    {t : Tail} (h : Rest rp p (archive fs ++ z) t) :
    ∃ rs rp', Reads cr tune rp ((starts p fs).zip rs) rp' ∧ List.Forall₂ Record.Holds rs cs ∧
      Rest rp' (p + (archive fs).length) z t := by
  induction hfs generalizing rp p with
  | nil => exact ⟨[], rp, .done rp, .nil, h⟩
  | cons hf _ ih =>
    rw [archive_cons, List.append_assoc] at h
    obtain ⟨r, rp₁, hread, hholds, hrest⟩ := read_frame hcodec hf h
    obtain ⟨rs, rp₂, hreads, hall, hend⟩ := ih hrest
    refine ⟨r :: rs, rp₂, ?_, .cons hholds hall, ?_⟩
    · have hnext := Reads.next hread hreads
      rwa [offset, (ReadPos.rest_iff.mp h).pos_eq] at hnext
    · rwa [archive_cons, List.length_append, ← Nat.add_assoc]

end Read

/-! ## Writing -/

/-- A record to be written, what it holds, and the encoder its strategy chose. -/
structure Job where
  record : Record
  contents : Contents
  enc : Encoder
  holds : record.Holds contents

/-- Write records one after the other; returns their offsets. -/
def writeAllRecords (cr : Crates) : List (Record × Encoder) → Prog OutFile BarcError (List Nat)
  | [] => pure []
  | (rec, enc) :: rest => do
    let o ← write cr rec enc
    let os ← writeAllRecords cr rest
    pure (o :: os)

end BodyArchive
