import BodyArchive.Barc.HeadFormat
import BodyArchive.Barc.ReqBody
import BodyArchive.Barc.Sample
import BodyArchive.Body.Steps

/-!
# Hostile archives

Any five lengths can stand in a head, whatever follows it. Most of them are errors, but some trip
an assertion or underflow. `read_safe_iff` says which, of the lengths in the head and the bytes that
follow it: a header block, or a body of a plain record, must not have a length of 1 or 2; a header
block that *httparse* accepts must be accepted whole; and the parts of a plain record must not be
longer than the record. Each counts only if reading gets that far, that is if the parts before it are
there and are good.
-/

namespace BodyArchive

/-! ## What trips -/

section Pieces

variable (cr : Crates) (tune : Tunables)

/-- *httparse* accepts the block, but stops before its end. -/
def StopsShort (buf : Bytes) : Prop :=
  ∃ size heads, cr.parseHeaders buf maxHeaders = .complete size heads ∧ size ≠ buf.length

/-- *httparse* takes all of the block, and its names and values are valid. -/
def WellFormed (buf : Bytes) : Prop :=
  ∃ heads, cr.parseHeaders buf maxHeaders = .complete buf.length heads ∧
    ∀ e ∈ heads, (cr.headerName e.1).isSome ∧ (cr.headerValue e.2).isSome

/-- A part of a record, with the length that its head gives. -/
inductive Piece where
  /-- A block of headers; in a compressed record it comes without its CRLF. -/
  | block (withCrlf : Bool) (len : Nat)
  /-- A request body in a plain record. -/
  | body (len : Nat)
  /-- A request body in a compressed record. -/
  | coded (len : Nat)

def Piece.len : Piece → Nat
  | block _ len => len
  | body len => len
  | coded len => len

/-- The block of headers that starts with the bytes, with its CRLF. -/
def blockOf (withCrlf : Bool) (len : Nat) (bs : Bytes) : Bytes :=
  if withCrlf then bs.take len else bs.take len ++ crlf

/-- The piece trips an assertion, where it starts with the bytes. -/
def Piece.Trips : Piece → Bytes → Prop
  | block withCrlf len, bs =>
    len = 1 ∨ len = 2 ∨ 2 < len ∧ len ≤ bs.length ∧ StopsShort cr (blockOf withCrlf len bs)
  | body len, _ => len = 1 ∨ len = 2
  | coded _, _ => False

/-- The piece is there and is good, in a stream of these bytes and this tail. -/
def Piece.Passes (t : Tail) : Piece → Bytes → Prop
  | block withCrlf len, bs =>
    len = 0 ∨ 2 < len ∧ len ≤ bs.length ∧ WellFormed cr (blockOf withCrlf len bs)
  | body len, bs => len = 0 ∨ 2 < len ∧ (len ≤ bs.length ∨ tune.maxBodyRam < len)
  | coded len, bs =>
    len = 0 ∨ if len ≤ tune.maxBodyRam then len ≤ bs.length
      else tune.TempOk ∧ (len ≤ bs.length ∨ t = .eof)

/-- No piece trips an assertion, as far as the pieces before it are there and good; and if all are,
what comes last does not, either. -/
def Harmless (t : Tail) (last : Prop) : List Piece → Bytes → Prop
  | [], _ => last
  | piece :: rest, bs =>
    ¬ piece.Trips cr bs ∧ (piece.Passes cr tune t bs → Harmless t last rest (bs.drop piece.len))

/-- How reading a piece may end, from a reader at `p` before the bytes `bs`: with a panic, and the piece
trips; with an error, and it does not pass; or behind the piece, and it does. -/
inductive PieceEnds {R α : Type} [Source R] (piece : Piece) (p : Nat) (bs : Bytes) (t : Tail) :
    Res BarcError α × R → Prop
  | trips (msg : String) (r' : R) (trips : piece.Trips cr bs) : PieceEnds piece p bs t (.panic msg, r')
  | fails (e : BarcError) (r' : R) (safe : ¬ piece.Trips cr bs)
      (fails : ¬ piece.Passes cr tune t bs) : PieceEnds piece p bs t (.err e, r')
  | passes (a : α) (r' : R) (safe : ¬ piece.Trips cr bs) (passes : piece.Passes cr tune t bs)
      (rest : Rest r' (p + piece.len) (bs.drop piece.len) t) : PieceEnds piece p bs t (.ok a, r')

/-- The program reads the piece. -/
def ReadsPiece {R α : Type} [Source R] (piece : Piece) (m : Prog R BarcError α) (t : Tail) : Prop :=
  ∀ r p bs, Rest r p bs t → PieceEnds cr tune piece p bs t (m r)

variable {cr tune}

/-- Reading goes on behind a piece. -/
theorem ReadsPiece.bind {R α β : Type} [Source R] {piece : Piece} {m : Prog R BarcError α}
    {k : α → Prog R BarcError β} {t : Tail} {r : R} {p : Nat} {bs : Bytes} {last : Prop}
    {pieces : List Piece} (h : ReadsPiece cr tune piece m t) (hrest : Rest r p bs t)
    (hk : ∀ a r', Rest r' (p + piece.len) (bs.drop piece.len) t →
      ((k a r').1.Safe ↔ Harmless cr tune t last pieces (bs.drop piece.len))) :
    ((m >>= k) r).1.Safe ↔ Harmless cr tune t last (piece :: pieces) bs := by
  have hends := h r p bs hrest
  rw [Harmless]
  generalize hm : m r = x at hends
  cases hends with
  | trips msg r' htrips =>
    rw [Prog.bind_of_panic hm]
    exact ⟨fun hs => hs.elim, fun hs => absurd htrips hs.1⟩
  | fails e r' hsafe hfails =>
    rw [Prog.bind_of_err hm]
    exact ⟨fun _ => ⟨hsafe, fun hpass => absurd hpass hfails⟩, fun _ => trivial⟩
  | passes a r' hsafe hpass hrest' =>
    rw [Prog.bind_of_ok hm, hk a r' hrest']
    exact ⟨fun hs => ⟨hsafe, fun _ => hs⟩, fun hs => hs.2 hpass⟩

/-! ## Header blocks -/

theorem appendHeaders_safe (hmap : HeaderMap) (heads : List (Bytes × Bytes)) :
    (appendHeaders cr hmap heads).Safe := by
  induction heads generalizing hmap with
  | nil => trivial
  | cons e heads ih =>
    obtain ⟨name, value⟩ := e
    rw [appendHeaders]
    cases cr.headerName name with
    | none => trivial
    | some n =>
      cases cr.headerValue value with
      | none => trivial
      | some v => exact ih _

/-- Parsed headers are appended exactly when all are valid. -/
theorem appendHeaders_ok (hmap : HeaderMap) (heads : List (Bytes × Bytes)) :
    (∃ hs, appendHeaders cr hmap heads = .ok hs) ↔
      ∀ e ∈ heads, (cr.headerName e.1).isSome ∧ (cr.headerValue e.2).isSome := by
  induction heads generalizing hmap with
  | nil => exact ⟨fun _ e he => absurd he List.not_mem_nil, fun _ => ⟨hmap, rfl⟩⟩
  | cons e heads ih =>
    obtain ⟨name, value⟩ := e
    rw [appendHeaders, List.forall_mem_cons]
    cases cr.headerName name with
    | none => simp
    | some n =>
      cases cr.headerValue value with
      | none => simp
      | some v => simpa using ih _

theorem parseHeaders_safe {buf : Bytes} : (parseHeaders cr buf).Safe ↔ ¬ StopsShort cr buf := by
  rw [parseHeaders, StopsShort]
  cases cr.parseHeaders buf maxHeaders with
  | incomplete =>
    refine ⟨?_, fun _ => trivial⟩
    rintro - ⟨size, heads, h, -⟩
    cases h
  | error code =>
    refine ⟨?_, fun _ => trivial⟩
    rintro - ⟨size, heads, h, -⟩
    cases h
  | complete size heads =>
    by_cases hsize : size = buf.length
    · simp only [if_pos hsize]
      refine ⟨?_, fun _ => appendHeaders_safe _ _⟩
      rintro - ⟨size', heads', h, hne⟩
      cases h
      exact hne hsize
    · simp only [if_neg hsize]
      exact ⟨fun h => h.elim, fun h => absurd ⟨size, heads, rfl, hsize⟩ h⟩

theorem parseHeaders_ok {buf : Bytes} :
    (∃ hs, parseHeaders cr buf = .ok hs) ↔ WellFormed cr buf := by
  rw [parseHeaders, WellFormed]
  cases cr.parseHeaders buf maxHeaders with
  | incomplete => simp
  | error code => simp
  | complete size heads =>
    by_cases hsize : size = buf.length
    · simp only [if_pos hsize]
      rw [appendHeaders_ok]
      constructor
      · intro h
        exact ⟨heads, by rw [hsize], h⟩
      · rintro ⟨heads', h, hvalid⟩
        cases h
        exact hvalid
    · simp only [if_neg hsize]
      constructor
      · rintro ⟨hs, h⟩
        cases h
      · rintro ⟨heads', h, -⟩
        cases h
        exact absurd rfl hsize

/-- A block that is there and long enough trips if it is not accepted to its end. -/
theorem block_trips_iff {withCrlf : Bool} {len : Nat} {bs : Bytes} (hlong : 2 < len)
    (hle : len ≤ bs.length) :
    StopsShort cr (blockOf withCrlf len bs) ↔ Piece.Trips cr (.block withCrlf len) bs := by
  refine ⟨fun h => .inr (.inr ⟨hlong, hle, h⟩), ?_⟩
  rintro (h | h | ⟨-, -, h⟩)
  · omega
  · omega
  · exact h

/-- Such a block passes if it is well formed. -/
theorem block_passes_iff {withCrlf : Bool} {len : Nat} {bs : Bytes} {t : Tail} (hlong : 2 < len)
    (hle : len ≤ bs.length) :
    WellFormed cr (blockOf withCrlf len bs) ↔ Piece.Passes cr tune t (.block withCrlf len) bs := by
  refine ⟨fun h => .inr ⟨hlong, hle, h⟩, ?_⟩
  rintro (h | ⟨-, -, h⟩)
  · omega
  · exact h

/-- **`read_headers`** reads a block. -/
theorem readHeaders_reads {R : Type} [Source R] {t : Tail} (ht : t ≠ .more) (withCrlf : Bool)
    (len : Nat) :
    ReadsPiece cr tune (.block withCrlf len) (readHeaders (R := R) cr withCrlf len) t := by
  intro r p bs hrest
  by_cases hz : len = 0
  · rw [readHeaders, if_pos hz]
    refine .passes _ _ ?_ (.inl hz) ?_
    · rintro (h | h | ⟨h, -⟩) <;> omega
    · show Rest r (p + len) (bs.drop len) t
      rwa [hz]
  by_cases hlong : 2 < len
  swap
  · rw [readHeaders, if_neg hz, Prog.bind_of_panic (Prog.assert_false (decide_eq_false hlong) _ _)]
    refine .trips _ _ ?_
    show len = 1 ∨ len = 2 ∨ _
    omega
  by_cases hle : len ≤ bs.length
  · have htake : (bs.take len).length = len := List.length_take_of_le hle
    rw [← List.take_append_drop len bs] at hrest
    obtain ⟨r', hr, hrest'⟩ := readHeaders_rest cr hrest (by omega) withCrlf
    rw [htake] at hr hrest'
    have hsafe := @parseHeaders_safe cr (blockOf withCrlf len bs)
    have hok := @parseHeaders_ok cr (blockOf withCrlf len bs)
    rw [block_trips_iff hlong hle] at hsafe
    rw [@block_passes_iff cr tune withCrlf len bs t hlong hle] at hok
    rw [blockOf] at hsafe hok
    rw [hr]
    cases hx : parseHeaders cr (if withCrlf then bs.take len else bs.take len ++ crlf) with
    | ok hs =>
      rw [hx] at hsafe hok
      exact .passes _ _ (hsafe.mp trivial) (hok.mp ⟨hs, rfl⟩) hrest'
    | err e =>
      rw [hx] at hsafe hok
      refine .fails _ _ (hsafe.mp trivial) fun hpass => ?_
      obtain ⟨hs, h⟩ := hok.mpr hpass
      cases h
    | panic msg =>
      rw [hx] at hsafe
      exact .trips _ _ (by_contra fun h => hsafe.mpr h)
  · obtain ⟨r', hr, -⟩ := readExact_short hrest ht (Nat.lt_of_not_le hle)
    rw [readHeaders, if_neg hz, Prog.bind_of_ok (Prog.assert_true (decide_eq_true hlong) _ _),
      Prog.bind_of_err (Prog.mapErr_of_err hr)]
    refine .fails _ _ ?_ ?_
    · rintro (h | h | ⟨-, h, -⟩)
      · omega
      · omega
      · exact hle h
    · rintro (h | ⟨-, h, -⟩)
      · exact hz h
      · exact hle h

/-! ## Bodies -/

/-- **`read_body_ram` or `slice_body`** of a plain record reads a request body. -/
theorem readOrSliceBody_reads (len : Nat) :
    ReadsPiece cr tune (.body len) (readOrSliceBody tune len) .eof := by
  intro rp p bs hrest
  have htrips (h : ¬ (len = 1 ∨ len = 2)) : ¬ Piece.Trips cr (.body len) bs := h
  by_cases hz : len = 0
  · rw [readOrSliceBody, if_pos (by omega), readBodyRam, if_pos hz]
    refine .passes _ _ (htrips (by omega)) (.inl hz) ?_
    show Rest rp (p + len) (bs.drop len) .eof
    rwa [hz]
  by_cases hlong : 2 < len
  swap
  · have hwhy : len = 1 ∨ len = 2 := by omega
    rw [readOrSliceBody]
    split
    · rw [readBodyRam, if_neg hz, Prog.bind_of_panic
        (Prog.assert_false (by simpa using Nat.le_of_not_lt hlong) _ _)]
      exact .trips _ _ hwhy
    · rw [sliceBody, Prog.bind_of_panic (Prog.assert_false (decide_eq_false hlong) _ _)]
      exact .trips _ _ hwhy
  rw [readOrSliceBody]
  split
  · next hram =>
    rw [readBodyRam, if_neg hz, Prog.bind_of_ok (Prog.assert_true (by simpa using hlong) _ _)]
    by_cases hle : len ≤ bs.length
    · obtain ⟨rp', hr, hrest'⟩ := readExact_ok hrest hle
      rw [Prog.bind_of_ok (Prog.mapErr_of_ok hr)]
      exact .passes _ _ (htrips (by omega)) (.inr ⟨hlong, .inl hle⟩) hrest'
    · obtain ⟨rp', hr, -⟩ := readExact_short hrest (by simp) (Nat.lt_of_not_le hle)
      rw [Prog.bind_of_err (Prog.mapErr_of_err hr)]
      refine .fails _ _ (htrips (by omega)) ?_
      rintro (h | ⟨-, h | h⟩)
      · exact hz h
      · exact hle h
      · omega
  · next hdefer =>
    rw [sliceBody, Prog.bind_of_ok (Prog.assert_true (decide_eq_true hlong) _ _), Prog.get_bind,
      Prog.bind_of_ok (Prog.mapErr_of_ok (ReadPos.seek_current _ _)), Prog.get_bind]
    refine .passes _ _ (htrips (by omega)) (.inr ⟨hlong, .inr (by omega)⟩) ?_
    -- The position is behind the body, even where the file ends before.
    obtain ⟨hpos, hfair, hfut⟩ := ReadPos.rest_iff.mp hrest
    refine ⟨by rw [hpos]; rfl, hfair, fun c hc => ?_⟩
    rw [← hfut c hc, List.drop_drop]

/-- The request body of a compressed record is read without a panic. -/
theorem readReqBody_reads {t : Tail} (len : Nat) :
    ReadsPiece cr tune (.coded len) (readReqBody (R := Stream) tune len) t := by
  intro st p bs hrest
  have hat : st.AtRest bs t := hrest
  rw [readReqBody]
  by_cases hram : len ≤ tune.maxBodyRam
  · rw [if_pos hram]
    rcases readBodyRam_readsNext hat len with
      ⟨hle, im, st', hr, -, hat'⟩ | ⟨hlt, e, st', hr, -⟩ <;> rw [hr]
    · exact .passes _ _ id (.inr (by rw [if_pos hram]; exact hle)) hat'
    · refine .fails _ _ id ?_
      rintro (h | h)
      · omega
      · rw [if_pos hram] at h
        omega
  · rw [if_neg hram]
    rcases readBodyFs_ends tune hat len with
      ⟨im, st', hr, -, hwhen, hat'⟩ | ⟨e, st', hr, htemp, hlt, hne⟩ | ⟨e, hr, htemp, hz⟩ <;> rw [hr]
    · refine .passes _ _ id ?_ hat'
      rcases hwhen with hz | hwhen
      · exact .inl hz
      · exact .inr (by rw [if_neg hram]; exact hwhen)
    · refine .fails _ _ id ?_
      rintro (h | h)
      · omega
      · rw [if_neg hram] at h
        rcases h.2 with hle | heof
        · omega
        · exact hne heof
    · refine .fails _ _ id ?_
      rintro (h | h)
      · exact hz h
      · rw [if_neg hram] at h
        exact htemp h.1

end Pieces

/-! ## Records -/

section Records

variable (cr : Crates) (tune : Tunables)

/-- The bytes of a plain record before its response body. -/
def RecordHead.fore (head : RecordHead) : Nat := head.metaH + head.reqH + head.reqB + head.resH

/-- The parts of a plain record before its response body. -/
def RecordHead.plainPieces (head : RecordHead) : List Piece :=
  [.block true head.metaH, .block true head.reqH, .body head.reqB, .block true head.resH]

/-- The response body is what is left of a plain record: there must be as much as the other parts
have, and not just one or two bytes more. -/
def RecordHead.LeavesBody (head : RecordHead) : Prop :=
  head.fore ≤ head.len ∧ head.len - head.fore ≠ 1 ∧ head.len - head.fore ≠ 2

/-- The parts of a compressed record before its response body. -/
def RecordHead.codedPieces (head : RecordHead) : List Piece :=
  [.block false head.metaH, .block false head.reqH, .coded head.reqB, .block false head.resH]

/-- A record of this head and the bytes behind it trips no assertion: by these bytes if it is plain,
and else, if its compression is built in, by those that its payload decodes to. -/
def HarmlessRecord (decoded : Compression → Bytes → Bytes × Tail) (head : RecordHead) (bs : Bytes) :
    Prop :=
  if head.compress = .plain then
    Harmless cr tune .eof head.LeavesBody head.plainPieces bs
  else cr.built head.compress = true →
    Harmless cr tune (decoded head.compress (bs.take head.len)).2 True head.codedPieces
      (decoded head.compress (bs.take head.len)).1

variable {cr tune}

/-- The program panics exactly when its piece trips. -/
theorem ReadsPiece.safe {R α : Type} [Source R] {piece : Piece} {m : Prog R BarcError α} {t : Tail}
    (h : ReadsPiece cr tune piece m t) {r : R} {p : Nat} {bs : Bytes} (hrest : Rest r p bs t) :
    (m r).1.Safe ↔ ¬ piece.Trips cr bs := by
  have hends := h r p bs hrest
  generalize m r = x at hends
  cases hends with
  | trips msg r' htrips => exact ⟨fun hs => hs.elim, fun hs => absurd htrips hs⟩
  | fails e r' hsafe hfails => exact ⟨fun _ => hsafe, fun _ => trivial⟩
  | passes a r' hsafe hpass hrest' => exact ⟨fun _ => hsafe, fun _ => trivial⟩

/-- **`read_from`** never panics. -/
theorem readFrom_safe {R : Type} [Read R] (lenEstimate : Nat) (r : R) :
    (BodyImage.readFrom tune lenEstimate r).1.Safe := by
  rcases hx : BodyImage.readFrom tune lenEstimate r with ⟨x, r'⟩
  cases x with
  | ok im => trivial
  | err e => trivial
  | panic msg => exact absurd hx BodyImage.readFrom_no_panic

theorem readPlain_safe {start : Nat} {head : RecordHead} {rp : ReadPos} {bs : Bytes}
    (hrest : Rest rp (start + v2HeadSize) bs .eof) :
    (readPlain cr tune start head rp).1.Safe ↔
      Harmless cr tune .eof head.LeavesBody head.plainPieces bs := by
  have heof : Tail.eof ≠ .more := by simp
  rw [readPlain, RecordHead.plainPieces]
  refine (readHeaders_reads heof true head.metaH).bind hrest fun m rp₁ hrest₁ => ?_
  refine (readHeaders_reads heof true head.reqH).bind hrest₁ fun q rp₂ hrest₂ => ?_
  refine (readOrSliceBody_reads head.reqB).bind hrest₂ fun b rp₃ hrest₃ => ?_
  refine (readHeaders_reads heof true head.resH).bind hrest₃ fun s rp₄ hrest₄ => ?_
  -- The parts so far are what the reader has moved over.
  have hpos := (ReadPos.rest_iff.mp hrest₄).pos_eq
  simp only [Piece.len] at hpos
  have htaken : rp₄.pos - start - v2HeadSize = head.fore := by
    rw [RecordHead.fore]
    omega
  rw [Prog.get_bind, htaken, Harmless, RecordHead.LeavesBody]
  by_cases hle : head.fore ≤ head.len
  · rw [Prog.bind_of_ok (Prog.assert_true (decide_eq_true hle) _ _), Prog.bind_safe,
      (@readOrSliceBody_reads cr tune (head.len - head.fore)).safe hrest₄]
    have htrips (len : Nat) (bs : Bytes) : ¬ Piece.Trips cr (.body len) bs ↔ len ≠ 1 ∧ len ≠ 2 :=
      not_or
    rw [htrips]
    exact ⟨fun h => ⟨hle, h.1⟩, fun h => ⟨h.2, fun _ _ _ => trivial⟩⟩
  · rw [Prog.bind_of_panic (Prog.assert_false (decide_eq_false hle) _ _)]
    exact ⟨fun h => h.elim, fun h => absurd h.1 hle⟩

theorem readParts_safe {head : RecordHead} {st : Stream} {bs : Bytes} {t : Tail}
    (h : st.AtRest bs t) :
    (readParts cr tune head st).1.Safe ↔ Harmless cr tune t True head.codedPieces bs := by
  have ht := tail_ne_more h
  have hrest : Rest st 0 bs t := Stream.rest_iff.mpr h
  rw [readParts, RecordHead.codedPieces]
  refine (readHeaders_reads ht false head.metaH).bind hrest fun m st₁ hrest₁ => ?_
  refine (readHeaders_reads ht false head.reqH).bind hrest₁ fun q st₂ hrest₂ => ?_
  refine (readReqBody_reads head.reqB).bind hrest₂ fun b st₃ hrest₃ => ?_
  refine (readHeaders_reads ht false head.resH).bind hrest₃ fun s st₄ hrest₄ => ?_
  rw [Harmless]
  refine ⟨fun _ => trivial, fun _ => Prog.bind_safe.mpr ⟨?_, fun _ _ _ => trivial⟩⟩
  rw [Prog.mapErr_safe]
  exact readFrom_safe 4096 st₄

theorem readRecord_safe {decoded : Compression → Bytes → Bytes × Tail} (hdec : cr.Decodes decoded)
    {start : Nat} {head : RecordHead} {rp : ReadPos} {bs : Bytes} (hreal : head.recType ≠ .reserved)
    (hrest : Rest rp (start + v2HeadSize) bs .eof) :
    (readRecord cr tune start head rp).1.Safe ↔ HarmlessRecord cr tune decoded head bs := by
  rw [readRecord, if_neg hreal, HarmlessRecord]
  by_cases hmode : head.compress = .plain
  · rw [if_neg (by simpa using hmode), if_pos hmode, Prog.bind_safe, readPlain_safe hrest]
    exact ⟨fun h => h.1, fun h => ⟨h, fun _ _ _ => trivial⟩⟩
  · have hpos := (ReadPos.rest_iff.mp hrest).pos_eq
    rw [if_pos hmode, if_neg hmode, Prog.get_bind, Prog.set_bind, Prog.bind_safe, readCompressed]
    -- The decoder gets what is there of the payload.
    have hslice : Rest (rp.subslice rp.pos (rp.pos + head.len)) (start + v2HeadSize)
        (bs.take head.len) .eof := by
      obtain ⟨-, hfair, hfut⟩ := ReadPos.rest_iff.mp hrest
      refine ⟨hpos, hfair, rfl, fun c hc => ?_⟩
      have hlen : rp.pos + head.len - (start + v2HeadSize) = head.len := by omega
      rw [hfut c hc]
      show bs.take (rp.pos + head.len - (start + v2HeadSize)) = _
      rw [hlen]
    generalize rp.subslice rp.pos (rp.pos + head.len) = rs at hslice
    by_cases hbuilt : cr.built head.compress = true
    · rw [decodeWrapper_built hmode hbuilt rs tune.bufferSizeRam]
      have hparts := @readParts_safe cr tune head _ _ _
        (hdec hmode hbuilt hslice (n := tune.bufferSizeRam))
      exact ⟨fun h _ => hparts.mp h.1, fun h => ⟨hparts.mpr (h hbuilt), fun _ _ _ => trivial⟩⟩
    · rw [decodeWrapper_not_built hbuilt rs tune.bufferSizeRam]
      exact ⟨fun _ h => absurd h hbuilt, fun _ => ⟨trivial, fun _ _ _ => trivial⟩⟩

end Records

/-! ## Files -/

/-- The bytes start with the 54 bytes of this head: the marker, five numbers, and two flags. -/
structure StartsWithHead (bs : Bytes) (head : RecordHead) : Prop where
  long : v2HeadSize ≤ bs.length
  marker : byteRange bs 0 6 = ascii "BARC2 "
  len : parseHexField bs 6 18 = .ok head.len
  recType : bs.getD 19 0 = head.recType.flag
  compress : bs.getD 20 0 = head.compress.flag
  metaH : parseHexField bs 22 27 = .ok head.metaH
  reqH : parseHexField bs 28 33 = .ok head.reqH
  reqB : parseHexField bs 34 44 = .ok head.reqB
  resH : parseHexField bs 45 50 = .ok head.resH

theorem byteRange_take {bs : Bytes} {i j n : Nat} (hj : j ≤ n) :
    byteRange (bs.take n) i j = byteRange bs i j := by
  rw [byteRange, byteRange, List.take_take, Nat.min_eq_left hj]

theorem startsWithHead_iff {bs : Bytes} {head : RecordHead} :
    headOf (bs.take v2HeadSize) = .ok (some head) ↔ StartsWithHead bs head := by
  have hfield {i j : Nat} (hj : j ≤ v2HeadSize) :
      parseHexField (bs.take v2HeadSize) i j = parseHexField bs i j := by
    rw [parseHexField, parseHexField, byteRange_take hj]
  have hflag {i : Nat} (hi : i < v2HeadSize) : (bs.take v2HeadSize).getD i 0 = bs.getD i 0 := by
    rw [List.getD_eq_getElem?_getD, List.getD_eq_getElem?_getD, List.getElem?_take_of_lt hi]
  have hparse : parseRecordHead (bs.take v2HeadSize) = .ok head ∧ v2HeadSize ≤ bs.length ↔
      StartsWithHead bs head := by
    rw [parseRecordHead_ok_iff, byteRange_take (by decide), hfield (by decide), hfield (by decide),
      hfield (by decide), hfield (by decide), hfield (by decide), hflag (by decide),
      hflag (by decide)]
    constructor
    · rintro ⟨⟨hmarker, hlen, hrec, hcompress, hmeta, hreq, hbody, hres⟩, hlong⟩
      exact ⟨hlong, hmarker, hlen, hrec, hcompress, hmeta, hreq, hbody, hres⟩
    · intro h
      exact ⟨⟨h.marker, h.len, h.recType, h.compress, h.metaH, h.reqH, h.reqB, h.resH⟩, h.long⟩
  rw [← hparse]
  constructor
  · intro h
    have hsize := headOf_some h
    have hlong : v2HeadSize ≤ bs.length := by
      rw [List.length_take] at hsize
      omega
    rw [headOf, if_neg (by rw [hsize]; decide), if_neg (not_not_intro hsize)] at h
    cases hp : parseRecordHead (bs.take v2HeadSize) with
    | error e =>
      rw [hp] at h
      cases h
    | ok head' =>
      rw [hp] at h
      cases h
      exact ⟨rfl, hlong⟩
  · rintro ⟨hp, hlong⟩
    have hsize : (bs.take v2HeadSize).length = v2HeadSize := List.length_take_of_le hlong
    rw [headOf, if_neg (by rw [hsize]; decide), if_neg (not_not_intro hsize), hp]

theorem StartsWithHead.unique {bs : Bytes} {head head' : RecordHead} (h : StartsWithHead bs head)
    (h' : StartsWithHead bs head') : head' = head := by
  have heq := startsWithHead_iff.mpr h
  rw [startsWithHead_iff.mpr h'] at heq
  cases heq
  rfl

/-- **Reading never panics** but on a record that is not harmless: where a header block, or a body of a
plain record, has a length of 1 or 2, a header block is accepted but not to its end, or the parts of a
plain record are longer than the record. -/
theorem read_safe_iff {cr : Crates} {decoded : Compression → Bytes → Bytes × Tail}
    (hdec : cr.Decodes decoded) (tune : Tunables) {f : File} (hf : f.Own) (pos : Nat) :
    (read cr tune ⟨f, pos⟩).1.Safe ↔
      ∀ head, StartsWithHead (f.content.drop pos) head → head.recType ≠ .reserved →
        HarmlessRecord cr tune decoded head (f.content.drop (pos + v2HeadSize)) := by
  have hrest := ReadPos.rest_own hf pos
  obtain ⟨rp₁, hread, hrest₁⟩ := readRecordHead_rest hrest (by simp) (by simp)
  -- Without a head nothing can trip.
  have hnone (h : ∀ head, headOf ((f.content.drop pos).take v2HeadSize) ≠ .ok (some head))
      {x : Res BarcError (Option Record)} (hx : x.Safe) :
      x.Safe ↔ ∀ head, StartsWithHead (f.content.drop pos) head → head.recType ≠ .reserved →
        HarmlessRecord cr tune decoded head (f.content.drop (pos + v2HeadSize)) :=
    ⟨fun _ head hhead => absurd (startsWithHead_iff.mpr hhead) (h head), fun _ => hx⟩
  cases hx : headOf ((f.content.drop pos).take v2HeadSize) with
  | error e =>
    rw [hx] at hread
    rw [read_of_err hread]
    exact hnone (fun head h => by rw [hx] at h; cases h) trivial
  | ok found =>
    rw [hx] at hread
    cases found with
    | none =>
      rw [read_of_none hread]
      exact hnone (fun head h => by rw [hx] at h; cases h) trivial
    | some head =>
      have hhead := startsWithHead_iff.mp hx
      rw [read_of_head hread]
      by_cases hreal : head.recType = .reserved
      · rw [readRecord_reserved cr tune hreal]
        refine ⟨fun _ head' hhead' hreal' => ?_, fun _ => trivial⟩
        rw [hhead.unique hhead'] at hreal'
        exact absurd hreal hreal'
      · rw [List.length_take_of_le hhead.long, List.drop_drop] at hrest₁
        rw [readRecord_safe hdec hreal hrest₁]
        refine ⟨fun h head' hhead' _ => ?_, fun h => h head hhead hreal⟩
        rw [hhead.unique hhead']
        exact h

/-- A head that says its first block has one byte. -/
theorem shortBlock_panics :
    (read sampleCrates (Sample.tunables 2 3 (by decide))
      ⟨File.quiet (RecordHead.format ⟨1, .dialog, .plain, 1, 0, 0, 0⟩ ++ [13]), 0⟩).1 =
        .panic "assertion failed: len > 2" := by
  decide +kernel

/-- The head of a compressed record with a response header. -/
def codedHead : RecordHead := ⟨19, .dialog, .gzip, 0, 0, 0, 6⟩

def codedRecord : Bytes :=
  codedHead.format ++ (Sample.marked (ascii "a: x" ++ crlf ++ [7, 8, 9]) ++ [0])

theorem codedRecord_starts : StartsWithHead codedRecord codedHead :=
  startsWithHead_iff.mp (by decide +kernel)

/-- What its payload decodes to. -/
theorem codedRecord_decoded : Sample.decoded .gzip ((codedRecord.drop v2HeadSize).take codedHead.len) =
    (ascii "a: x" ++ crlf ++ [7, 8, 9], .eof) := by
  decide +kernel

theorem codedRecord_block : sampleCrates.parseHeaders
    (blockOf false 6 (ascii "a: x" ++ crlf ++ [7, 8, 9])) maxHeaders = .complete 8 [([97], [120])] := by
  decide +kernel

theorem codedRecord_harmless (tune : Tunables) :
    HarmlessRecord sampleCrates tune Sample.decoded codedHead (codedRecord.drop v2HeadSize) := by
  rw [HarmlessRecord, if_neg (by decide)]
  intro _
  have hempty (bs : Bytes) : ¬ Piece.Trips sampleCrates (.block false 0) bs := by
    rintro (h | h | ⟨h, -⟩) <;> omega
  rw [show codedHead.compress = .gzip from rfl, codedRecord_decoded]
  refine ⟨hempty _, fun _ => ⟨hempty _, fun _ => ⟨id, fun _ => ⟨?_, fun _ => trivial⟩⟩⟩⟩
  -- The block of the response header is accepted whole.
  rintro (h | h | ⟨-, -, size, heads, hparse, hsize⟩)
  · cases h
  · cases h
  · have hparse' : sampleCrates.parseHeaders (blockOf false 6 (ascii "a: x" ++ crlf ++ [7, 8, 9]))
        maxHeaders = .complete size heads := hparse
    rw [codedRecord_block] at hparse'
    cases hparse'
    exact hsize rfl

theorem codedRecord_safe :
    (read sampleCrates (Sample.tunables 2 3 (by decide)) ⟨File.quiet codedRecord, 0⟩).1.Safe := by
  have hiff := read_safe_iff sampleCrates_decodes (Sample.tunables 2 3 (by decide))
    (File.quiet_own codedRecord) 0
  rw [hiff, File.quiet_content, List.drop_zero, Nat.zero_add]
  intro head hhead _
  rw [codedRecord_starts.unique hhead]
  exact codedRecord_harmless _

end BodyArchive
