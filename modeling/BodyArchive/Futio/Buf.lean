import BodyArchive.Futio.Tune

/-!
# Buffers over memory maps and plain bytes

`MemMapBuf` is a window `[pos, len)` onto a shared map: `pos` and `len` are absolute, while
`split_to` and `advance` are given lengths relative to `pos`. `UniBodyBuf` is such a window or a
`Bytes`. All of it is plain lists of bytes to a caller, whatever is split off and advanced.
-/

namespace BodyArchive

/-- `&bs[lo..hi]`. -/
def slice (bs : Bytes) (lo hi : Nat) : Res Empty Bytes :=
  if hi < lo then .panic "slice index starts after its end"
  else if bs.length < hi then .panic "range end index out of range for slice"
  else .ok ((bs.take hi).drop lo)

theorem slice_eq {bs : Bytes} {lo hi : Nat} (hlo : lo ≤ hi) (hhi : hi ≤ bs.length) :
    slice bs lo hi = .ok ((bs.drop lo).take (hi - lo)) := by
  rw [slice, if_neg (Nat.not_lt.mpr hlo), if_neg (Nat.not_lt.mpr hhi), List.drop_take]

structure MemMapBuf where
  mm : Bytes
  pos : Nat
  len : Nat
  deriving DecidableEq, Repr

namespace MemMapBuf

/-! ## The window onto a map -/

def new (mmap : Bytes) : MemMapBuf := ⟨mmap, 0, mmap.length⟩

def splitTo (rel : Nat) : Prog MemMapBuf Empty MemMapBuf := do
  Prog.assert (decide (0 < rel)) "assertion failed: rel > 0"
  let b ← Prog.get
  let abs := b.pos + rel
  Prog.assert (decide (abs < b.len)) "assertion failed: abs < self.len"
  Prog.set { b with pos := abs }
  return ⟨b.mm, b.pos, abs⟩

def remaining (b : MemMapBuf) : Res Empty Nat :=
  if b.len < b.pos then .panic "attempt to subtract with overflow" else .ok (b.len - b.pos)

def chunk (b : MemMapBuf) : Res Empty Bytes := slice b.mm b.pos b.len

def advance (rel : Nat) : Prog MemMapBuf Empty Unit := do
  let b ← Prog.get
  let remaining ← Prog.ofRes b.remaining
  Prog.assert (decide (rel ≤ remaining)) "MemMapBuf::advance past end"
  Prog.set { b with pos := b.pos + rel }

def deref (b : MemMapBuf) : Res Empty Bytes := slice b.mm b.pos b.len

def asRef (b : MemMapBuf) : Res Empty Bytes := slice b.mm b.pos b.len

/-- The window lies within the map. -/
def Within (b : MemMapBuf) : Prop := b.pos ≤ b.len ∧ b.len ≤ b.mm.length

/-- What is seen through the window. -/
def seen (b : MemMapBuf) : Bytes := (b.mm.drop b.pos).take (b.len - b.pos)

theorem new_within (mmap : Bytes) : (new mmap).Within := ⟨Nat.zero_le _, Nat.le_refl _⟩

@[simp] theorem new_seen (mmap : Bytes) : (new mmap).seen = mmap := by
  simp [seen, new]

theorem Within.length_seen {b : MemMapBuf} (h : b.Within) : b.seen.length = b.len - b.pos := by
  obtain ⟨hpos, hlen⟩ := h
  rw [seen, List.length_take, List.length_drop]
  omega

theorem Within.chunk {b : MemMapBuf} (h : b.Within) : b.chunk = .ok b.seen :=
  slice_eq h.1 h.2

theorem Within.remaining {b : MemMapBuf} (h : b.Within) : b.remaining = .ok b.seen.length := by
  rw [MemMapBuf.remaining, if_neg (Nat.not_lt.mpr h.1), h.length_seen]

/-- A window cut in two at a length relative to its start. -/
theorem Within.splitTo {b : MemMapBuf} (h : b.Within) {rel : Nat} (hpos : 0 < rel)
    (hrel : rel < b.seen.length) :
    ∃ piece rest, splitTo rel b = (.ok piece, rest) ∧
      (piece.Within ∧ piece.mm = b.mm ∧ piece.seen = b.seen.take rel) ∧
      (rest.Within ∧ rest.mm = b.mm ∧ rest.seen = b.seen.drop rel) := by
  have hlen := h.length_seen
  rw [hlen] at hrel
  obtain ⟨hposLen, hmap⟩ := h
  have habs : b.pos + rel < b.len := by omega
  refine ⟨⟨b.mm, b.pos, b.pos + rel⟩, { b with pos := b.pos + rel }, ?_, ⟨⟨?_, ?_⟩, rfl, ?_⟩,
    ⟨⟨?_, hmap⟩, rfl, ?_⟩⟩
  · unfold MemMapBuf.splitTo
    rw [Prog.bind_of_ok (Prog.assert_true (decide_eq_true hpos) _ _), Prog.get_bind,
      Prog.bind_of_ok (Prog.assert_true (decide_eq_true habs) _ _), Prog.set_bind]
    rfl
  · exact Nat.le_add_right _ _
  · exact Nat.le_trans (Nat.le_of_lt habs) hmap
  · show (b.mm.drop b.pos).take (b.pos + rel - b.pos) = _
    rw [seen, List.take_take, Nat.add_sub_cancel_left, Nat.min_eq_left (Nat.le_of_lt hrel)]
  · exact Nat.le_of_lt habs
  · show (b.mm.drop (b.pos + rel)).take (b.len - (b.pos + rel)) = _
    rw [seen, List.drop_take, List.drop_drop, Nat.sub_sub]

theorem Within.advance {b : MemMapBuf} (h : b.Within) {rel : Nat} (hrel : rel ≤ b.seen.length) :
    ∃ rest, advance rel b = (.ok (), rest) ∧
      rest.Within ∧ rest.mm = b.mm ∧ rest.seen = b.seen.drop rel := by
  have hremaining := h.remaining
  have hlen := h.length_seen
  obtain ⟨hposLen, hmap⟩ := h
  refine ⟨{ b with pos := b.pos + rel }, ?_, ⟨?_, hmap⟩, rfl, ?_⟩
  · unfold MemMapBuf.advance
    rw [Prog.get_bind, hremaining, Prog.bind_of_ok (Prog.ofRes_run _ _),
      Prog.bind_of_ok (Prog.assert_true (decide_eq_true hrel) _ _)]
    rfl
  · show b.pos + rel ≤ b.len
    omega
  · show (b.mm.drop (b.pos + rel)).take (b.len - (b.pos + rel)) = _
    rw [seen, List.drop_take, List.drop_drop, Nat.sub_sub]

end MemMapBuf

/-! ## Either kind of buffer -/

inductive UniBodyBuf where
  | bytes (b : Bytes)
  | memMap (b : MemMapBuf)
  deriving DecidableEq, Repr

namespace UniBodyBuf

def fromMmap (mb : MemMapBuf) : UniBodyBuf := .memMap mb

/-- `From<Bytes>`. -/
def ofBytes (b : Bytes) : UniBodyBuf := .bytes b

def remaining : UniBodyBuf → Res Empty Nat
  | .bytes b => .ok b.length
  | .memMap b => b.remaining

def chunk : UniBodyBuf → Res Empty Bytes
  | .bytes b => .ok b
  | .memMap b => b.chunk

def asRef (u : UniBodyBuf) : Res Empty Bytes := u.chunk

def deref (u : UniBodyBuf) : Res Empty Bytes := u.chunk

/-- `advance` of `Bytes` asserts its bound too. -/
def advance (count : Nat) : Prog UniBodyBuf Empty Unit := fun u =>
  match u with
  | .bytes b =>
    if b.length < count then (.panic "cannot advance past `remaining`", u)
    else (.ok (), .bytes (b.drop count))
  | .memMap b => ((MemMapBuf.advance count b).1, .memMap (MemMapBuf.advance count b).2)

/-- `split_to` of the buffer's kind; that of `Bytes` asserts its bound too. -/
def splitTo (max : Nat) : Prog UniBodyBuf Empty UniBodyBuf := fun u =>
  match u with
  | .bytes b =>
    if b.length < max then (.panic "split_to out of bounds", u)
    else (.ok (.bytes (b.take max)), .bytes (b.drop max))
  | .memMap b =>
    match MemMapBuf.splitTo max b with
    | (.ok piece, rest) => (.ok (.memMap piece), .memMap rest)
    | (.panic msg, rest) => (.panic msg, .memMap rest)

/-- `Splittable::split_if`. Its `self.len()` is that of the slice the buffer dereferences to. -/
def splitIf (max : Nat) : Prog UniBodyBuf Empty (Option UniBodyBuf) := do
  let u ← Prog.get
  let bs ← Prog.ofRes u.deref
  if max < bs.length then do
    let piece ← splitTo max
    return some piece
  else
    return none

/-- `Into<Bytes>`: that of a memory map copies its slice. -/
def intoBytes : UniBodyBuf → Res Empty Bytes
  | .bytes b => .ok b
  | .memMap mb => mb.deref

/-- The buffer is these bytes. -/
def Views : UniBodyBuf → Bytes → Prop
  | .bytes b, bs => b = bs
  | .memMap b, bs => b.Within ∧ b.seen = bs

/-- The buffer is a window within this map, unless it is plain bytes. -/
def WindowOf (m : Bytes) : UniBodyBuf → Prop
  | .bytes _ => True
  | .memMap b => b.mm = m ∧ b.pos ≤ b.len ∧ b.len ≤ m.length

variable {u : UniBodyBuf} {bs m : Bytes}

theorem Views.chunk (h : u.Views bs) : u.chunk = .ok bs := by
  cases u with
  | bytes b =>
    cases h
    rfl
  | memMap b =>
    obtain ⟨hwithin, hseen⟩ := h
    rw [← hseen]
    exact hwithin.chunk

theorem Views.remaining (h : u.Views bs) : u.remaining = .ok bs.length := by
  cases u with
  | bytes b =>
    cases h
    rfl
  | memMap b =>
    obtain ⟨hwithin, hseen⟩ := h
    rw [← hseen]
    exact hwithin.remaining

theorem Views.intoBytes (h : u.Views bs) : u.intoBytes = .ok bs := by
  cases u with
  | bytes b =>
    cases h
    rfl
  | memMap b => exact Views.chunk h

theorem Views.advance (h : u.Views bs) (hm : u.WindowOf m) {n : Nat} (hn : n ≤ bs.length) :
    ∃ rest, advance n u = (.ok (), rest) ∧ rest.Views (bs.drop n) ∧ rest.WindowOf m := by
  cases u with
  | bytes b =>
    cases h
    refine ⟨.bytes (bs.drop n), ?_, rfl, trivial⟩
    unfold UniBodyBuf.advance
    dsimp only
    rw [if_neg (Nat.not_lt.mpr hn)]
  | memMap b =>
    obtain ⟨hwithin, hseen⟩ := h
    subst hseen
    obtain ⟨rest, hrun, hrest, hmm, hrestSeen⟩ := hwithin.advance hn
    refine ⟨.memMap rest, ?_, ⟨hrest, hrestSeen⟩, hmm.trans hm.1, hrest.1, ?_⟩
    · unfold UniBodyBuf.advance
      dsimp only
      rw [hrun]
    · rw [← hm.1, ← hmm]
      exact hrest.2

theorem Views.splitTo (h : u.Views bs) (hm : u.WindowOf m) {max : Nat} (hpos : 0 < max)
    (hmax : max < bs.length) :
    ∃ piece rest, splitTo max u = (.ok piece, rest) ∧
      (piece.Views (bs.take max) ∧ piece.WindowOf m) ∧
      (rest.Views (bs.drop max) ∧ rest.WindowOf m) := by
  cases u with
  | bytes b =>
    cases h
    refine ⟨.bytes (bs.take max), .bytes (bs.drop max), ?_, ⟨rfl, trivial⟩, rfl, trivial⟩
    unfold UniBodyBuf.splitTo
    dsimp only
    rw [if_neg (Nat.not_lt.mpr (Nat.le_of_lt hmax))]
  | memMap b =>
    obtain ⟨hwithin, hseen⟩ := h
    subst hseen
    obtain ⟨piece, rest, hrun, ⟨hpiece, hpieceMm, hpieceSeen⟩, hrest, hrestMm, hrestSeen⟩ :=
      hwithin.splitTo hpos hmax
    refine ⟨.memMap piece, .memMap rest, ?_,
      ⟨⟨hpiece, hpieceSeen⟩, hpieceMm.trans hm.1, hpiece.1, ?_⟩,
      ⟨hrest, hrestSeen⟩, hrestMm.trans hm.1, hrest.1, ?_⟩
    · unfold UniBodyBuf.splitTo
      dsimp only
      rw [hrun]
    · rw [← hm.1, ← hpieceMm]
      exact hpiece.2
    · rw [← hm.1, ← hrestMm]
      exact hrest.2

theorem Views.splitIf_none (h : u.Views bs) {max : Nat} (hmax : bs.length ≤ max) :
    splitIf max u = (.ok none, u) := by
  unfold splitIf
  rw [Prog.get_bind, deref, h.chunk, Prog.bind_of_ok (Prog.ofRes_run _ _),
    if_neg (Nat.not_lt.mpr hmax)]
  rfl

theorem Views.splitIf_some (h : u.Views bs) (hm : u.WindowOf m) {max : Nat} (hpos : 0 < max)
    (hmax : max < bs.length) :
    ∃ piece rest, splitIf max u = (.ok (some piece), rest) ∧
      (piece.Views (bs.take max) ∧ piece.WindowOf m) ∧
      (rest.Views (bs.drop max) ∧ rest.WindowOf m) := by
  obtain ⟨piece, rest, hrun, hviews⟩ := h.splitTo hm hpos hmax
  refine ⟨piece, rest, ?_, hviews⟩
  unfold splitIf
  rw [Prog.get_bind, deref, h.chunk, Prog.bind_of_ok (Prog.ofRes_run _ _), if_pos hmax,
    Prog.bind_of_ok hrun]
  rfl

end UniBodyBuf

/-! ## Pieces split off and advanced -/

inductive BufOp where
  | splitIf (max : Nat)
  | advance (n : Nat)

namespace BufOp

/-- One call on a buffer, with the piece it splits off. -/
def run : BufOp → Prog UniBodyBuf Empty (Option UniBodyBuf)
  | .splitIf max => UniBodyBuf.splitIf max
  | .advance n => do
    UniBodyBuf.advance n
    return none

/-- The call on piece `i` of a buffer; a piece it splits off goes before what is left. -/
def on (op : BufOp) : Nat → Prog (List UniBodyBuf) Empty Unit
  | _, [] => (.ok (), [])
  | 0, u :: us =>
    match op.run u with
    | (.ok piece, rest) => (.ok (), piece.toList ++ rest :: us)
    | (.panic msg, rest) => (.panic msg, rest :: us)
  | i + 1, u :: us => ((on op i us).1, u :: (on op i us).2)

/-- A sequence of calls, each on one of the pieces there are by then. -/
def runAll : List (Nat × BufOp) → Prog (List UniBodyBuf) Empty Unit
  | [] => pure ()
  | (i, op) :: ops => do
    op.on i
    runAll ops

/-- What the call makes of a plain list of bytes. -/
def plain : BufOp → Bytes → List Bytes
  | .splitIf max, bs => if max < bs.length then [bs.take max, bs.drop max] else [bs]
  | .advance n, bs => [bs.drop n]

def plainOn (op : BufOp) : Nat → List Bytes → List Bytes
  | _, [] => []
  | 0, bs :: pieces => op.plain bs ++ pieces
  | i + 1, bs :: pieces => bs :: plainOn op i pieces

def plainAll : List (Nat × BufOp) → List Bytes → List Bytes
  | [], pieces => pieces
  | (i, op) :: ops, pieces => plainAll ops (op.plainOn i pieces)

/-- What the callers keep to. -/
def Allowed : BufOp → Bytes → Prop
  | .splitIf max, _ => 0 < max
  | .advance n, bs => n ≤ bs.length

instance : (op : BufOp) → (bs : Bytes) → Decidable (op.Allowed bs)
  | .splitIf max, _ => inferInstanceAs (Decidable (0 < max))
  | .advance n, bs => inferInstanceAs (Decidable (n ≤ bs.length))

def AllAllowed : List (Nat × BufOp) → List Bytes → Prop
  | [], _ => True
  | (i, op) :: ops, pieces =>
    (∀ bs ∈ pieces[i]?, op.Allowed bs) ∧ AllAllowed ops (op.plainOn i pieces)

/-- A buffer that is these bytes and keeps within its map. -/
def Piece (m : Bytes) (u : UniBodyBuf) (bs : Bytes) : Prop := u.Views bs ∧ u.WindowOf m

variable {m : Bytes}

theorem run_pieces {op : BufOp} {u : UniBodyBuf} {bs : Bytes} (h : Piece m u bs)
    (hop : op.Allowed bs) :
    ∃ piece rest, op.run u = (.ok piece, rest) ∧
      List.Forall₂ (Piece m) (piece.toList ++ [rest]) (op.plain bs) := by
  obtain ⟨hviews, hm⟩ := h
  cases op with
  | advance n =>
    obtain ⟨rest, hrun, hrest⟩ := hviews.advance hm hop
    refine ⟨none, rest, ?_, .cons hrest .nil⟩
    show (UniBodyBuf.advance n >>= fun _ => pure none) u = _
    rw [Prog.bind_of_ok hrun]
    rfl
  | splitIf max =>
    rw [plain]
    by_cases hmax : max < bs.length
    · obtain ⟨piece, rest, hrun, hpiece, hrest⟩ := hviews.splitIf_some hm hop hmax
      rw [if_pos hmax]
      exact ⟨some piece, rest, hrun, .cons hpiece (.cons hrest .nil)⟩
    · rw [if_neg hmax]
      exact ⟨none, u, hviews.splitIf_none (Nat.le_of_not_lt hmax), .cons ⟨hviews, hm⟩ .nil⟩

theorem on_pieces {op : BufOp} {us : List UniBodyBuf} {pieces : List Bytes}
    (h : List.Forall₂ (Piece m) us pieces) (i : Nat) (hop : ∀ bs ∈ pieces[i]?, op.Allowed bs) :
    ∃ us', op.on i us = (.ok (), us') ∧ List.Forall₂ (Piece m) us' (op.plainOn i pieces) := by
  induction h generalizing i with
  | nil =>
    refine ⟨[], ?_, ?_⟩
    · rw [on]
    · rw [plainOn]
      exact .nil
  | @cons u bs us pieces hu hus ih =>
    cases i with
    | zero =>
      obtain ⟨piece, rest, hrun, hpieces⟩ := run_pieces hu (hop bs rfl)
      refine ⟨piece.toList ++ rest :: us, ?_, ?_⟩
      · unfold on
        rw [hrun]
      · unfold plainOn
        rw [List.append_cons]
        exact List.rel_append hpieces hus
    | succ i =>
      obtain ⟨us', hrun, hus'⟩ := ih i hop
      refine ⟨u :: us', ?_, ?_⟩
      · unfold on
        rw [hrun]
      · unfold plainOn
        exact .cons hu hus'

theorem runAll_pieces (ops : List (Nat × BufOp)) {us : List UniBodyBuf} {pieces : List Bytes}
    (h : List.Forall₂ (Piece m) us pieces) (hops : AllAllowed ops pieces) :
    ∃ us', runAll ops us = (.ok (), us') ∧ List.Forall₂ (Piece m) us' (plainAll ops pieces) := by
  induction ops generalizing us pieces with
  | nil => exact ⟨us, rfl, h⟩
  | cons op ops ih =>
    obtain ⟨i, op⟩ := op
    obtain ⟨hop, hrest⟩ := hops
    obtain ⟨us', hrun, hus'⟩ := on_pieces h i hop
    obtain ⟨us'', hrun', hus''⟩ := ih hus' hrest
    refine ⟨us'', ?_, hus''⟩
    unfold runAll
    rw [Prog.bind_of_ok hrun, hrun']

end BufOp

namespace UniBodyBuf

/-- Everything a caller can ask of a buffer answers as these bytes. -/
structure Reads (u : UniBodyBuf) (bs : Bytes) : Prop where
  remaining : u.remaining = .ok bs.length
  chunk : u.chunk = .ok bs
  asRef : u.asRef = .ok bs
  intoBytes : u.intoBytes = .ok bs

theorem Views.reads {u : UniBodyBuf} {bs : Bytes} (h : u.Views bs) : u.Reads bs :=
  ⟨h.remaining, h.chunk, h.chunk, h.intoBytes⟩

/-- A buffer that reads as these bytes, and whose splits take exactly `max` of them. -/
structure Behaves (m : Bytes) (u : UniBodyBuf) (bs : Bytes) : Prop where
  reads : u.Reads bs
  within : u.WindowOf m
  splits : ∀ max, 0 < max → max < bs.length → ∃ piece rest front back,
    splitIf max u = (.ok (some piece), rest) ∧ piece.Reads front ∧ rest.Reads back ∧
      front.length = max ∧ front ++ back = bs
  whole : ∀ max, bs.length ≤ max → splitIf max u = (.ok none, u)

theorem behaves_of_piece {m : Bytes} {u : UniBodyBuf} {bs : Bytes} (h : BufOp.Piece m u bs) :
    u.Behaves m bs := by
  obtain ⟨hviews, hm⟩ := h
  refine ⟨hviews.reads, hm, fun max hpos hmax => ?_, fun max hmax => hviews.splitIf_none hmax⟩
  obtain ⟨piece, rest, hrun, hpiece, hrest⟩ := hviews.splitIf_some hm hpos hmax
  refine ⟨piece, rest, _, _, hrun, hpiece.1.reads, hrest.1.reads, ?_, List.take_append_drop max bs⟩
  exact List.length_take_of_le (Nat.le_of_lt hmax)

end UniBodyBuf

/-- **Memory-mapped and plain buffers behave alike.** Whatever is split off and advanced, neither
kind panics, and the pieces of both are those of a plain list of bytes. -/
theorem buffers_alike (m : Bytes) {ops : List (Nat × BufOp)} (h : BufOp.AllAllowed ops [m]) :
    ∃ maps plains,
      BufOp.runAll ops [UniBodyBuf.fromMmap (MemMapBuf.new m)] = (.ok (), maps) ∧
      BufOp.runAll ops [UniBodyBuf.ofBytes m] = (.ok (), plains) ∧
      List.Forall₂ (UniBodyBuf.Behaves m) maps (BufOp.plainAll ops [m]) ∧
      List.Forall₂ (UniBodyBuf.Behaves m) plains (BufOp.plainAll ops [m]) := by
  have hmap : BufOp.Piece m (UniBodyBuf.fromMmap (MemMapBuf.new m)) m :=
    ⟨⟨MemMapBuf.new_within m, MemMapBuf.new_seen m⟩, rfl, MemMapBuf.new_within m⟩
  have hplain : BufOp.Piece m (UniBodyBuf.ofBytes m) m := ⟨rfl, trivial⟩
  obtain ⟨maps, hrunMap, hmaps⟩ := BufOp.runAll_pieces ops (.cons hmap .nil) h
  obtain ⟨plains, hrunPlain, hplains⟩ := BufOp.runAll_pieces ops (.cons hplain .nil) h
  exact ⟨maps, plains, hrunMap, hrunPlain, hmaps.imp fun _ _ => UniBodyBuf.behaves_of_piece,
    hplains.imp fun _ _ => UniBodyBuf.behaves_of_piece⟩

/-- Seven bytes: the last of three pieces comes from a rest that was advanced and split again. -/
def sampleOps : List (Nat × BufOp) :=
  [(0, .splitIf 4), (1, .advance 1), (0, .splitIf 2), (1, .advance 1)]

theorem buffers_alike_sample :
    ∃ maps plains,
      BufOp.runAll sampleOps [UniBodyBuf.fromMmap (MemMapBuf.new (ascii "ABCDEFG"))] =
        (.ok (), maps) ∧
      BufOp.runAll sampleOps [UniBodyBuf.ofBytes (ascii "ABCDEFG")] = (.ok (), plains) ∧
      List.Forall₂ (UniBodyBuf.Behaves (ascii "ABCDEFG")) maps
        (BufOp.plainAll sampleOps [ascii "ABCDEFG"]) ∧
      List.Forall₂ (UniBodyBuf.Behaves (ascii "ABCDEFG")) plains
        (BufOp.plainAll sampleOps [ascii "ABCDEFG"]) := by
  apply buffers_alike
  refine ⟨?_, ?_, ?_, ?_, trivial⟩
  all_goals
    intro bs hbs
    cases hbs
    decide

end BodyArchive
