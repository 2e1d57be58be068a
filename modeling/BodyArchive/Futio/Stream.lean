import BodyArchive.Futio.Blocking
import BodyArchive.Futio.Buf
import BodyArchive.Body.Content

/-!
# Streams over body images

`AsyncBodyImage` is a stream of the buffers of an image: those it has in RAM, chunks of its file, or
its memory map in one piece. `PermitBodyImage` and `DispatchBodyImage` are the two blocking wrappers
around its poll routine, whose `Service` is `imageService`. What is still to come of a stream is
`ImageCore.Left`, and `serve_left` is what one item takes from it.
-/

namespace BodyArchive

/-! ## Output buffers -/

/-- The bounds on the item type of a stream, with what `Buf` gives of it. `fromMmap` is given how the
advice on the map goes. A buffer has no arbiter to assert anything of. -/
class OutputBuf (B : Type) where
  ofBytes : Bytes → B
  fromMmap : Except IoError Unit → Bytes → Res IoError B
  chunk : B → Res Empty Bytes
  remaining : B → Res Empty Nat
  chunk_ofBytes : ∀ bs, chunk (ofBytes bs) = .ok bs
  fromMmap_err : ∀ e m, fromMmap (.error e) m = .err e
  fromMmap_ok : ∀ {m}, m ≠ [] →
    ∃ b, fromMmap (.ok ()) m = .ok b ∧ chunk b = .ok m ∧ remaining b = .ok m.length
  fromMmap_own : ∀ advised m, fromMmap advised m ≠ .panic arbiterAssertion
  remaining_own : ∀ b, remaining b ≠ .panic arbiterAssertion

/-- `Bytes` copies a map. -/
instance : OutputBuf Bytes where
  ofBytes b := b
  fromMmap advised m :=
    match advised with
    | .ok () => .ok m
    | .error e => .err e
  chunk b := .ok b
  remaining b := .ok b.length
  chunk_ofBytes _ := rfl
  fromMmap_err _ _ := rfl
  fromMmap_ok _ := ⟨_, rfl, rfl, rfl⟩
  fromMmap_own := by
    intro advised m h
    cases advised <;> cases h
  remaining_own := by
    intro b h
    cases h

namespace UniBodyBuf

/-- `OutputBuf::from_mmap`: the first byte is read. -/
def ofMmap (advised : Except IoError Unit) (m : Bytes) : Res IoError UniBodyBuf :=
  let buf := MemMapBuf.new m
  match advised with
  | .error e => .err e
  | .ok () =>
    match buf.chunk with
    | .ok (_ :: _) => .ok (fromMmap buf)
    | .ok [] => .panic "index out of bounds: the len is 0 but the index is 0"
    | .panic msg => .panic msg

theorem new_views (m : Bytes) : (fromMmap (MemMapBuf.new m)).Views m :=
  ⟨MemMapBuf.new_within m, MemMapBuf.new_seen m⟩

instance : OutputBuf UniBodyBuf where
  ofBytes := ofBytes
  fromMmap := ofMmap
  chunk := chunk
  remaining := remaining
  chunk_ofBytes _ := rfl
  fromMmap_err _ _ := rfl
  fromMmap_ok := by
    intro m hm
    refine ⟨fromMmap (MemMapBuf.new m), ?_, (new_views m).chunk, (new_views m).remaining⟩
    have hchunk : (MemMapBuf.new m).chunk = .ok m := (new_views m).chunk
    rw [ofMmap, hchunk]
    cases m with
    | nil => exact absurd rfl hm
    | cons b m => rfl
  fromMmap_own := by
    intro advised m
    have hchunk : (MemMapBuf.new m).chunk = .ok m := (new_views m).chunk
    unfold ofMmap
    dsimp only
    rw [hchunk]
    cases advised with
    | error e =>
      intro h
      cases h
    | ok u =>
      cases m with
      | nil => exact fun h => absurd (Res.panic.inj h) (by decide)
      | cons b m =>
        intro h
        cases h
  remaining_own := by
    intro u
    cases u with
    | bytes b =>
      intro h
      cases h
    | memMap b =>
      show MemMapBuf.remaining b ≠ _
      unfold MemMapBuf.remaining
      split
      · exact fun h => absurd (Res.panic.inj h) (by decide)
      · intro h
        cases h

end UniBodyBuf

/-! ## The stream of an image -/

inductive AsyncBodyState where
  | ram (iter : List Bytes)
  | file (rs : ReadSlice)
  | memMap (map : Option Bytes)
  deriving DecidableEq

/-- An `AsyncBodyImage` apart from its arbiter. `advice` is how the system call on its map goes. -/
structure ImageCore where
  state : AsyncBodyState
  len : Nat
  consumed : Nat
  tune : FutioTunables
  advice : Except IoError Unit

abbrev AsyncBodyImage (BA : Type) := Adaptor ImageCore BA

/-- An item of a stream, or its end. -/
abbrev StreamItem (B : Type) := Option (Except IoError B)

/-- `From<Canceled>` of an I/O error. -/
def ioCanceled : IoError := .other 125

/-- One call of `read` for a chunk. -/
def readChunkStep (rlen : Nat) (_ : Unit) : Prog ReadSlice Empty (Unit ⊕ StreamItem Bytes) := do
  match ← tryRead rlen with
  | .ok [] => pure (.inr none)
  | .ok bs => pure (.inr (some (.ok bs)))
  | .error .interrupted => pure (.inl ())
  | .error e => pure (.inr (some (.error e)))

/-- A chunk of the file, read until it is not interrupted. -/
def readChunk (rlen : Nat) : Prog ReadSlice Empty (StreamItem Bytes) :=
  Prog.loop Read.fuel (readChunkStep rlen) ()

namespace ImageCore

def new (body : BodyImage) (tune : FutioTunables) (advice : Except IoError Unit) : ImageCore where
  state :=
    match body.explode with
    | .ram v => .ram v
    | .fsRead rs => .file rs
    | .memMap mmap => .memMap (some mmap)
  len := body.len
  consumed := 0
  tune := tune
  advice := advice

def isRam (c : ImageCore) : Bool :=
  match c.state with
  | .ram _ => true
  | _ => false

def isEndStream (c : ImageCore) : Bool := decide (c.len ≤ c.consumed)

/-- `size_hint`, which is exact. -/
def sizeHint (c : ImageCore) : Nat := c.len

section Items

variable (B : Type) [OutputBuf B]

def nextBuf (iter : List Bytes) : Prog ImageCore Empty (StreamItem B) := fun c =>
  match iter with
  | b :: iter => (.ok (some (.ok (OutputBuf.ofBytes b))),
      { c with state := .ram iter, consumed := c.consumed + b.length })
  | [] => (.ok none, c)

def readFile (rs : ReadSlice) : Prog ImageCore Empty (StreamItem B) := fun c =>
  let rlen := min c.tune.image.bufferSizeFs (c.len - c.consumed)
  match readChunk rlen rs with
  | (.ok (some (.ok bs)), rs) => (.ok (some (.ok (OutputBuf.ofBytes bs))),
      { c with state := .file rs, consumed := c.consumed + bs.length })
  | (.ok (some (.error e)), rs) => (.ok (some (.error e)), { c with state := .file rs })
  | (.ok none, rs) => (.ok none, { c with state := .file rs })
  | (.panic msg, rs) => (.panic msg, { c with state := .file rs })

def takeMap (mb : Bytes) : Prog ImageCore Empty (StreamItem B) := fun c =>
  match (OutputBuf.fromMmap c.advice mb : Res IoError B) with
  | .ok buf =>
    match OutputBuf.remaining buf with
    | .ok n =>
      (.ok (some (.ok buf)), { c with state := .memMap none, consumed := c.consumed + n })
    | .panic msg => (.panic msg, { c with state := .memMap none })
  | .err e => (.ok (some (.error e)), { c with state := .memMap none })
  | .panic msg => (.panic msg, { c with state := .memMap none })

end Items

end ImageCore

namespace AsyncBodyImage

variable (B : Type) [OutputBuf B] {BA : Type}

/-- What `poll_impl` does in each state, once it may. -/
def pollState : Prog (AsyncBodyImage BA) Empty (StreamItem B) := do
  match (← Prog.get).core.state with
  | .ram iter => Adaptor.onCore (ImageCore.nextBuf B iter)
  | .file rs => do
    Adaptor.mark (.operation .read)
    Adaptor.onCore (ImageCore.readFile B rs)
  | .memMap (some mb) => do
    Adaptor.mark (.operation .mapAccess)
    Adaptor.onCore (ImageCore.takeMap B mb)
  | .memMap none => pure none

def pollImpl [BlockingArbiter BA] : Prog (AsyncBodyImage BA) Empty (Poll (StreamItem B)) := do
  let this ← Prog.get
  Prog.assert (decide (this.core.consumed ≤ this.core.len)) "attempt to subtract with overflow"
  let avail := this.core.len - this.core.consumed
  if avail = 0 then return .ready none
  else do
    -- All states besides Ram require blocking.
    let granted ← if this.core.isRam then pure true else Adaptor.canBlock
    if granted then do
      let item ← pollState B
      return .ready item
    else return .pending

def pollNext (_ : Context) : Prog (AsyncBodyImage LenientArbiter) Empty (Poll (StreamItem B)) :=
  pollImpl B

end AsyncBodyImage

section Wrappers

variable (B : Type) [OutputBuf B]

/-- What the wrappers are built on. -/
def streamRoutine : Routine ImageCore (StreamItem B) where
  poll := AsyncBodyImage.pollImpl B
  opCanceled := some (.error ioCanceled)
  semaphore c := c.tune.blockingSemaphore

abbrev PermitBodyImage := Permitted ImageCore

namespace PermitBodyImage

def new (core : ImageCore) : PermitBodyImage := ⟨Adaptor.new core, none⟩

def pollNext (cx : Context) : Prog PermitBodyImage Empty (Poll (StreamItem B)) :=
  Permitted.poll (streamRoutine B) cx

def isEndStream (this : PermitBodyImage) : Bool := this.inner.core.isEndStream

def sizeHint (this : PermitBodyImage) : Nat := this.inner.core.sizeHint

end PermitBodyImage

structure DispatchBodyImage where
  state : Dispatching ImageCore (StreamItem B)
  len : Nat

namespace DispatchBodyImage

variable {B}

def new (core : ImageCore) : DispatchBodyImage B := ⟨.inner (some (Adaptor.new core)), core.len⟩

def onState {α : Type} (m : Prog (Dispatching ImageCore (StreamItem B)) Empty α) :
    Prog (DispatchBodyImage B) Empty α := fun this =>
  ((m this.state).1, { this with state := (m this.state).2 })

def pollNext (cx : Context) : Prog (DispatchBodyImage B) Empty (Poll (StreamItem B)) :=
  onState (Dispatching.poll (streamRoutine B) cx)

def isEndStream (this : DispatchBodyImage B) : Res Empty Bool :=
  match this.state with
  | .inner (some ob) => .ok ob.core.isEndStream
  | .inner none => .panic "called `Option::unwrap()` on a `None` value"
  | .dispatch _ => .ok false

def sizeHint (this : DispatchBodyImage B) : Nat := this.len

/-- A thread of the pool gets to the closure. -/
def work (this : DispatchBodyImage B) : DispatchBodyImage B :=
  { this with state := this.state.work (streamRoutine B) }

end DispatchBodyImage

end Wrappers

/-! ## What a poll comes to -/

namespace ImageCore

/-- There is something left, and it is not in RAM. -/
def wants (c : ImageCore) : Bool := decide (c.consumed < c.len) && !c.isRam

def operations (c : ImageCore) : List Operation :=
  match c.state with
  | .ram _ => []
  | .file _ => [.read]
  | .memMap (some _) => [.mapAccess]
  | .memMap none => []

section Serve

variable (B : Type) [OutputBuf B]

/-- What the image has next. -/
def next (c : ImageCore) : Res Empty (StreamItem B) × ImageCore :=
  match c.state with
  | .ram iter => nextBuf B iter c
  | .file rs => readFile B rs c
  | .memMap (some mb) => takeMap B mb c
  | .memMap none => (.ok none, c)

/-- The next item, unless all has been consumed. -/
def serve (c : ImageCore) : Res Empty (StreamItem B) × ImageCore :=
  if c.len < c.consumed then (.panic "attempt to subtract with overflow", c)
  else if c.len = c.consumed then (.ok none, c)
  else next B c

end Serve

end ImageCore

/-- The service of the streams. -/
def imageService (B : Type) [OutputBuf B] : Service ImageCore (StreamItem B) :=
  ⟨ImageCore.wants, ImageCore.serve B, ImageCore.operations⟩

section Meets

variable {B : Type} [OutputBuf B] {BA : Type}

theorem pollState_run (s : AsyncBodyImage BA) :
    AsyncBodyImage.pollState B s = ((s.core.next B).1,
      ⟨(s.core.next B).2, s.arbiter, s.marks ++ s.core.operations.map .operation⟩) := by
  obtain ⟨⟨state, len, consumed, tune, advice⟩, arbiter, marks⟩ := s
  unfold AsyncBodyImage.pollState
  rw [Prog.get_bind]
  cases state with
  | ram iter => simp [Adaptor.onCore, ImageCore.next, ImageCore.operations]
  | file rs => rfl
  | memMap map =>
    cases map with
    | none => simp [ImageCore.next, ImageCore.operations]
    | some mb => rfl

theorem pollItem_run (s : AsyncBodyImage BA) :
    (do let item ← AsyncBodyImage.pollState B
        return .ready item : Prog (AsyncBodyImage BA) Empty (Poll (StreamItem B))) s =
      ((s.core.next B).1.polled,
        ⟨(s.core.next B).2, s.arbiter, s.marks ++ s.core.operations.map .operation⟩) := by
  have hstate := pollState_run (B := B) s
  rcases hnext : s.core.next B with ⟨item | e | msg, c⟩ <;> rw [hnext] at hstate
  · rw [Prog.bind_of_ok hstate]
    rfl
  · exact e.elim
  · rw [Prog.bind_of_panic hstate]
    rfl

variable [BlockingArbiter BA] {s : AsyncBodyImage BA}

theorem pollImpl_over (h : s.core.len < s.core.consumed) :
    AsyncBodyImage.pollImpl B s = (.panic "attempt to subtract with overflow", s) := by
  unfold AsyncBodyImage.pollImpl
  rw [Prog.get_bind]
  exact Prog.bind_of_panic (Prog.assert_false (decide_eq_false (Nat.not_le.mpr h)) _ _)

theorem pollImpl_end (h : s.core.len = s.core.consumed) :
    AsyncBodyImage.pollImpl B s = (.ok (.ready none), s) := by
  unfold AsyncBodyImage.pollImpl
  rw [Prog.get_bind,
    Prog.bind_of_ok (Prog.assert_true (decide_eq_true (Nat.le_of_eq h.symm)) _ _)]
  dsimp only
  rw [if_pos (by omega)]
  rfl

/-- A poll with something left, from what the arbiter says. -/
theorem pollImpl_left (h : s.core.consumed < s.core.len) :
    AsyncBodyImage.pollImpl B s = ((do
      let granted ← if s.core.isRam then pure true else Adaptor.canBlock
      if granted then do
        let item ← AsyncBodyImage.pollState B
        return .ready item
      else return .pending : Prog (AsyncBodyImage BA) Empty (Poll (StreamItem B))) s) := by
  unfold AsyncBodyImage.pollImpl
  rw [Prog.get_bind,
    Prog.bind_of_ok (Prog.assert_true (decide_eq_true (Nat.le_of_lt h)) _ _)]
  dsimp only
  rw [if_neg (by omega)]

theorem operations_ram {c : ImageCore} (h : c.isRam = true) : c.operations = [] := by
  obtain ⟨state, len, consumed, tune, advice⟩ := c
  cases state with
  | ram iter => rfl
  | file rs => cases h
  | memMap map => cases h

/-- **The poll routine of the streams** blocks where its service wants to. -/
theorem streamRoutine_meets {good : ImageCore → List Mark → Prop}
    (hnow : ∀ {c ms}, good c ms → c.wants = false → good (c.serve B).2 ms)
    (hblock : ∀ {c ms}, good c ms → c.wants = true → good (c.serve B).2 (ms ++ span c.operations)) :
    (streamRoutine B).Meets (imageService B) good where
  now := by
    intro BA _ s ms _ hwants
    show AsyncBodyImage.pollImpl B s = ((s.core.serve B).1.polled, { s with core := (s.core.serve B).2 })
    unfold ImageCore.serve
    by_cases hover : s.core.len < s.core.consumed
    · rw [if_pos hover]
      exact pollImpl_over hover
    rw [if_neg hover]
    by_cases hend : s.core.len = s.core.consumed
    · rw [if_pos hend]
      exact pollImpl_end hend
    rw [if_neg hend]
    have hleft : s.core.consumed < s.core.len := by omega
    have hram : s.core.isRam = true := by
      have hor : decide (s.core.consumed < s.core.len) = false ∨ (!s.core.isRam) = false :=
        Bool.and_eq_false_iff.mp hwants
      rcases hor with hor | hor
      · exact absurd hleft (of_decide_eq_false hor)
      · simpa using hor
    rw [pollImpl_left hleft, if_pos hram, Prog.pure_bind']
    have hitem := pollItem_run (B := B) s
    rw [operations_ram hram, List.map_nil, List.append_nil] at hitem
    exact hitem
  wait := by
    intro BA _ s a hwants hcan
    obtain ⟨hleft, hram⟩ : s.core.consumed < s.core.len ∧ s.core.isRam = false := by
      simpa [imageService, ImageCore.wants] using hwants
    have hrun : (Adaptor.canBlock : Prog (AsyncBodyImage BA) Empty Bool) s =
        (.ok false, { s with arbiter := a }) := by
      rw [Adaptor.canBlock, hcan]
    show AsyncBodyImage.pollImpl B s = _
    rw [pollImpl_left hleft, hram, if_neg Bool.false_ne_true, Prog.bind_of_ok hrun]
    rfl
  block := by
    intro BA _ s a ms _ hwants hcan
    obtain ⟨hleft, hram⟩ : s.core.consumed < s.core.len ∧ s.core.isRam = false := by
      simpa [imageService, ImageCore.wants] using hwants
    have hrun : (Adaptor.canBlock : Prog (AsyncBodyImage BA) Empty Bool) s =
        (.ok true, { s with arbiter := a }) := by
      rw [Adaptor.canBlock, hcan]
    show AsyncBodyImage.pollImpl B s = ((s.core.serve B).1.polled,
      ⟨(s.core.serve B).2, a, s.marks ++ s.core.operations.map .operation⟩)
    rw [pollImpl_left hleft, hram, if_neg Bool.false_ne_true, Prog.bind_of_ok hrun,
      ImageCore.serve, if_neg (by omega), if_neg (by omega)]
    exact pollItem_run (B := B) { s with arbiter := a }
  good_now := hnow
  good_block := hblock

end Meets

/-! ## What is left of a body -/

theorem readChunkStep_decreasing (rlen : Nat) : Prog.Decreasing Read.fuel (readChunkStep rlen) := by
  intro u rs u' rs' h
  rw [readChunkStep] at h
  rcases hr : Read.read rs rlen with ⟨(e | bs), rs₁⟩ <;> rw [Prog.bind_of_ok (tryRead_of hr)] at h
  · cases e <;> cases h
    exact Read.fuel_interrupted hr
  · cases bs <;> cases h

/-- **A chunk** is some of what is left, however often the read is interrupted. -/
theorem readChunk_left {rs : ReadSlice} {p rlen : Nat} {left : Bytes} (h : Rest rs p left .eof)
    (hlen : 0 < rlen) (hne : left ≠ []) :
    ∃ k rs', readChunk rlen rs = (.ok (some (.ok (left.take k))), rs') ∧ 0 < k ∧ k ≤ rlen ∧
      k ≤ left.length ∧ Rest rs' (p + k) (left.drop k) .eof := by
  refine Prog.loop_rule (readChunkStep_decreasing rlen) (fun _ rs => Rest rs p left .eof)
    (fun x => ∃ k rs', x = (.ok (some (.ok (left.take k))), rs') ∧ 0 < k ∧ k ≤ rlen ∧
      k ≤ left.length ∧ Rest rs' (p + k) (left.drop k) .eof) ?_ () rs h
  intro u rs hrest
  rw [readChunkStep]
  rcases Source.step hrest hlen (by simp) with
    ⟨k, rs', hr, hkn, hkl, hpos, -, hrest'⟩ | ⟨rs', hr, hrest'⟩ | ⟨hnil, -⟩
  · rw [Prog.bind_of_ok (tryRead_of hr)]
    cases hc : left.take k with
    | nil => exact absurd (nil_of_take hpos hc) hne
    | cons b bs => exact ⟨k, rs', by rw [hc], hpos hne, hkn, hkl, hrest'⟩
  · rw [Prog.bind_of_ok (tryRead_of hr)]
    exact hrest'
  · exact absurd hnil hne

namespace ImageCore

def isFile (c : ImageCore) : Bool :=
  match c.state with
  | .file _ => true
  | _ => false

/-- The bytes that are still to come, all of which count. -/
def Left (c : ImageCore) (left : Bytes) : Prop :=
  c.len = c.consumed + left.length ∧
  match c.state with
  | .ram iter => iter.flatten = left ∧ ∀ b ∈ iter, b ≠ []
  | .file rs => ∃ p, Rest rs p left .eof
  | .memMap (some m) => m = left
  | .memMap none => left = []

theorem new_left {im : BodyImage} {body : Bytes} (h : im.Backs body) (tune : FutioTunables)
    (advice : Except IoError Unit) : (new im tune advice).Left body := by
  obtain ⟨state, len⟩ := im
  obtain ⟨hlen, h⟩ := h
  refine ⟨hlen.trans (Nat.zero_add _).symm, ?_⟩
  cases state with
  | ram v => exact h
  | fsRead f =>
    obtain ⟨hown, rfl, -⟩ := h
    exact ⟨0, BodyImage.whole_rest hown hlen⟩
  | fsReadSlice rs =>
    obtain ⟨hpos, hstop, hf, hfut⟩ := h
    exact ⟨rs.start, BodyImage.slice_rest hpos hstop hf hfut⟩
  | memMap m => exact h

/-- What no item changes. -/
structure Same (c c' : ImageCore) : Prop where
  tune_eq : c'.tune = c.tune
  advice_eq : c'.advice = c.advice
  len_eq : c'.len = c.len
  isFile_eq : c'.isFile = c.isFile

theorem Same.trans {c c' c'' : ImageCore} (h : c.Same c') (h' : c'.Same c'') : c.Same c'' :=
  ⟨h'.tune_eq.trans h.tune_eq, h'.advice_eq.trans h.advice_eq, h'.len_eq.trans h.len_eq,
    h'.isFile_eq.trans h.isFile_eq⟩

/-- An item of some bytes, after which the rest is left. -/
structure Takes {B : Type} [OutputBuf B] (c : ImageCore) (b : B) (c' : ImageCore) (bs rest : Bytes) :
    Prop where
  chunk_eq : OutputBuf.chunk b = .ok bs
  ne_nil : bs ≠ []
  file_le : c.isFile = true → bs.length ≤ c.tune.image.bufferSizeFs
  same : c.Same c'
  left : c'.Left rest

section Serve

variable {B : Type} [OutputBuf B]

theorem next_left {c : ImageCore} {left : Bytes} (h : c.Left left) (hne : left ≠ [])
    (hadvice : c.advice = .ok ()) :
    ∃ (b : B) (c' : ImageCore) (bs rest : Bytes), left = bs ++ rest ∧
      c.next B = (.ok (some (.ok b)), c') ∧ c.Takes b c' bs rest := by
  obtain ⟨state, len, consumed, tune, advice⟩ := c
  obtain ⟨hlen, h⟩ := h
  simp only at hlen hadvice h
  subst hadvice
  cases state with
  | ram iter =>
    obtain ⟨rfl, hbufs⟩ := h
    cases iter with
    | nil => exact absurd rfl hne
    | cons b iter =>
      refine ⟨OutputBuf.ofBytes b, ⟨.ram iter, len, consumed + b.length, tune, .ok ()⟩, b,
        iter.flatten, rfl, rfl, OutputBuf.chunk_ofBytes b, hbufs b List.mem_cons_self, ?_,
        ⟨rfl, rfl, rfl, rfl⟩, ?_, rfl, ?_⟩
      · intro hfile
        cases hfile
      · show len = consumed + b.length + iter.flatten.length
        rw [hlen, List.flatten_cons, List.length_append, Nat.add_assoc]
      · intro b' hb'
        exact hbufs b' (List.mem_cons_of_mem _ hb')
  | file rs =>
    obtain ⟨p, hrest⟩ := h
    have hpos := List.length_pos_iff.mpr hne
    have hbuffer := tune.image.buffer_fs_pos
    obtain ⟨k, rs', hread, hk, hkr, hkl, hrest'⟩ :=
      @readChunk_left rs p (min tune.image.bufferSizeFs (len - consumed)) left hrest (by omega) hne
    have htake : (left.take k).length = k := List.length_take_of_le hkl
    refine ⟨OutputBuf.ofBytes (left.take k),
      ⟨.file rs', len, consumed + (left.take k).length, tune, .ok ()⟩, left.take k, left.drop k,
      (List.take_append_drop k left).symm, ?_, OutputBuf.chunk_ofBytes _, ?_, ?_,
      ⟨rfl, rfl, rfl, rfl⟩, ?_, ?_⟩
    · show readFile B rs _ = _
      rw [readFile]
      dsimp only
      rw [hread]
    · exact List.ne_nil_of_length_pos (by omega)
    · intro _
      show (left.take k).length ≤ tune.image.bufferSizeFs
      omega
    · show len = consumed + (left.take k).length + (left.drop k).length
      rw [List.length_drop]
      omega
    · exact ⟨p + k, hrest'⟩
  | memMap map =>
    cases map with
    | none => exact absurd h hne
    | some m =>
      obtain rfl : m = left := h
      obtain ⟨b, hmap, hchunk, hremaining⟩ := OutputBuf.fromMmap_ok (B := B) hne
      refine ⟨b, ⟨.memMap none, len, consumed + m.length, tune, .ok ()⟩, m, [],
        (List.append_nil m).symm, ?_, hchunk, hne, ?_, ⟨rfl, rfl, rfl, rfl⟩, hlen, rfl⟩
      · show takeMap B m _ = _
        rw [takeMap]
        dsimp only
        rw [hmap]
        dsimp only
        rw [hremaining]
      · intro hfile
        cases hfile

/-- **What a poll comes to** while something is left: the next of it, and its end after that. -/
theorem serve_left {c : ImageCore} {left : Bytes} (h : c.Left left) (hadvice : c.advice = .ok ()) :
    (left = [] ∧ c.serve B = (.ok none, c)) ∨
      ∃ (b : B) (c' : ImageCore) (bs rest : Bytes), left = bs ++ rest ∧
        c.serve B = (.ok (some (.ok b)), c') ∧ c.Takes b c' bs rest := by
  have hlen := h.1
  unfold serve
  rw [if_neg (by omega)]
  by_cases hnil : left = []
  · subst hnil
    exact .inl ⟨rfl, if_pos hlen⟩
  · have hpos := List.length_pos_iff.mpr hnil
    rw [if_neg (by omega)]
    exact .inr (next_left h hnil hadvice)

end Serve

end ImageCore

end BodyArchive
