import BodyArchive.Io.Read

/-!
# Files read by position

A file handle in the hands of a reader, together with what is going to happen to the file: its
environment lists, for each coming read call, the writes other handles complete before it and
how the call itself goes. Reading a file nobody writes is the case of an environment without
writes; the environment that has run out leaves the file alone and delivers in full.

`ReadPos` is a handle with a position of its own, `ReadSlice` one limited to a range. Both are
`Source`s: `Rest` at a position says what every *future* content of the file has there.

File offsets are unbounded numbers here: a file that exists is far below the end of the 64-bit
range, and nothing in the code depends on where that is.
-/

namespace BodyArchive

/-! ## Writes at a position -/

/-- A completed write of `bytes` at the offset `pos`. -/
structure FileOp where
  pos : Nat
  bytes : Bytes
  deriving DecidableEq, Repr

/-- The content after a write: a gap before it is filled with zeros. -/
def FileOp.apply (c : Bytes) (op : FileOp) : Bytes :=
  if op.bytes = [] then c
  else (c ++ List.replicate (op.pos - c.length) 0).take op.pos ++ op.bytes ++
    c.drop (op.pos + op.bytes.length)

theorem FileOp.apply_length_le (c : Bytes) (op : FileOp) :
    (op.apply c).length ≤ c.length + (op.pos + op.bytes.length) := by
  rw [FileOp.apply]
  split
  · omega
  · simp only [List.length_append, List.length_take, List.length_drop, List.length_replicate]
    omega

/-- A write at the end appends. -/
theorem FileOp.apply_end (c bs : Bytes) : FileOp.apply c ⟨c.length, bs⟩ = c ++ bs := by
  rw [FileOp.apply]
  split
  · next h =>
    have hb : bs = [] := h
    rw [hb, List.append_nil]
  · simp

/-- A write over bytes that are there replaces them. -/
theorem FileOp.apply_over (a old new z : Bytes) (h : new.length = old.length) :
    FileOp.apply (a ++ old ++ z) ⟨a.length, new⟩ = a ++ new ++ z := by
  rw [FileOp.apply]
  split
  · next hn =>
    have hn' : new = [] := hn
    have ho : old = [] := List.eq_nil_of_length_eq_zero (by rw [← h, hn']; rfl)
    rw [hn', ho]
  · simp only [List.append_assoc, List.length_append]
    have hgap : a.length - (a.length + (old.length + z.length)) = 0 := by omega
    have hdrop : (a ++ (old ++ z)).drop (a.length + new.length) = z := by
      rw [h, ← List.drop_drop, List.drop_left, List.drop_left]
    rw [hdrop, hgap, List.take_left]

namespace FileOp

/-- A write behind a prefix of the content keeps it. -/
theorem prefix_apply {base c : Bytes} {op : FileOp} (h : base <+: c) (hpos : base.length ≤ op.pos) :
    base <+: op.apply c := by
  obtain ⟨z, rfl⟩ := h
  rw [apply]
  split
  · exact List.prefix_append _ _
  · obtain ⟨k, hk⟩ := Nat.exists_eq_add_of_le hpos
    rw [hk, List.append_assoc, List.append_assoc, List.take_length_add_append,
      List.append_assoc]
    exact List.prefix_append _ _

/-- Writes that put pieces one after the other, from an offset on. -/
def place : Nat → List Bytes → List FileOp
  | _, [] => []
  | p, b :: bs => ⟨p, b⟩ :: place (p + b.length) bs

theorem place_append (p : Nat) (as bs : List Bytes) :
    place p (as ++ bs) = place p as ++ place (p + as.flatten.length) bs := by
  induction as generalizing p with
  | nil => simp [place]
  | cons a as ih =>
    simp only [List.cons_append, place, ih, List.flatten_cons, List.length_append, Nat.add_assoc]

theorem take_place (p : Nat) (bs : List Bytes) (n : Nat) :
    (place p bs).take n = place p (bs.take n) := by
  induction bs generalizing p n with
  | nil => simp [place]
  | cons b bs ih =>
    cases n with
    | zero => rfl
    | succ n => rw [place, List.take_succ_cons, ih, List.take_succ_cons, place]

/-- **Pieces placed at the end** of a file append what they amount to. -/
theorem foldl_place (c : Bytes) (bs : List Bytes) :
    (place c.length bs).foldl apply c = c ++ bs.flatten := by
  induction bs generalizing c with
  | nil => simp [place]
  | cons b bs ih =>
    rw [place, List.foldl_cons, apply_end, ← List.length_append, ih, List.flatten_cons,
      List.append_assoc]

end FileOp

/-! ## Handles and their environment -/

/-- What happens up to and in one read call. -/
structure Event where
  ops : List FileOp
  delivery : Delivery
  deriving DecidableEq, Repr

/-- The content after the writes of some events. -/
def after (c : Bytes) (evs : List Event) : Bytes :=
  (evs.flatMap Event.ops).foldl FileOp.apply c

/-- An open file. -/
structure File where
  content : Bytes
  env : List Event
  deriving DecidableEq, Repr

namespace File

/-- A file that nobody else touches and whose reads all deliver in full. -/
def quiet (c : Bytes) : File := ⟨c, []⟩

/-- The next event: the writes before the call take effect, and the call's delivery is known. -/
def tick (f : File) : Delivery × File :=
  match f.env with
  | [] => (.full, f)
  | e :: env => (e.delivery, ⟨e.ops.foldl FileOp.apply f.content, env⟩)

/-- `read_at`: read into a slice of `n` bytes from the offset `off`. -/
def readAt (f : File) (off n : Nat) : Except IoError Bytes × File :=
  (f.tick.1.deliver n (f.tick.2.content.drop off), f.tick.2)

/-- All coming reads are fair. -/
def Fair (f : File) : Prop := ∀ e ∈ f.env, e.delivery.Fair

/-- A content the file has at some coming read. -/
def Future (f : File) (c : Bytes) : Prop := ∃ k, c = after f.content (f.env.take k)

@[simp] theorem quiet_content (c : Bytes) : (quiet c).content = c := rfl

theorem future_now (f : File) : f.Future f.content := ⟨0, rfl⟩

theorem tick_future (f : File) : f.Future f.tick.2.content := by
  rw [tick]
  split
  · exact f.future_now
  · next e env he => exact ⟨1, by simp [he, after]⟩

theorem future_of_tick {f : File} {c : Bytes} (h : f.tick.2.Future c) : f.Future c := by
  rw [tick] at h
  split at h
  · exact h
  · next e env he =>
    obtain ⟨k, rfl⟩ := h
    exact ⟨k + 1, by simp [he, after]⟩

theorem tick_fair {f : File} (h : f.Fair) : f.tick.1.Fair ∧ f.tick.2.Fair := by
  rw [tick]
  split
  · exact ⟨trivial, h⟩
  · next e env he =>
    exact ⟨h e (by simp [he]), fun e' he' => h e' (by simp [he, he'])⟩

/-- The file some reads later. -/
def skip : Nat → File → File
  | 0, f => f
  | k + 1, f => skip k f.tick.2

theorem future_of_skip (k : Nat) {f : File} {c : Bytes} (h : (f.skip k).Future c) : f.Future c := by
  induction k generalizing f with
  | zero => exact h
  | succ k ih => exact future_of_tick (ih h)

theorem skip_fair (k : Nat) {f : File} (h : f.Fair) : (f.skip k).Fair := by
  induction k generalizing f with
  | zero => exact h
  | succ k ih => exact ih (tick_fair h).2

theorem skip_env (k : Nat) (f : File) : (f.skip k).env = f.env.drop k := by
  induction k generalizing f with
  | zero => rfl
  | succ k ih =>
    rw [skip, ih, tick]
    split
    · next he => simp [he]
    · next e env he => rw [he, List.drop_succ_cons]

theorem skip_content (k : Nat) (f : File) : (f.skip k).content = after f.content (f.env.take k) := by
  induction k generalizing f with
  | zero => simp [skip, after]
  | succ k ih =>
    rw [skip, ih, tick]
    split
    · next he => simp [he, after]
    · next e env he => simp [he, after]

theorem skip_skip (j k : Nat) (f : File) : (f.skip j).skip k = f.skip (j + k) := by
  induction j generalizing f with
  | zero => rw [skip, Nat.zero_add]
  | succ j ih => rw [skip, ih, Nat.succ_add, skip]

/-- A property that the passing of events keeps. -/
def Stable (J : File → Prop) : Prop := ∀ f, J f → J f.tick.2

theorem Stable.skip {J : File → Prop} (hJ : Stable J) (k : Nat) {f : File} (h : J f) :
    J (f.skip k) := by
  induction k generalizing f with
  | zero => exact h
  | succ k ih => exact ih (hJ f h)

/-- Being some events later than another file. -/
theorem stable_later (f : File) : Stable fun g => ∃ k, g = f.skip k := by
  rintro g ⟨k, rfl⟩
  exact ⟨k + 1, skip_skip k 1 f⟩

/-- Nobody else writes the file, and all reads are fair. -/
def Own (f : File) : Prop := ∀ e ∈ f.env, e.ops = [] ∧ e.delivery.Fair

instance (f : File) : Decidable f.Own := inferInstanceAs (Decidable (∀ e ∈ f.env, _))

theorem quiet_own (c : Bytes) : (quiet c).Own := by simp [quiet, Own]

theorem Own.fair {f : File} (h : f.Own) : f.Fair := fun e he => (h e he).2

theorem Own.future {f : File} (h : f.Own) {c : Bytes} (hc : f.Future c) : c = f.content := by
  obtain ⟨k, rfl⟩ := hc
  have hops : (f.env.take k).flatMap Event.ops = [] := by
    rw [List.flatMap_eq_nil_iff]
    exact fun e he => (h e (List.mem_of_mem_take he)).1
  rw [after, hops]
  rfl

/-! ### The variant

`reach` bounds the length the file will ever have. -/

def reach (f : File) : Nat :=
  f.content.length + ((f.env.flatMap Event.ops).map fun op => op.pos + op.bytes.length).sum

theorem foldl_apply_length (ops : List FileOp) (c : Bytes) :
    (ops.foldl FileOp.apply c).length ≤
      c.length + (ops.map fun op => op.pos + op.bytes.length).sum := by
  induction ops generalizing c with
  | nil => simp
  | cons op ops ih =>
    have h₁ := ih (op.apply c)
    have h₂ := op.apply_length_le c
    simp only [List.foldl_cons, List.map_cons, List.sum_cons]
    omega

theorem tick_reach (f : File) : f.tick.2.reach ≤ f.reach := by
  rw [tick]
  split
  · exact Nat.le_refl _
  · next e env he =>
    have := foldl_apply_length e.ops f.content
    simp only [reach, he, List.flatMap_cons, List.map_append, List.sum_append]
    omega

theorem content_le_reach (f : File) : f.content.length ≤ f.reach := Nat.le_add_right ..

theorem tick_env (f : File) : f.tick.2.env.length ≤ f.env.length := by
  rw [tick]
  split
  · exact Nat.le_refl _
  · next e env he => simp [he]

/-- The bound on coming reads from `off`. -/
def fuel (f : File) (off : Nat) : Nat := f.env.length + (f.reach - off)

theorem readAt_length {f f' : File} {off n : Nat} {bs : Bytes}
    (h : f.readAt off n = (.ok bs, f')) : bs.length ≤ n := by
  rw [readAt] at h
  simp only [Prod.mk.injEq] at h
  rcases hd : f.tick.1 with _ | k | _ | e <;> rw [hd] at h <;> simp [Delivery.deliver] at h
  all_goals
    obtain ⟨rfl, -⟩ := h
    simp only [List.length_take]
    omega

/-- Reading on from a later offset, no call can do more than before. -/
theorem readAt_fuel_le {f f' : File} {off n k : Nat} {x : Except IoError Bytes}
    (h : f.readAt off n = (x, f')) : f'.fuel (off + k) ≤ f.fuel off := by
  rw [readAt] at h
  simp only [Prod.mk.injEq] at h
  obtain ⟨-, rfl⟩ := h
  have h₁ := f.tick_reach
  have h₂ := f.tick_env
  simp only [fuel]
  omega

theorem readAt_fuel {f f' : File} {off n : Nat} {bs : Bytes}
    (h : f.readAt off n = (.ok bs, f')) (hne : bs ≠ []) :
    f'.fuel (off + bs.length) < f.fuel off := by
  rw [readAt] at h
  simp only [Prod.mk.injEq] at h
  obtain ⟨hd, rfl⟩ := h
  have hpos := List.length_pos_iff.mpr hne
  have hle : bs.length ≤ (f.tick.2.content.drop off).length := by
    rcases hk : f.tick.1 with _ | k | _ | e <;> rw [hk] at hd <;> simp [Delivery.deliver] at hd
    all_goals
      subst hd
      rw [List.length_take]
      omega
  rw [List.length_drop] at hle
  have h₁ := f.tick_reach
  have h₂ := f.tick_env
  have h₃ := f.tick.2.content_le_reach
  simp only [fuel]
  omega

theorem readAt_fuel_interrupted {f f' : File} {off n : Nat}
    (h : f.readAt off n = (.error .interrupted, f')) : f'.fuel off < f.fuel off := by
  rw [readAt] at h
  simp only [Prod.mk.injEq] at h
  obtain ⟨hd, rfl⟩ := h
  have h₁ := f.tick_reach
  have h₂ : f.tick.2.env.length < f.env.length := by
    rw [tick] at hd ⊢
    split at hd
    · simp [Delivery.deliver] at hd
    · next e env he => simp [he]
  simp only [fuel]
  omega

/-- A read from a fair file. -/
theorem readAt_fair {f : File} (hf : f.Fair) (off : Nat) {n : Nat} (hn : 0 < n) :
    f.readAt off n = (.error .interrupted, f.tick.2) ∨
      ∃ k, f.readAt off n = (.ok ((f.tick.2.content.drop off).take k), f.tick.2) ∧ k ≤ n ∧
        k ≤ (f.tick.2.content.drop off).length ∧ (f.tick.2.content.drop off ≠ [] → 0 < k) := by
  rcases (tick_fair hf).1.deliver hn (f.tick.2.content.drop off) with h | ⟨k, h, hk⟩
  · exact .inl (by rw [readAt, h])
  · exact .inr ⟨k, by rw [readAt, h], hk⟩

end File

/-! ## A handle with its own position -/

/-- `olio::fs::rc::ReadPos`. -/
structure ReadPos where
  file : File
  pos : Nat
  deriving DecidableEq, Repr

/-- `std::io::SeekFrom`, as far as readers use it. -/
inductive SeekFrom where
  | start (n : Nat)
  | current (d : Int)
  deriving DecidableEq, Repr

/-- `olio::fs::rc::ReadSlice`: reads are limited to the offsets below `stop`. -/
structure ReadSlice where
  file : File
  start : Nat
  stop : Nat
  pos : Nat
  deriving DecidableEq, Repr

namespace ReadPos

def read (rp : ReadPos) (n : Nat) : Except IoError Bytes × ReadPos :=
  match rp.file.readAt rp.pos n with
  | (.ok bs, f) => (.ok bs, ⟨f, rp.pos + bs.length⟩)
  | (.error e, f) => (.error e, ⟨f, rp.pos⟩)

/-- `seek`: any position that is not negative, also past the end of the file. -/
def seek (target : SeekFrom) : Prog ReadPos IoError Unit := fun rp =>
  match target with
  | .start n => (.ok (), { rp with pos := n })
  | .current d =>
    if 0 ≤ (rp.pos : Int) + d then (.ok (), { rp with pos := ((rp.pos : Int) + d).toNat })
    else (.err .invalidInput, rp)

/-- `subslice`: a slice of the same file. -/
def subslice (rp : ReadPos) (start stop : Nat) : ReadSlice := ⟨rp.file, start, stop, start⟩

theorem seek_start (n : Nat) (rp : ReadPos) :
    seek (.start n) rp = (.ok (), { rp with pos := n }) := rfl

theorem seek_current (n : Nat) (rp : ReadPos) :
    seek (.current n) rp = (.ok (), { rp with pos := rp.pos + n }) := by
  have h : (0 : Int) ≤ (rp.pos : Int) + (n : Int) := by omega
  simp only [seek, if_pos h]
  rw [show ((rp.pos : Int) + (n : Int)).toNat = rp.pos + n by omega]

theorem read_cases {rp rp' : ReadPos} {n : Nat} {x : Except IoError Bytes}
    (h : rp.read n = (x, rp')) :
    rp.file.readAt rp.pos n = (x, rp'.file) ∧
      rp'.pos = rp.pos + (match x with | .ok bs => bs.length | .error _ => 0) := by
  rw [read] at h
  rcases hr : rp.file.readAt rp.pos n with ⟨e | bs, f⟩ <;> rw [hr] at h <;> cases h <;>
    exact ⟨rfl, rfl⟩

instance : Read ReadPos where
  read := read
  fuel rp := rp.file.fuel rp.pos
  read_length h := File.readAt_length (read_cases h).1
  fuel_le := by
    intro rp n x rp' h
    obtain ⟨hr, hp⟩ := read_cases h
    rw [hp]
    exact File.readAt_fuel_le hr
  fuel_bytes := by
    intro rp n bs rp' h hne
    obtain ⟨hr, hp⟩ := read_cases h
    have := File.readAt_fuel hr hne
    simpa only [hp] using this
  fuel_interrupted := by
    intro rp n rp' h
    obtain ⟨hr, hp⟩ := read_cases h
    have := File.readAt_fuel_interrupted hr
    simpa only [hp, Nat.add_zero] using this

@[simp] theorem read_def (rp : ReadPos) (n : Nat) : Read.read rp n = rp.read n := rfl

/-- What every future content of the file has at the position. -/
def AtRest (rp : ReadPos) (p : Nat) (bs : Bytes) : Tail → Prop
  | .eof => rp.pos = p ∧ rp.file.Fair ∧ ∀ c, rp.file.Future c → c.drop p = bs
  | .more => rp.pos = p ∧ rp.file.Fair ∧ ∀ c, rp.file.Future c → bs <+: c.drop p
  | .failed _ => False

theorem AtRest.pos_eq {rp : ReadPos} {p : Nat} {bs : Bytes} {t : Tail} (h : rp.AtRest p bs t) :
    rp.pos = p := by
  cases t with
  | eof => exact h.1
  | more => exact h.1
  | failed e => exact h.elim

theorem AtRest.fair {rp : ReadPos} {p : Nat} {bs : Bytes} {t : Tail} (h : rp.AtRest p bs t) :
    rp.file.Fair := by
  cases t with
  | eof => exact h.2.1
  | more => exact h.2.1
  | failed e => exact h.elim

/-- Every future content starts, at the position, with the known bytes. -/
theorem AtRest.starts {rp : ReadPos} {p : Nat} {bs : Bytes} {t : Tail} (h : rp.AtRest p bs t)
    {c : Bytes} (hc : rp.file.Future c) : bs <+: c.drop p := by
  cases t with
  | eof =>
    exact ⟨[], by rw [List.append_nil, h.2.2 c hc]⟩
  | more => exact h.2.2 c hc
  | failed e => exact h.elim

/-- Moving on over `k` of the known bytes, through a file that only has futures it had. -/
theorem AtRest.move {rp : ReadPos} {p k : Nat} {bs : Bytes} {t : Tail} (h : rp.AtRest p bs t)
    (hk : k ≤ bs.length) {f : File} (hf : f.Fair) (hfut : ∀ c, f.Future c → rp.file.Future c) :
    AtRest ⟨f, rp.pos + k⟩ (p + k) (bs.drop k) t := by
  have hp := h.pos_eq
  cases t with
  | eof =>
    refine ⟨by rw [hp], hf, fun c hc => ?_⟩
    rw [← h.2.2 c (hfut c hc), List.drop_drop]
  | more =>
    refine ⟨by rw [hp], hf, fun c hc => ?_⟩
    obtain ⟨z, hz⟩ := h.2.2 c (hfut c hc)
    refine ⟨z, ?_⟩
    rw [← List.drop_append_of_le_length hk, hz, List.drop_drop]
  | failed e => exact h.elim

instance : Source ReadPos where
  Rest := AtRest
  step := by
    intro rp n p bs t h hn hmore
    have hp := h.pos_eq
    have htick : ∀ c, rp.file.tick.2.Future c → rp.file.Future c := fun c => File.future_of_tick
    have hfair := (File.tick_fair h.fair).2
    have hpre := h.starts rp.file.tick_future
    rcases File.readAt_fair h.fair rp.pos hn with hr | ⟨k, hr, hkn, hkl, hpos⟩
    · refine .inr (.inl ⟨⟨rp.file.tick.2, rp.pos⟩, by rw [read_def, read, hr], ?_⟩)
      exact h.move (Nat.zero_le _) hfair htick
    · rw [hp] at hr hkl hpos
      have hread : rp.read n =
          (.ok ((rp.file.tick.2.content.drop p).take k), ⟨rp.file.tick.2, p + k⟩) := by
        rw [read, hp, hr]
        simp only [List.length_take, Nat.min_eq_left hkl]
      -- The bytes delivered are the known ones: either all are known, or the slice is not longer.
      obtain ⟨z, hz⟩ := hpre
      have hkb : k ≤ bs.length := by
        cases t with
        | eof => rw [← h.2.2 _ rp.file.tick_future]; exact hkl
        | more => exact Nat.le_trans hkn (hmore rfl)
        | failed e => exact h.elim
      have hbytes : (rp.file.tick.2.content.drop p).take k = bs.take k := by
        rw [← hz, List.take_append_of_le_length hkb]
      refine .inl ⟨k, ⟨rp.file.tick.2, p + k⟩, ?_, hkn, hkb, fun hne => hpos ?_, fun hnil => ?_, ?_⟩
      · rw [read_def, hread, hbytes]
      · intro hnil
        rw [hnil] at hz
        exact hne (List.append_eq_nil_iff.mp hz).1
      · cases t with
        | eof => rfl
        | more =>
          have := hmore rfl
          rw [hnil] at this
          simp at this
          omega
        | failed e => exact h.elim
      · have := h.move hkb hfair htick
        rwa [hp] at this

theorem rest_iff {rp : ReadPos} {p : Nat} {bs : Bytes} {t : Tail} :
    Rest rp p bs t ↔ rp.AtRest p bs t := Iff.rfl

/-- A handle on a file that has one content only, now and in the future. -/
def Steady (c : Bytes) (rp : ReadPos) : Prop :=
  rp.file.Fair ∧ ∀ c', rp.file.Future c' → c' = c

theorem steady_own {f : File} (h : f.Own) (pos : Nat) : Steady f.content ⟨f, pos⟩ :=
  ⟨h.fair, fun _ hc => h.future hc⟩

/-- A steady file, read from where the handle is. -/
theorem Steady.rest {c : Bytes} {rp : ReadPos} (h : Steady c rp) :
    Rest rp rp.pos (c.drop rp.pos) .eof :=
  ⟨rfl, h.1, fun c' hc' => by rw [h.2 c' hc']⟩

theorem steady_stable (c : Bytes) :
    File.Stable fun f => f.Fair ∧ ∀ c', f.Future c' → c' = c :=
  fun _ h => ⟨(File.tick_fair h.1).2, fun c' hc' => h.2 c' (File.future_of_tick hc')⟩

/-- A read call does nothing to the file but let time pass. -/
theorem preserves_tryRead {J : File → Prop} (hJ : File.Stable J) {ε : Type} (n : Nat) :
    Prog.Preserves (fun rp => J rp.file) (tryRead n : Prog ReadPos ε _) := by
  intro rp h
  have hfile : (tryRead n rp : Res ε _ × ReadPos).2.file = rp.file.tick.2 := by
    show (rp.read n).2.file = _
    rcases hr : rp.file.readAt rp.pos n with ⟨e | bs, f⟩ <;>
      · have hf : f = rp.file.tick.2 := (congrArg Prod.snd hr).symm
        rw [read, hr, hf]
  show J _
  rw [hfile]
  exact hJ _ h

theorem preserves_seek (J : File → Prop) (target : SeekFrom) :
    Prog.Preserves (fun rp => J rp.file) (seek target) := by
  intro rp h
  cases target with
  | start n => exact h
  | current d =>
    simp only [seek]
    split <;> exact h

/-- A file nobody else writes, read from `pos` on. -/
theorem rest_own {f : File} (h : f.Own) (pos : Nat) :
    Rest (⟨f, pos⟩ : ReadPos) pos (f.content.drop pos) .eof :=
  ⟨rfl, h.fair, fun c' hc' => by rw [h.future hc']⟩

end ReadPos

/-! ## A slice of a file -/

namespace ReadSlice

def len (rs : ReadSlice) : Nat := rs.stop - rs.start

def read (rs : ReadSlice) (n : Nat) : Except IoError Bytes × ReadSlice :=
  if rs.pos < rs.stop then
    match rs.file.readAt rs.pos (min n (rs.stop - rs.pos)) with
    | (.ok bs, f) => (.ok bs, { rs with file := f, pos := rs.pos + bs.length })
    | (.error e, f) => (.error e, { rs with file := f })
  else (.ok [], rs)

theorem read_cases {rs rs' : ReadSlice} {n : Nat} {x : Except IoError Bytes}
    (h : rs.read n = (x, rs')) :
    (x = .ok [] ∧ rs' = rs) ∨
      (rs.file.readAt rs.pos (min n (rs.stop - rs.pos)) = (x, rs'.file) ∧
        rs'.pos = rs.pos + (match x with | .ok bs => bs.length | .error _ => 0)) := by
  rw [read] at h
  split at h
  · rcases hr : rs.file.readAt rs.pos (min n (rs.stop - rs.pos)) with ⟨e | bs, f⟩ <;>
      rw [hr] at h <;> cases h <;> exact .inr ⟨rfl, rfl⟩
  · cases h
    exact .inl ⟨rfl, rfl⟩

instance : Read ReadSlice where
  read := read
  fuel rs := rs.file.fuel rs.pos
  read_length := by
    intro rs n bs rs' h
    rcases read_cases h with ⟨hx, -⟩ | ⟨hr, -⟩
    · cases hx
      exact Nat.zero_le _
    · have := File.readAt_length hr
      omega
  fuel_le := by
    intro rs n x rs' h
    rcases read_cases h with ⟨-, rfl⟩ | ⟨hr, hp⟩
    · exact Nat.le_refl _
    · rw [hp]
      exact File.readAt_fuel_le hr
  fuel_bytes := by
    intro rs n bs rs' h hne
    rcases read_cases h with ⟨hx, -⟩ | ⟨hr, hp⟩
    · cases hx
      exact absurd rfl hne
    · have := File.readAt_fuel hr hne
      simpa only [hp] using this
  fuel_interrupted := by
    intro rs n rs' h
    rcases read_cases h with ⟨hx, -⟩ | ⟨hr, hp⟩
    · cases hx
    · have := File.readAt_fuel_interrupted hr
      simpa only [hp, Nat.add_zero] using this

@[simp] theorem read_def (rs : ReadSlice) (n : Nat) : Read.read rs n = rs.read n := rfl

/-- What every future content of the file has in the rest of the range. -/
def AtRest (rs : ReadSlice) (p : Nat) (bs : Bytes) (t : Tail) : Prop :=
  rs.pos = p ∧ rs.file.Fair ∧ t = .eof ∧ ∀ c, rs.file.Future c → (c.drop p).take (rs.stop - p) = bs

instance : Source ReadSlice where
  Rest := AtRest
  step := by
    rintro rs n p bs t ⟨rfl, hf, rfl, hfut⟩ hn -
    have htick : ∀ c, rs.file.tick.2.Future c → rs.file.Future c := fun c => File.future_of_tick
    have hfair := (File.tick_fair hf).2
    have hnow := hfut _ rs.file.tick_future
    by_cases hlt : rs.pos < rs.stop
    · rcases File.readAt_fair hf rs.pos (n := min n (rs.stop - rs.pos)) (by omega) with
        hr | ⟨k, hr, hkn, hkl, hpos⟩
      · refine .inr (.inl ⟨{ rs with file := rs.file.tick.2 }, ?_, rfl, hfair, rfl, ?_⟩)
        · rw [read_def, read, if_pos hlt, hr]
        · exact fun c hc => hfut c (htick c hc)
      · -- A call inside the range delivers a prefix of what the range has.
        have hks : k ≤ rs.stop - rs.pos := by omega
        have hkb : k ≤ bs.length := by
          rw [← hnow, List.length_take]; omega
        have hbytes : (rs.file.tick.2.content.drop rs.pos).take k = bs.take k := by
          rw [← hnow, List.take_take, Nat.min_eq_left hks]
        refine .inl ⟨k, { rs with file := rs.file.tick.2, pos := rs.pos + k }, ?_, by omega, hkb,
          fun hne => hpos ?_, fun _ => rfl, rfl, hfair, rfl, fun c hc => ?_⟩
        · rw [read_def, read, if_pos hlt, hr]
          simp only [hbytes, List.length_take, Nat.min_eq_left hkb]
        · intro hnil
          rw [hnil, List.take_nil] at hnow
          exact hne hnow.symm
        · rw [← hfut c (htick c hc), List.drop_take, List.drop_drop]
          congr 1
          show rs.stop - (rs.pos + k) = rs.stop - rs.pos - k
          omega
    · have hnil : bs = [] := by
        rw [← hnow, show rs.stop - rs.pos = 0 by omega, List.take_zero]
      subst hnil
      refine .inl ⟨0, rs, ?_, by omega, by simp, by simp, fun _ => rfl, rfl, hf, rfl, hfut⟩
      rw [read_def, read, if_neg hlt, List.take_nil]

/-- A slice of a file nobody else writes. -/
theorem rest_own {rs : ReadSlice} (h : rs.file.Own) :
    Rest rs rs.pos ((rs.file.content.drop rs.pos).take (rs.stop - rs.pos)) .eof :=
  ⟨rfl, h.fair, rfl, fun c hc => by rw [h.future hc]⟩

end ReadSlice

/-- **A slice inside the known bytes** of a reader has exactly them, whatever becomes of the
file beyond. -/
theorem ReadPos.AtRest.slice {rp : ReadPos} {p k : Nat} {bs : Bytes} {t : Tail}
    (h : rp.AtRest p bs t) (hk : k ≤ bs.length) :
    Rest (rp.subslice p (p + k)) p (bs.take k) .eof := by
  refine ⟨rfl, h.fair, rfl, fun c hc => ?_⟩
  obtain ⟨z, hz⟩ := h.starts hc
  show (c.drop p).take (p + k - p) = bs.take k
  rw [← hz, Nat.add_sub_cancel_left, List.take_append_of_le_length hk]

/-- A slice past the end of the file has what there is. -/
theorem ReadPos.AtRest.slice_past {rp : ReadPos} {p k : Nat} {bs : Bytes} (h : rp.AtRest p bs .eof)
    (hk : bs.length ≤ k) : Rest (rp.subslice p (p + k)) p bs .eof := by
  refine ⟨rfl, h.fair, rfl, fun c hc => ?_⟩
  show (c.drop p).take (p + k - p) = bs
  rw [h.2.2 c hc, Nat.add_sub_cancel_left, List.take_of_length_le hk]

end BodyArchive
