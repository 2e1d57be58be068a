import BodyArchive.Futio.StreamRun
import BodyArchive.Io.Faulty

/-!
# The access paths of an image

`write_to`, `reader`, `mem_map` and the stream of an image each have an end of their own: the end of
the file, the recorded length, the size of the map. `paths_agree_iff` says that they agree, whatever
reads fail, exactly when the backing has as many bytes as the image records.
-/

namespace BodyArchive

namespace BodyReader

theorem fileSlice_mayYield {rs : ReadSlice} {bs : Bytes} (h : MayYield rs bs) :
    MayYield (BodyReader.fileSlice rs) bs := by
  refine ⟨fun br bs => ∃ rs, br = .fileSlice rs ∧ MayYield rs bs, ⟨rs, rfl, h⟩, ?_⟩
  intro br bs n hat hn
  obtain ⟨rs, rfl, hrs⟩ := hat
  rcases hrs.step hn with ⟨k, rs', hr, hkn, hkl, hpos, hrs'⟩ | ⟨e, rs', hr, hrs'⟩
  · refine .inl ⟨k, .fileSlice rs', ?_, hkn, hkl, hpos, rs', rfl, hrs'⟩
    rw [ReadSlice.read_def] at hr
    rw [read_def, read, hr]
  · refine .inr ⟨e, .fileSlice rs', ?_, rs', rfl, hrs'⟩
    rw [ReadSlice.read_def] at hr
    rw [read_def, read, hr]

end BodyReader

namespace BodyImage

/-! ## Images, and what is behind them -/

/-- What the constructors of an image give it, and `mem_map` keeps. A slice may have been read from. -/
def Built (im : BodyImage) : Prop :=
  match im.state with
  | .ram v => im.len = v.flatten.length ∧ ∀ b ∈ v, b ≠ []
  | .fsRead _ => 0 < im.len
  | .fsReadSlice rs => rs.start ≤ rs.pos ∧ im.len = rs.len ∧ 0 < im.len
  | .memMap _ => 0 < im.len

/-- The backing has the bytes that the image records, and a slice is at its start. -/
def Exact (im : BodyImage) : Prop :=
  match im.state with
  | .ram _ => True
  | .fsRead f => f.content.length = im.len
  | .fsReadSlice rs => rs.pos = rs.start ∧ rs.stop ≤ rs.file.content.length
  | .memMap m => m.length = im.len

/-- The image, whose file is going to be read with these events. -/
def onEnv (env : List Event) (im : BodyImage) : BodyImage :=
  match im.state with
  | .fsRead f => { im with state := .fsRead { f with env := env } }
  | .fsReadSlice rs => { im with state := .fsReadSlice { rs with file := { rs.file with env := env } } }
  | _ => im

theorem fromFile_built (file : File) (length : Nat) : (fromFile file length).Built := by
  unfold fromFile
  by_cases h : 0 < length
  · rw [if_pos h]
    exact h
  · rw [if_neg h]
    exact ⟨rfl, by simp⟩

theorem fromReadSlice_built {rs : ReadSlice} (hpos : rs.start ≤ rs.pos) : (fromReadSlice rs).Built := by
  unfold fromReadSlice
  by_cases h : 0 < rs.len
  · rw [if_pos h]
    exact ⟨hpos, rfl, h⟩
  · rw [if_neg h]
    exact ⟨rfl, by simp⟩

/-- A `mem_map` that succeeds leaves the image alone, or maps its file or the slice of it. -/
theorem memMap_eq_ok {sys : MapSys} {im im' : BodyImage}
    (h : BodyImage.memMap sys im = (.ok (), im')) :
    im' = im ∨
    (∃ f m, im.state = .fsRead f ∧ sys.whole f.content = .ok m ∧ im' = ⟨.memMap m, im.len⟩) ∨
    (∃ rs m, im.state = .fsReadSlice rs ∧ sys.range rs.file.content rs.start rs.stop = .ok m ∧
      im' = ⟨.memMap m, im.len⟩) := by
  obtain ⟨state, len⟩ := im
  unfold BodyImage.memMap at h
  cases state with
  | ram v =>
    cases h
    exact .inl rfl
  | fsRead f =>
    dsimp only at h
    split at h
    · split at h <;> cases h
      next m hm => exact .inr (.inl ⟨f, m, rfl, hm, rfl⟩)
    · cases h
  | fsReadSlice rs =>
    dsimp only at h
    split at h <;> cases h
    next m hm => exact .inr (.inr ⟨rs, m, rfl, hm, rfl⟩)
  | memMap m =>
    cases h
    exact .inl rfl

theorem Built.memMap {sys : MapSys} {im im' : BodyImage} (h : im.Built)
    (hmap : BodyImage.memMap sys im = (.ok (), im')) : im'.Built := by
  obtain ⟨state, len⟩ := im
  rcases memMap_eq_ok hmap with rfl | ⟨f, m, hstate, -, rfl⟩ | ⟨rs, m, hstate, -, rfl⟩
  · exact h
  · obtain rfl : state = .fsRead f := hstate
    exact h
  · obtain rfl : state = .fsReadSlice rs := hstate
    exact h.2.2

/-- What `write_to` writes, if it gets there. -/
def Written (im : BodyImage) (bs : Bytes) : Prop :=
  match im.state with
  | .ram v => v.flatten = bs
  | .fsRead f => f.Unwritten ∧ f.content = bs
  | .fsReadSlice rs =>
    rs.file.Unwritten ∧ (rs.file.content.drop rs.pos).take (rs.stop - rs.pos) = bs
  | .memMap m => m = bs

section WriteTo

variable {W : Type} [Write W] {G : W → Bytes → Prop}

theorem writeBufs_tracks (hG : Tracks G) (v : List Bytes) {w w' : W} {got : Bytes} (hw : G w got)
    (h : writeBufs v w = (.ok (), w')) : G w' (got ++ v.flatten) := by
  induction v generalizing w got with
  | nil =>
    cases h
    rw [List.flatten_nil, List.append_nil]
    exact hw
  | cons b v ih =>
    obtain ⟨u, w₁, hb, hv⟩ := Prog.bind_eq_ok h
    rw [List.flatten_cons, ← List.append_assoc]
    exact ih (hG hw hb) hv

/-- A copy from a local reader that returned a value. -/
theorem copy_tracks {R : Type} [Read R] (hG : Tracks G) {r : R} {bs : Bytes} (hr : MayYield r bs)
    {w w' : W} {got : Bytes} (hw : G w got)
    (h : (do let _ ← Prog.mapErr BodyError.io (Prog.withLocal r copy) : Prog W BodyError Unit) w =
      (.ok (), w')) : G w' (got ++ bs) := by
  obtain ⟨n, w₁, hcopy, hret⟩ := Prog.bind_eq_ok h
  cases hret
  have hlocal := Prog.mapErr_eq_ok hcopy
  rcases hrun : (copy (r, w) : Res IoError Nat × R × W) with ⟨x, s⟩
  have hboth : (x, s.2) = (Res.ok n, w') := by
    rw [Prog.withLocal, hrun] at hlocal
    exact hlocal
  obtain ⟨rfl, rfl⟩ := Prod.mk.inj hboth
  exact hr.copy hG hw hrun

theorem Written.writeTo {im : BodyImage} {bs : Bytes} (h : im.Written bs) (hG : Tracks G) {w w' : W}
    {got : Bytes} {n : Nat} (hw : G w got) (hrun : im.writeTo w = (.ok n, w')) :
    n = im.len ∧ G w' (got ++ bs) := by
  obtain ⟨state, len⟩ := im
  obtain ⟨u, w₁, hstate, hret⟩ := Prog.bind_eq_ok hrun
  cases hret
  refine ⟨rfl, ?_⟩
  cases state with
  | ram v =>
    obtain rfl : v.flatten = bs := h
    exact writeBufs_tracks hG v hw (Prog.mapErr_eq_ok hstate)
  | fsRead f =>
    obtain ⟨hunwritten, rfl⟩ := h
    have hr := ReadPos.mayYield hunwritten 0
    rw [List.drop_zero] at hr
    exact copy_tracks hG hr hw hstate
  | fsReadSlice rs =>
    obtain ⟨hunwritten, rfl⟩ := h
    exact copy_tracks hG (ReadSlice.mayYield hunwritten) hw hstate
  | memMap m =>
    obtain rfl : m = bs := h
    exact hG hw (Prog.mapErr_eq_ok hstate)

end WriteTo

/-- A file slice of all of a file. -/
theorem whole_mayYield {f : File} (h : f.Unwritten) {n : Nat} (hn : n = f.content.length) :
    MayYield (⟨f, 0, n, 0⟩ : ReadSlice) f.content := by
  have hr := @ReadSlice.mayYield ⟨f, 0, n, 0⟩ h
  simp only [List.drop_zero, Nat.sub_zero, hn, List.take_length] at hr
  rw [hn]
  exact hr

theorem Written.reader {im : BodyImage} {bs : Bytes} (h : im.Written bs) (hbuilt : im.Built)
    (hlen : im.len = bs.length) : MayYield im.reader bs := by
  obtain ⟨state, len⟩ := im
  cases state with
  | ram v =>
    obtain rfl : v.flatten = bs := h
    have hbacks : (⟨.ram v, len⟩ : BodyImage).Backs v.flatten := ⟨hlen, rfl, hbuilt.2⟩
    obtain ⟨p, hrest⟩ := hbacks.reader_rest
    exact (Source.yields hrest).mayYield
  | fsRead f =>
    obtain ⟨hunwritten, rfl⟩ := h
    exact BodyReader.fileSlice_mayYield (whole_mayYield hunwritten hlen)
  | fsReadSlice rs =>
    obtain ⟨hunwritten, rfl⟩ := h
    exact BodyReader.fileSlice_mayYield (ReadSlice.mayYield hunwritten)
  | memMap m =>
    obtain rfl : m = bs := h
    have hbacks : (⟨.memMap m, len⟩ : BodyImage).Backs m := ⟨hlen, rfl⟩
    obtain ⟨p, hrest⟩ := hbacks.reader_rest
    exact (Source.yields hrest).mayYield

/-- **`mem_map`** of an image that is exact maps its bytes. -/
theorem Written.memMap {im im' : BodyImage} {bs : Bytes} (h : im.Written bs) (hbuilt : im.Built)
    (hlen : im.len = bs.length) {sys : MapSys} (hsys : sys.Lawful)
    (hmap : BodyImage.memMap sys im = (.ok (), im')) : im'.Written bs ∧ im'.len = im.len := by
  obtain ⟨state, len⟩ := im
  rcases memMap_eq_ok hmap with rfl | ⟨f, m, hstate, hm, rfl⟩ | ⟨rs, m, hstate, hm, rfl⟩
  · exact ⟨h, rfl⟩
  · obtain rfl : state = .fsRead f := hstate
    obtain ⟨hunwritten, rfl⟩ := h
    exact ⟨hsys.whole_eq hm, rfl⟩
  · obtain rfl : state = .fsReadSlice rs := hstate
    obtain ⟨hunwritten, rfl⟩ := h
    obtain ⟨hpos, hrange, hposLen⟩ := hbuilt
    have hrange' : len = rs.stop - rs.start := hrange
    have hpos' : 0 < len := hposLen
    simp only [List.length_take, List.length_drop] at hlen
    have hstart : rs.pos = rs.start := by omega
    refine ⟨?_, rfl⟩
    show m = _
    rw [hstart]
    exact hsys.range_eq hm (by omega) (by omega)

end BodyImage

/-! ## The stream of an exact image -/

theorem readChunk_mayYield {rs : ReadSlice} {rlen : Nat} {left : Bytes} (h : MayYield rs left)
    (hlen : 0 < rlen) (hne : left ≠ []) :
    (∃ k rs', readChunk rlen rs = (.ok (some (.ok (left.take k))), rs') ∧ k ≤ left.length ∧
      MayYield rs' (left.drop k)) ∨
    ∃ e rs', readChunk rlen rs = (.ok (some (.error e)), rs') ∧ MayYield rs' left := by
  refine Prog.loop_rule (readChunkStep_decreasing rlen) (fun _ rs => MayYield rs left)
    (fun x => (∃ k rs', x = (.ok (some (.ok (left.take k))), rs') ∧ k ≤ left.length ∧
        MayYield rs' (left.drop k)) ∨
      ∃ e rs', x = (.ok (some (.error e)), rs') ∧ MayYield rs' left) ?_ () rs h
  intro u rs hrs
  rw [readChunkStep]
  rcases hrs.step hlen with ⟨k, rs', hr, -, hkl, hpos, hrs'⟩ | ⟨e, rs', hr, hrs'⟩ <;>
    rw [Prog.bind_of_ok (tryRead_of hr)]
  · cases hc : left.take k with
    | nil => exact absurd (nil_of_take hpos hc) hne
    | cons b bs => exact .inl ⟨k, rs', by rw [hc], hkl, hrs'⟩
  · cases e with
    | interrupted => exact hrs'
    | _ => exact .inr ⟨_, rs', rfl, hrs'⟩

namespace ImageCore

/-- The bytes that are still to come, unless a read fails. -/
def MayLeft (c : ImageCore) (left : Bytes) : Prop :=
  c.len = c.consumed + left.length ∧
  match c.state with
  | .ram iter => iter.flatten = left
  | .file rs => MayYield rs left
  | .memMap (some m) => m = left
  | .memMap none => left = []

theorem new_mayLeft {im : BodyImage} {bs : Bytes} (h : im.Written bs) (hlen : im.len = bs.length)
    (tune : FutioTunables) (advice : Except IoError Unit) : (new im tune advice).MayLeft bs := by
  obtain ⟨state, len⟩ := im
  refine ⟨hlen.trans (Nat.zero_add _).symm, ?_⟩
  cases state with
  | ram v => exact h
  | fsRead f =>
    obtain ⟨hunwritten, rfl⟩ := h
    exact BodyImage.whole_mayYield hunwritten hlen
  | fsReadSlice rs =>
    obtain ⟨hunwritten, rfl⟩ := h
    exact ReadSlice.mayYield hunwritten
  | memMap m => exact h

section Serve

variable {B : Type} [OutputBuf B]

/-- What an image has next: some of what is left, or an error, after which a map is gone. -/
theorem next_mayLeft {c : ImageCore} {left : Bytes} (h : c.MayLeft left) (hne : left ≠ []) :
    (∃ (b : B) (c' : ImageCore) (bs rest : Bytes), left = bs ++ rest ∧ OutputBuf.chunk b = .ok bs ∧
      c.next B = (.ok (some (.ok b)), c') ∧ c'.MayLeft rest ∧ c'.len = c.len ∧
      c'.consumed = c.consumed + bs.length) ∨
    ∃ (e : IoError) (c' : ImageCore), c.next B = (.ok (some (.error e)), c') ∧ c'.len = c.len ∧
      c'.consumed = c.consumed ∧ (c'.MayLeft left ∨ c'.state = .memMap none) := by
  obtain ⟨state, len, consumed, tune, advice⟩ := c
  obtain ⟨hlen, h⟩ := h
  simp only at hlen h
  cases state with
  | ram iter =>
    obtain rfl : iter.flatten = left := h
    cases iter with
    | nil => exact absurd rfl hne
    | cons b iter =>
      refine .inl ⟨OutputBuf.ofBytes b, ⟨.ram iter, len, consumed + b.length, tune, advice⟩, b,
        iter.flatten, rfl, OutputBuf.chunk_ofBytes b, rfl, ⟨?_, rfl⟩, rfl, rfl⟩
      show len = consumed + b.length + iter.flatten.length
      rw [hlen, List.flatten_cons, List.length_append, Nat.add_assoc]
  | file rs =>
    have hrs : MayYield rs left := h
    have hpos := List.length_pos_iff.mpr hne
    have hbuffer := tune.image.buffer_fs_pos
    have hread : readFile B rs ⟨.file rs, len, consumed, tune, advice⟩ =
        next B ⟨.file rs, len, consumed, tune, advice⟩ := rfl
    rw [← hread, readFile]
    rcases @readChunk_mayYield rs (min tune.image.bufferSizeFs (len - consumed)) left hrs (by omega)
      hne with ⟨k, rs', hchunk, hkl, hrs'⟩ | ⟨e, rs', hchunk, hrs'⟩
    · refine .inl ⟨OutputBuf.ofBytes (left.take k),
        ⟨.file rs', len, consumed + (left.take k).length, tune, advice⟩, left.take k, left.drop k,
        (List.take_append_drop k left).symm, OutputBuf.chunk_ofBytes _, ?_, ⟨?_, hrs'⟩, rfl, rfl⟩
      · dsimp only
        rw [hchunk]
      · show len = consumed + (left.take k).length + (left.drop k).length
        rw [List.length_take_of_le hkl, List.length_drop]
        omega
    · refine .inr ⟨e, ⟨.file rs', len, consumed, tune, advice⟩, ?_, rfl, rfl, .inl ⟨hlen, hrs'⟩⟩
      dsimp only
      rw [hchunk]
  | memMap map =>
    cases map with
    | none => exact absurd h hne
    | some m =>
      obtain rfl : m = left := h
      have htake : takeMap B m ⟨.memMap (some m), len, consumed, tune, advice⟩ =
          next B ⟨.memMap (some m), len, consumed, tune, advice⟩ := rfl
      rw [← htake, takeMap]
      cases advice with
      | ok u =>
        obtain ⟨b, hmap, hchunk, hremaining⟩ := OutputBuf.fromMmap_ok (B := B) hne
        refine .inl ⟨b, ⟨.memMap none, len, consumed + m.length, tune, .ok u⟩, m, [],
          (List.append_nil m).symm, hchunk, ?_, ⟨hlen, rfl⟩, rfl, rfl⟩
        dsimp only
        rw [hmap]
        dsimp only
        rw [hremaining]
      | error e =>
        refine .inr ⟨e, ⟨.memMap none, len, consumed, tune, .error e⟩, ?_, rfl, rfl, .inr rfl⟩
        dsimp only
        rw [OutputBuf.fromMmap_err]

end Serve

end ImageCore

section Streams

variable {B : Type} [OutputBuf B]

/-- At every end of a stream that has not failed before, all the bytes have been handed out. -/
def EndsFull (len : Nat) (rs : List (Poll (StreamItem B))) : Prop :=
  ∀ pre post, rs = pre ++ .ready none :: post → Clean pre →
    ∃ bss, Handed pre bss ∧ bss.flatten.length = len

theorem endsFull_snoc {len : Nat} {rs : List (Poll (StreamItem B))} (h : EndsFull len rs)
    {r : Poll (StreamItem B)}
    (hend : r = .ready none → Clean rs → ∃ bss, Handed rs bss ∧ bss.flatten.length = len) :
    EndsFull len (rs ++ [r]) := by
  intro pre post hsplit hclean
  rcases snoc_split hsplit with ⟨rfl, hr, -⟩ | ⟨post', rfl, -⟩
  · exact hend hr hclean
  · exact h pre post' rfl hclean

/-- Where a stream is whose reads may fail. -/
structure Progress (len : Nat) (rs : List (Poll (StreamItem B))) (c : ImageCore) : Prop where
  len_eq : c.len = len
  consumed_le : c.consumed ≤ c.len
  handed : ∃ bss, Handed rs bss ∧ bss.flatten.length = c.consumed
  left : (∃ left, c.MayLeft left) ∨ (¬ Clean rs ∧ c.state = .memMap none)
  ends : EndsFull len rs

omit [OutputBuf B] in
theorem not_clean_snoc {rs : List (Poll (StreamItem B))} (h : ¬ Clean rs) (r : Poll (StreamItem B)) :
    ¬ Clean (rs ++ [r]) := fun hclean => h fun e he => hclean e (List.mem_append_left _ he)

/-- **A poll that is ready**, whatever a read comes to. -/
theorem Progress.ready {len : Nat} {rs : List (Poll (StreamItem B))} {c : ImageCore}
    (h : Progress len rs c) :
    ∃ a c', c.serve B = (.ok a, c') ∧ Progress len (rs ++ [.ready a]) c' := by
  obtain ⟨rfl, hconsumed, ⟨bss, hhanded, htotal⟩, hleft, hends⟩ := h
  unfold ImageCore.serve
  rw [if_neg (Nat.not_lt.mpr hconsumed)]
  by_cases hend : c.len = c.consumed
  · rw [if_pos hend]
    refine ⟨none, c, rfl, rfl, hconsumed, ⟨bss, handed_snoc hhanded rfl, htotal⟩,
      hleft.imp_right fun hfailed => ⟨not_clean_snoc hfailed.1 _, hfailed.2⟩,
      endsFull_snoc hends fun _ _ => ⟨bss, hhanded, htotal.trans hend.symm⟩⟩
  rw [if_neg hend]
  rcases hleft with ⟨left, hleft⟩ | ⟨hfailed, hstate⟩
  · have hlen := hleft.1
    have hne : left ≠ [] := by
      intro hnil
      rw [hnil] at hlen
      exact hend hlen
    rcases ImageCore.next_mayLeft (B := B) hleft hne with
      ⟨b, c', bs, rest, rfl, hchunk, hnext, hleft', hlen', hconsumed'⟩ |
      ⟨e, c', hnext, hlen', hconsumed', hleft'⟩
    · refine ⟨_, c', hnext, hlen', ?_, ⟨bss ++ [bs], handed_item hhanded hchunk, ?_⟩,
        .inl ⟨rest, hleft'⟩, ?_⟩
      · rw [hleft'.1]
        exact Nat.le_add_right _ _
      · rw [List.flatten_append, List.flatten_singleton, List.length_append, htotal, hconsumed']
      · refine endsFull_snoc hends ?_
        intro hr
        cases hr
    · have hnot : ¬ Clean (rs ++ [(.ready (some (.error e)) : Poll (StreamItem B))]) :=
        fun hclean => hclean e (List.mem_append_right _ (List.mem_singleton.mpr rfl))
      refine ⟨_, c', hnext, hlen', ?_, ⟨bss, handed_snoc hhanded rfl, htotal.trans hconsumed'.symm⟩,
        ?_, ?_⟩
      · rw [hconsumed', hlen']
        exact hconsumed
      · rcases hleft' with hleft' | hstate
        · exact .inl ⟨left, hleft'⟩
        · exact .inr ⟨hnot, hstate⟩
      · refine endsFull_snoc hends ?_
        intro hr
        cases hr
  · -- The map is gone with the error that was reported of it.
    have hnext : c.next B = (.ok none, c) := by
      unfold ImageCore.next
      rw [hstate]
    refine ⟨none, c, hnext, rfl, hconsumed, ⟨bss, handed_snoc hhanded rfl, htotal⟩,
      .inr ⟨not_clean_snoc hfailed _, hstate⟩, endsFull_snoc hends fun _ hclean => ?_⟩
    exact absurd hclean hfailed

theorem StreamWrapper.Polled.progress {core : ImageCore} {body : Bytes} (hcore : core.MayLeft body)
    (hzero : core.consumed = 0) {rs : List (Poll (StreamItem B))} {s : AsyncBodyImage LenientArbiter}
    (h : (asyncBodyImage B).Polled (Adaptor.new core) rs s) : Progress core.len rs s.core := by
  induction h with
  | new =>
    refine ⟨rfl, ?_, ⟨[], rfl, hzero.symm⟩, .inl ⟨body, hcore⟩, ?_⟩
    · rw [show (Adaptor.new core : AsyncBodyImage LenientArbiter).core = core from rfl, hzero]
      exact Nat.zero_le _
    · intro pre post hsplit
      exact absurd hsplit.symm (by simp)
  | @poll rs s s' r _ cx hcx hpoll ih =>
    obtain ⟨a, c', hserve, hnext⟩ := ih.ready
    have hstep := asyncBodyImage_serves.poll (B := B) (s := s) (c := s.core) ⟨rfl, [], trivial⟩ hcx
    rw [hpoll] at hstep
    have hserve' : (imageService B).serve s.core = (.ok a, c') := hserve
    cases hstep with
    | pending _ _ _ hwaits => exact hwaits.elim
    | ready hready hstands =>
      rw [hserve'] at hready
      cases hready
      rw [hstands.core_eq]
      exact hnext
    | panic hpanic _ =>
      rw [hserve'] at hpanic
      cases hpanic
  | work _ ih => exact ih

end Streams

/-! ## When the paths agree -/

/-- All access paths of an image agree:
* a `write_to` that returns a length has written as many bytes, and a reader that is read to the end
  without an error yields the same;
* a memory map, if there is one, does not change what a reader yields;
* a stream never consumes more than the length, and ends only after as many bytes, or after an
  error. -/
structure PathsAgree (sys : MapSys) (im : BodyImage) : Prop where
  writes : ∀ {W : Type} [Write W] {G : W → Bytes → Prop}, Tracks G → ∀ {w w' got n}, G w got →
    im.writeTo w = (.ok n, w') → ∃ bs, G w' (got ++ bs) ∧ bs.length = n ∧
      ∀ {k x br}, 0 < k → readToEnd k im.reader = (.ok x, br) → x = bs
  maps : ∀ {im'}, BodyImage.memMap sys im = (.ok (), im') → ∀ {k x x' br br'}, 0 < k →
    readToEnd k im.reader = (.ok x, br) → readToEnd k im'.reader = (.ok x', br') → x' = x
  streams : ∀ {B : Type} [OutputBuf B] (tune : FutioTunables) (advice : Except IoError Unit) {rs s},
    (asyncBodyImage B).Polled (Adaptor.new (ImageCore.new im tune advice)) rs s →
    s.core.consumed ≤ s.core.len ∧ EndsFull (ImageCore.new im tune advice).sizeHint rs

theorem BodyImage.Written.pathsAgree {im : BodyImage} {bs : Bytes} (h : im.Written bs)
    (hbuilt : im.Built) (hlen : im.len = bs.length) {sys : MapSys} (hsys : sys.Lawful) :
    PathsAgree sys im where
  writes := by
    intro W _ G hG w w' got n hw hrun
    obtain ⟨rfl, hgot⟩ := h.writeTo hG hw hrun
    exact ⟨bs, hgot, hlen.symm, fun hk hread => (h.reader hbuilt hlen).readToEnd hk hread⟩
  maps := by
    intro im' hmap k x x' br br' hk hread hread'
    obtain ⟨hwritten, hlen'⟩ := h.memMap hbuilt hlen hsys hmap
    have hx := (h.reader hbuilt hlen).readToEnd hk hread
    have hx' := (hwritten.reader (hbuilt.memMap hmap) (hlen'.trans hlen)).readToEnd hk hread'
    rw [hx, hx']
  streams := by
    intro B _ tune advice rs s hpolled
    have hprogress := hpolled.progress (ImageCore.new_mayLeft h hlen tune advice) rfl
    exact ⟨hprogress.consumed_le, hprogress.ends⟩

/-- An image that is exact writes as many bytes as it records, whatever the events of its file. -/
theorem BodyImage.Built.written {im : BodyImage} (h : im.Built) (hexact : im.Exact) {env : List Event}
    (henv : UnwrittenEnv env) :
    ∃ bs, (im.onEnv env).Written bs ∧ (im.onEnv env).Built ∧ (im.onEnv env).len = bs.length := by
  obtain ⟨state, len⟩ := im
  cases state with
  | ram v => exact ⟨v.flatten, rfl, h, h.1⟩
  | fsRead f =>
    have hlen : f.content.length = len := hexact
    exact ⟨f.content, ⟨henv, rfl⟩, h, hlen.symm⟩
  | fsReadSlice rs =>
    obtain ⟨hstart, hstop⟩ := hexact
    have hlen : len = rs.stop - rs.start := h.2.1
    refine ⟨_, ⟨henv, rfl⟩, h, ?_⟩
    show len = _
    simp only [List.length_take, List.length_drop, hstart]
    omega
  | memMap m =>
    have hlen : m.length = len := hexact
    exact ⟨m, rfl, h, hlen.symm⟩

/-- What is written to a vector while no read fails. -/
theorem BodyImage.Built.writes_vec {im : BodyImage} (h : im.Built) :
    ∃ bs, (im.onEnv []).writeTo ([] : Bytes) = (.ok im.len, bs) ∧ (bs.length = im.len → im.Exact) := by
  obtain ⟨state, len⟩ := im
  have hG := accepts_vec []
  suffices hwritten : ∃ bs, writeState (onEnv [] ⟨state, len⟩).state ([] : Bytes) = (.ok (), bs) ∧
      (bs.length = len → Exact ⟨state, len⟩) by
    obtain ⟨bs, hrun, hexact⟩ := hwritten
    refine ⟨bs, ?_, hexact⟩
    rw [writeTo, Prog.bind_of_ok hrun]
    cases state <;> rfl
  cases state with
  | ram v =>
    obtain ⟨w', hrun, -⟩ := writeBufs_accepts hG v (show ([] : Bytes) = [] ++ [] from rfl)
    exact ⟨w', Prog.mapErr_of_ok hrun, fun _ => trivial⟩
  | fsRead f =>
    have hrest := ReadPos.rest_own (File.quiet_own f.content) 0
    obtain ⟨r', w', hcopy, hw⟩ := copy_eof hG hrest (show ([] : Bytes) = [] ++ [] from rfl)
    refine ⟨w', ?_, ?_⟩
    · show writeState (.fsRead (File.quiet f.content)) ([] : Bytes) = _
      rw [writeState, Prog.bind_of_ok (Prog.mapErr_of_ok (Prog.withLocal_of hcopy))]
      rfl
    · intro hlen
      have hw' : w' = f.content := hw
      rw [hw'] at hlen
      exact hlen
  | fsReadSlice rs =>
    obtain ⟨hpos, hlen, hlenPos⟩ := h
    have hrest := @ReadSlice.rest_own { rs with file := File.quiet rs.file.content }
      (File.quiet_own rs.file.content)
    obtain ⟨r', w', hcopy, hw⟩ := copy_eof hG hrest (show ([] : Bytes) = [] ++ [] from rfl)
    refine ⟨w', ?_, ?_⟩
    · show writeState (.fsReadSlice { rs with file := File.quiet rs.file.content }) ([] : Bytes) = _
      rw [writeState, Prog.bind_of_ok (Prog.mapErr_of_ok (Prog.withLocal_of hcopy))]
      rfl
    · intro hfull
      have hw' : w' = (rs.file.content.drop rs.pos).take (rs.stop - rs.pos) := hw
      have hlen' : len = rs.stop - rs.start := hlen
      have hlenPos' : 0 < len := hlenPos
      rw [hw', List.length_take, List.length_drop] at hfull
      show rs.pos = rs.start ∧ rs.stop ≤ rs.file.content.length
      omega
  | memMap m =>
    refine ⟨m, rfl, ?_⟩
    intro hlen
    exact hlen

/-- **The paths agree exactly when the backing has the recorded length**, if they are to agree
whatever reads fail. -/
theorem paths_agree_iff {sys : MapSys} (hsys : sys.Lawful) {im : BodyImage} (h : im.Built) :
    (∀ env, UnwrittenEnv env → PathsAgree sys (im.onEnv env)) ↔ im.Exact := by
  constructor
  · intro hall
    have hquiet : UnwrittenEnv [] := fun e he => absurd he List.not_mem_nil
    obtain ⟨bs, hrun, hexact⟩ := h.writes_vec
    obtain ⟨bs', hbs, hlen, -⟩ := (hall [] hquiet).writes (tracks_vec []) rfl hrun
    rw [hbs] at hexact
    exact hexact hlen
  · intro hexact env henv
    obtain ⟨bs, hwritten, hbuilt, hlen⟩ := h.written hexact henv
    exact hwritten.pathsAgree hbuilt hlen hsys

/-! ## A file longer than recorded -/

/-- Three bytes, recorded as two. -/
def longImage : BodyImage := BodyImage.fromFile (File.quiet [65, 66, 67]) 2

/-- Three bytes are written and two reported, the reader yields two; and the stream of the map has
consumed more than there is, so that its next poll underflows. -/
theorem long_image_disagrees :
    longImage.writeTo ([] : Bytes) = (.ok 2, [65, 66, 67]) ∧
    (readToEnd 8 longImage.reader).1 = .ok [65, 66] ∧
    (∃ im rs s, BodyImage.memMap MapSys.plain longImage = (.ok (), im) ∧
      (asyncBodyImage Bytes).Polled
        (Adaptor.new (ImageCore.new im ⟨Tunables.new Tunables.calmDir, .direct⟩ (.ok ()))) rs s ∧
      s.core.len < s.core.consumed) ∧
    ¬ PathsAgree MapSys.plain longImage := by
  have hwritten : longImage.writeTo ([] : Bytes) = (.ok 2, [65, 66, 67]) := by decide +kernel
  have hcx : Context.Allowed ⟨0, .ready, true⟩ := by decide
  refine ⟨hwritten, by decide +kernel,
    ⟨_, _, _, rfl, .poll .new ⟨0, .ready, true⟩ hcx rfl, ?_⟩, ?_⟩
  · decide +kernel
  · intro hagree
    obtain ⟨bs, hbs, hlen, -⟩ := hagree.writes (tracks_vec []) rfl hwritten
    rw [← List.nil_append bs, ← hbs] at hlen
    cases hlen

/-- The last two bytes of the file, as a slice that is at its start. -/
def tailSlice : ReadSlice := ⟨File.quiet [65, 66, 67], 1, 3, 1⟩

/-- A file as long as recorded agrees with itself, and a slice; one that was read from does not. -/
theorem exact_image_agrees :
    (∀ env, UnwrittenEnv env →
      PathsAgree MapSys.plain (BodyImage.onEnv env (BodyImage.fromFile (File.quiet [65, 66, 67]) 3))) ∧
    (∀ env, UnwrittenEnv env →
      PathsAgree MapSys.plain (BodyImage.onEnv env (BodyImage.fromReadSlice tailSlice))) ∧
    ¬ ∀ env, UnwrittenEnv env →
      PathsAgree MapSys.plain
        (BodyImage.onEnv env (BodyImage.fromReadSlice { tailSlice with pos := 2 })) := by
  refine ⟨(paths_agree_iff MapSys.plain_lawful (BodyImage.fromFile_built _ _)).mpr rfl,
    (paths_agree_iff MapSys.plain_lawful (BodyImage.fromReadSlice_built (by decide))).mpr ?_, ?_⟩
  · exact ⟨rfl, by decide⟩
  · rw [paths_agree_iff MapSys.plain_lawful (BodyImage.fromReadSlice_built (by decide))]
    rintro ⟨hpos, -⟩
    cases hpos

end BodyArchive
