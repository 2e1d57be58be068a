import BodyArchive.Io.File
import BodyArchive.Io.Write

/-!
# Reads that may fail

`Rest` and `Yields` are about readers whose coming bytes can be relied on. Here a read may also fail,
at any point and for any reason: `MayYield r bs` says that what `r` yields is `bs`, if it gets there.
A loop that returns a value has got there.
-/

namespace BodyArchive

/-- The reader yields `bs` unless it fails: every call gets some of what is left, or an error, and
only at the end nothing. -/
def MayYield {R : Type} [Read R] (r : R) (bs : Bytes) : Prop :=
  ∃ At : R → Bytes → Prop, At r bs ∧ ∀ r bs n, At r bs → 0 < n →
    (∃ k r', Read.read r n = (.ok (bs.take k), r') ∧ k ≤ n ∧ k ≤ bs.length ∧ (bs ≠ [] → 0 < k) ∧
      At r' (bs.drop k)) ∨
    (∃ e r', Read.read r n = (.error e, r') ∧ At r' bs)

/-- The bytes that a writer has taken, where it does not fail. -/
def Tracks {W : Type} [Write W] (G : W → Bytes → Prop) : Prop :=
  ∀ {w w' got b}, G w got → writeAll b w = (.ok (), w') → G w' (got ++ b)

theorem tracks_vec (base : Bytes) : Tracks fun (out : Bytes) got => out = base ++ got := by
  intro w w' got b hw h
  cases h
  rw [hw, List.append_assoc]

section Loops

variable {R : Type} [Read R] {r : R} {bs : Bytes}

theorem MayYield.step (h : MayYield r bs) {n : Nat} (hn : 0 < n) :
    (∃ k r', Read.read r n = (.ok (bs.take k), r') ∧ k ≤ n ∧ k ≤ bs.length ∧ (bs ≠ [] → 0 < k) ∧
      MayYield r' (bs.drop k)) ∨
    (∃ e r', Read.read r n = (.error e, r') ∧ MayYield r' bs) := by
  obtain ⟨At, hat, hstep⟩ := h
  rcases hstep r bs n hat hn with ⟨k, r', hr, hkn, hkl, hpos, hat'⟩ | ⟨e, r', hr, hat'⟩
  · exact .inl ⟨k, r', hr, hkn, hkl, hpos, At, hat', hstep⟩
  · exact .inr ⟨e, r', hr, At, hat', hstep⟩

/-- A reader that can be relied on. -/
theorem Yields.mayYield (h : Yields r bs) : MayYield r bs := by
  obtain ⟨At, hat, hstep⟩ := h
  refine ⟨At, hat, ?_⟩
  intro r bs n hat hn
  rcases hstep r bs n hat hn with hok | ⟨r', hr, hat'⟩
  · exact .inl hok
  · exact .inr ⟨.interrupted, r', hr, hat'⟩

/-- **`read_to_end`**, if it returns a value, returns all there is. -/
theorem MayYield.readToEnd (h : MayYield r bs) {n : Nat} (hn : 0 < n) {x : Bytes} {r' : R}
    (hread : readToEnd n r = (.ok x, r')) : x = bs := by
  refine Prog.loop_rule (readToEndStep_decreasing n)
    (fun got r => ∃ left, bs = got ++ left ∧ MayYield r left)
    (fun y => ∀ x r', y = (.ok x, r') → x = bs) ?_ [] r ⟨bs, rfl, h⟩ x r' hread
  intro got r hgot
  obtain ⟨left, rfl, hleft⟩ := hgot
  rw [readToEndStep]
  rcases hleft.step hn with ⟨k, r', hr, -, -, hpos, hrest⟩ | ⟨e, r', hr, hrest⟩ <;>
    rw [Prog.bind_of_ok (tryRead_of hr)]
  · cases hc : left.take k with
    | nil =>
      obtain rfl := nil_of_take hpos hc
      intro x r'' hx
      cases hx
      exact (List.append_nil _).symm
    | cons b rest =>
      refine ⟨left.drop k, ?_, hrest⟩
      rw [← hc, List.append_assoc, List.take_append_drop]
  · cases e with
    | interrupted => exact ⟨left, rfl, hrest⟩
    | _ =>
      intro x r'' hx
      cases hx

/-- **`io::copy`**, if it returns a value, has copied all there is. -/
theorem MayYield.copy {W : Type} [Write W] {G : W → Bytes → Prop} (hG : Tracks G) (h : MayYield r bs)
    {w : W} {got : Bytes} (hw : G w got) {n : Nat} {s : R × W} (hcopy : copy (r, w) = (.ok n, s)) :
    G s.2 (got ++ bs) := by
  refine Prog.loop_rule copyStep_decreasing
    (fun _ s => ∃ done left, bs = done ++ left ∧ MayYield s.1 left ∧ G s.2 (got ++ done))
    (fun y => ∀ n s, y = (.ok n, s) → G s.2 (got ++ bs)) ?_ 0 (r, w)
    ⟨[], bs, rfl, h, by rw [List.append_nil]; exact hw⟩ n s hcopy
  intro written s hs
  obtain ⟨r, w⟩ := s
  obtain ⟨done, left, rfl, hleft, hgot⟩ := hs
  rw [copyStep]
  rcases hleft.step (n := copyBufSize) (by decide) with
    ⟨k, r', hr, -, -, hpos, hrest⟩ | ⟨e, r', hr, hrest⟩ <;>
    rw [Prog.bind_of_ok (Prog.onFst_of (tryRead_of hr) w)]
  · cases hc : left.take k with
    | nil =>
      obtain rfl := nil_of_take hpos hc
      intro n s hx
      cases hx
      rw [List.append_nil]
      exact hgot
    | cons b rest =>
      show Prog.After _ _ ((Prog.onSnd (writeAll (b :: rest)) >>= _) (r', w))
      rcases hwrite : (writeAll (b :: rest) w : Res IoError Unit × W) with ⟨u | e | msg, w'⟩
      · rw [Prog.bind_of_ok (Prog.onSnd_of hwrite r')]
        refine ⟨done ++ (b :: rest), left.drop k, ?_, hrest, ?_⟩
        · rw [← hc, List.append_assoc, List.take_append_drop]
        · rw [← List.append_assoc]
          exact hG hgot hwrite
      · rw [Prog.bind_of_err (Prog.onSnd_of hwrite r')]
        intro n s hx
        cases hx
      · rw [Prog.bind_of_panic (Prog.onSnd_of hwrite r')]
        intro n s hx
        cases hx
  · cases e with
    | interrupted => exact ⟨done, left, rfl, hrest, hgot⟩
    | _ =>
      intro n s hx
      cases hx

end Loops

/-! ## Files whose reads may fail -/

/-- A call that may fail, but is not empty-handed while bytes are left. -/
theorem Delivery.deliver_honest {d : Delivery} (hd : d ≠ .upTo 0) {n : Nat} (hn : 0 < n)
    (avail : Bytes) :
    (∃ e, d.deliver n avail = .error e) ∨
      ∃ k, d.deliver n avail = .ok (avail.take k) ∧ k ≤ n ∧ k ≤ avail.length ∧
        (avail ≠ [] → 0 < k) := by
  cases d with
  | failed e => exact .inl ⟨e, rfl⟩
  | interrupted => exact .inl ⟨.interrupted, rfl⟩
  | full =>
    have hfair : Delivery.full.Fair := trivial
    rcases hfair.deliver hn avail with h | h
    · exact .inl ⟨_, h⟩
    · exact .inr h
  | upTo j =>
    have hfair : (Delivery.upTo j).Fair := Nat.pos_of_ne_zero fun hj => hd (by rw [hj])
    rcases hfair.deliver hn avail with h | h
    · exact .inl ⟨_, h⟩
    · exact .inr h

/-- Reads of a file that nobody writes. -/
def UnwrittenEnv (env : List Event) : Prop := ∀ e ∈ env, e.ops = [] ∧ e.delivery ≠ .upTo 0

namespace File

/-- Nobody writes the file, but its reads may fail. -/
def Unwritten (f : File) : Prop := UnwrittenEnv f.env

theorem Unwritten.tick {f : File} (h : f.Unwritten) :
    f.tick.1 ≠ .upTo 0 ∧ f.tick.2.Unwritten ∧ f.tick.2.content = f.content := by
  obtain ⟨content, env⟩ := f
  cases env with
  | nil =>
    refine ⟨?_, h, rfl⟩
    intro hd
    cases hd
  | cons e env =>
    obtain ⟨hops, hdelivery⟩ := h e List.mem_cons_self
    refine ⟨hdelivery, fun e' he' => h e' (List.mem_cons_of_mem _ he'), ?_⟩
    show e.ops.foldl FileOp.apply content = content
    rw [hops]
    rfl

theorem Unwritten.readAt {f : File} (h : f.Unwritten) (off : Nat) {n : Nat} (hn : 0 < n) :
    (∃ e, f.readAt off n = (.error e, f.tick.2)) ∨
      ∃ k, f.readAt off n = (.ok ((f.content.drop off).take k), f.tick.2) ∧ k ≤ n ∧
        k ≤ (f.content.drop off).length ∧ (f.content.drop off ≠ [] → 0 < k) := by
  obtain ⟨hdelivery, -, hcontent⟩ := h.tick
  rcases Delivery.deliver_honest hdelivery hn (f.content.drop off) with ⟨e, he⟩ | ⟨k, hk, hle⟩
  · exact .inl ⟨e, by rw [File.readAt, hcontent, he]⟩
  · exact .inr ⟨k, by rw [File.readAt, hcontent, hk], hle⟩

end File

theorem ReadPos.mayYield {f : File} (h : f.Unwritten) (pos : Nat) :
    MayYield (⟨f, pos⟩ : ReadPos) (f.content.drop pos) := by
  refine ⟨fun rp bs => rp.file.Unwritten ∧ bs = rp.file.content.drop rp.pos, ⟨h, rfl⟩, ?_⟩
  intro rp bs n hat hn
  obtain ⟨hunwritten, rfl⟩ := hat
  obtain ⟨-, hunwritten', hcontent⟩ := hunwritten.tick
  rcases hunwritten.readAt rp.pos hn with ⟨e, hr⟩ | ⟨k, hr, hkn, hkl, hpos⟩
  · refine .inr ⟨e, ⟨rp.file.tick.2, rp.pos⟩, ?_, hunwritten', ?_⟩
    · rw [ReadPos.read_def, ReadPos.read, hr]
    · rw [hcontent]
  · refine .inl ⟨k, ⟨rp.file.tick.2, rp.pos + k⟩, ?_, hkn, hkl, hpos, hunwritten', ?_⟩
    · rw [ReadPos.read_def, ReadPos.read, hr]
      dsimp only
      rw [List.length_take_of_le hkl]
    · rw [hcontent, List.drop_drop]

theorem ReadSlice.mayYield {rs : ReadSlice} (h : rs.file.Unwritten) :
    MayYield rs ((rs.file.content.drop rs.pos).take (rs.stop - rs.pos)) := by
  refine ⟨fun rs bs => rs.file.Unwritten ∧
    bs = (rs.file.content.drop rs.pos).take (rs.stop - rs.pos), ⟨h, rfl⟩, ?_⟩
  intro rs bs n hat hn
  obtain ⟨hunwritten, rfl⟩ := hat
  obtain ⟨-, hunwritten', hcontent⟩ := hunwritten.tick
  by_cases hlt : rs.pos < rs.stop
  · rcases @File.Unwritten.readAt rs.file hunwritten rs.pos (min n (rs.stop - rs.pos)) (by omega) with
      ⟨e, hr⟩ | ⟨k, hr, hkn, hkl, hpos⟩
    · refine .inr ⟨e, { rs with file := rs.file.tick.2 }, ?_, hunwritten', ?_⟩
      · rw [ReadSlice.read_def, ReadSlice.read, if_pos hlt, hr]
      · rw [hcontent]
    · have hks : k ≤ rs.stop - rs.pos := by omega
      refine .inl ⟨k, { rs with file := rs.file.tick.2, pos := rs.pos + k }, ?_, by omega, ?_, ?_,
        hunwritten', ?_⟩
      · rw [ReadSlice.read_def, ReadSlice.read, if_pos hlt, hr]
        dsimp only
        rw [List.length_take_of_le hkl, List.take_take, Nat.min_eq_left hks]
      · rw [List.length_take]
        omega
      · intro hne
        refine hpos fun hnil => hne ?_
        rw [hnil, List.take_nil]
      · rw [hcontent, List.drop_take, List.drop_drop]
        congr 1
        show rs.stop - rs.pos - k = rs.stop - (rs.pos + k)
        omega
  · refine .inl ⟨0, rs, ?_, by omega, by omega, ?_, hunwritten, rfl⟩
    · rw [ReadSlice.read_def, ReadSlice.read, if_neg hlt, List.take_zero]
    · intro hne
      rw [show rs.stop - rs.pos = 0 by omega, List.take_zero] at hne
      exact absurd rfl hne

end BodyArchive
