import BodyArchive.Body.Image

/-!
# What an image holds

`Backs im bs` relates an image in any state to the one byte list it stands for; it is the
abstraction every access path is measured against. An image that is backed delivers its bytes
through `reader`, `write_to` and `explode` alike (`Backs.delivers`), and `gather` and `mem_map`
keep it backed. A sound sink prepares into a backed image (`prepare_backs`).
-/

namespace BodyArchive

namespace BodyImage

/-- The image stands for `bs`, and nobody changes the bytes behind it. -/
def Backs (im : BodyImage) (bs : Bytes) : Prop :=
  im.len = bs.length ∧
  match im.state with
  | .ram v => v.flatten = bs ∧ ∀ b ∈ v, b ≠ []
  | .fsRead f => f.Own ∧ f.content = bs ∧ bs ≠ []
  | .fsReadSlice rs => rs.pos = rs.start ∧ rs.stop = rs.start + bs.length ∧ rs.file.Fair ∧
      ∀ c, rs.file.Future c → rs.stop ≤ c.length ∧ (c.drop rs.start).take bs.length = bs
  | .memMap m => m = bs

/-- What all access paths of an image give. -/
structure Delivers (im : BodyImage) (bs : Bytes) : Prop where
  len_eq : im.len = bs.length
  reader : ∀ n, 0 < n → ∃ br, readToEnd n im.reader = (.ok bs, br)
  writeTo : ∀ {W : Type} [Write W] {G : W → Bytes → Prop}, Accepts G → ∀ w got, G w got →
    ∃ w', im.writeTo w = (.ok im.len, w') ∧ G w' (got ++ bs)
  explode : match im.explode with
    | .ram v => v.flatten = bs
    | .fsRead rs => ∀ n, 0 < n → ∃ rs', readToEnd n rs = (.ok bs, rs')
    | .memMap m => m = bs

/-! ## The access paths -/

/-- The range of a backed slice, read from its start. -/
theorem slice_rest {rs : ReadSlice} {bs : Bytes} (hpos : rs.pos = rs.start)
    (hstop : rs.stop = rs.start + bs.length) (hf : rs.file.Fair)
    (hfut : ∀ c, rs.file.Future c → rs.stop ≤ c.length ∧ (c.drop rs.start).take bs.length = bs) :
    Rest rs rs.start bs .eof := by
  refine ⟨hpos, hf, rfl, fun c hc => ?_⟩
  rw [hstop, Nat.add_sub_cancel_left]
  exact (hfut c hc).2

/-- The range of a file of one's own, of the file's length. -/
theorem whole_rest {f : File} (hf : f.Own) {n : Nat} (hn : n = f.content.length) :
    Rest (⟨f, 0, n, 0⟩ : ReadSlice) 0 f.content .eof := by
  have hstop : n = 0 + f.content.length := by omega
  refine slice_rest rfl hstop hf.fair fun c hc => ?_
  rw [hf.future hc]
  exact ⟨Nat.le_of_eq hn, by simp⟩

theorem Backs.reader_rest {im : BodyImage} {bs : Bytes} (h : im.Backs bs) :
    ∃ p, Rest im.reader p bs .eof := by
  obtain ⟨state, len⟩ := im
  obtain ⟨hlen, h⟩ := h
  cases state with
  | ram v =>
    obtain ⟨rfl, -⟩ := h
    match v with
    | [] => exact ⟨0, rfl, rfl, rfl⟩
    | [b] => exact ⟨0, rfl, by simp, rfl⟩
    | b :: c :: v => exact ⟨0, rfl, rfl, rfl⟩
  | fsRead f =>
    obtain ⟨hown, rfl, -⟩ := h
    exact ⟨0, whole_rest hown hlen⟩
  | fsReadSlice rs =>
    obtain ⟨hpos, hstop, hf, hfut⟩ := h
    exact ⟨rs.start, slice_rest hpos hstop hf hfut⟩
  | memMap m =>
    cases h
    exact ⟨0, rfl, rfl, rfl⟩

section WriteTo

variable {W : Type} [Write W] {G : W → Bytes → Prop}

theorem writeBufs_accepts (hG : Accepts G) (v : List Bytes) {w : W} {got : Bytes} (hw : G w got) :
    ∃ w', writeBufs v w = (.ok (), w') ∧ G w' (got ++ v.flatten) := by
  induction v generalizing w got with
  | nil => exact ⟨w, rfl, by simpa using hw⟩
  | cons b v ih =>
    obtain ⟨w₁, hb, hw₁⟩ := hG w got b hw
    obtain ⟨w₂, hv, hw₂⟩ := ih hw₁
    refine ⟨w₂, ?_, ?_⟩
    · rw [writeBufs, Prog.bind_of_ok hb, hv]
    · rwa [List.flatten_cons, ← List.append_assoc]

/-- **`write_to`** of a backed image writes exactly its bytes and returns their number. -/
theorem Backs.writeTo {im : BodyImage} {bs : Bytes} (h : im.Backs bs) (hG : Accepts G) {w : W}
    {got : Bytes} (hw : G w got) :
    ∃ w', im.writeTo w = (.ok bs.length, w') ∧ G w' (got ++ bs) := by
  obtain ⟨state, len⟩ := im
  obtain ⟨rfl, h⟩ := h
  suffices hs : ∃ w', writeState state w = (.ok (), w') ∧ G w' (got ++ bs) by
    obtain ⟨w', hs, hw'⟩ := hs
    refine ⟨w', ?_, hw'⟩
    rw [BodyImage.writeTo, Prog.bind_of_ok hs]
    rfl
  cases state with
  | ram v =>
    obtain ⟨rfl, -⟩ := h
    obtain ⟨w', hv, hw'⟩ := writeBufs_accepts hG v hw
    exact ⟨w', Prog.mapErr_of_ok hv, hw'⟩
  | fsRead f =>
    obtain ⟨hown, rfl, -⟩ := h
    have hrest : Rest (⟨f, 0⟩ : ReadPos) 0 f.content .eof := ReadPos.rest_own hown 0
    obtain ⟨r', w', hc, hw'⟩ := copy_eof hG hrest hw
    refine ⟨w', ?_, hw'⟩
    rw [writeState, Prog.bind_of_ok (Prog.mapErr_of_ok (Prog.withLocal_of hc))]
    rfl
  | fsReadSlice rs =>
    obtain ⟨hpos, hstop, hf, hfut⟩ := h
    obtain ⟨r', w', hc, hw'⟩ := copy_eof hG (slice_rest hpos hstop hf hfut) hw
    refine ⟨w', ?_, hw'⟩
    rw [writeState, Prog.bind_of_ok (Prog.mapErr_of_ok (Prog.withLocal_of hc))]
    rfl
  | memMap m =>
    obtain rfl : m = bs := h
    obtain ⟨w', hb, hw'⟩ := hG w got m hw
    exact ⟨w', Prog.mapErr_of_ok hb, hw'⟩

end WriteTo

/-- **All access paths** of a backed image deliver its bytes. -/
theorem Backs.delivers {im : BodyImage} {bs : Bytes} (h : im.Backs bs) : im.Delivers bs where
  len_eq := h.1
  reader n hn := by
    obtain ⟨p, hrest⟩ := h.reader_rest
    exact readToEnd_eof hn hrest
  writeTo hG w got hw := by
    rw [h.1]
    exact h.writeTo hG hw
  explode := by
    obtain ⟨state, len⟩ := im
    obtain ⟨hlen, h⟩ := h
    cases state with
    | ram v => exact h.1
    | fsRead f =>
      obtain ⟨hown, rfl, -⟩ := h
      exact fun n hn => readToEnd_eof hn (whole_rest hown hlen)
    | fsReadSlice rs =>
      obtain ⟨hpos, hstop, hf, hfut⟩ := h
      exact fun n hn => readToEnd_eof hn (slice_rest hpos hstop hf hfut)
    | memMap m => exact h

/-! ## The state changes -/

/-- An image stands for the bytes that its reader yields, and so for no others. -/
theorem Backs.unique {im : BodyImage} {bs bs' : Bytes} (h : im.Backs bs) (h' : im.Backs bs') :
    bs = bs' := by
  obtain ⟨br, hr⟩ := h.delivers.reader 1 Nat.one_pos
  obtain ⟨br', hr'⟩ := h'.delivers.reader 1 Nat.one_pos
  rw [hr] at hr'
  cases hr'
  rfl

/-- **`mem_map`** keeps what a backed image holds, or fails and leaves it as it was. -/
theorem Backs.memMap {im : BodyImage} {bs : Bytes} (h : im.Backs bs) {sys : MapSys}
    (hsys : sys.Lawful) :
    (∃ im', BodyImage.memMap sys im = (.ok (), im') ∧ im'.Backs bs) ∨
      ∃ e, BodyImage.memMap sys im = (.err e, im) := by
  obtain ⟨state, len⟩ := im
  have hall := h
  obtain ⟨hlen, h⟩ := h
  cases state with
  | ram v => exact .inl ⟨_, rfl, hall⟩
  | fsRead f =>
    obtain ⟨-, rfl, hne⟩ := h
    have hpos : 0 < len := by
      rw [show len = f.content.length from hlen]
      exact List.length_pos_iff.mpr hne
    rcases hm : sys.whole f.content with e | m
    · exact .inr ⟨.io e, by simp only [BodyImage.memMap, if_pos hpos, hm]⟩
    · exact .inl ⟨⟨.memMap m, len⟩, by simp only [BodyImage.memMap, if_pos hpos, hm], hlen,
        hsys.whole_eq hm⟩
  | fsReadSlice rs =>
    obtain ⟨-, hstop, -, hfut⟩ := h
    obtain ⟨hle, htake⟩ := hfut _ rs.file.future_now
    rcases hm : sys.range rs.file.content rs.start rs.stop with e | m
    · exact .inr ⟨.io e, by simp only [BodyImage.memMap, hm]⟩
    · refine .inl ⟨⟨.memMap m, len⟩, by simp only [BodyImage.memMap, hm], hlen, ?_⟩
      show m = bs
      rw [hsys.range_eq hm (by omega) hle, hstop, Nat.add_sub_cancel_left, htake]
  | memMap m => exact .inl ⟨_, rfl, hall⟩

/-- **`gather`** keeps what a backed image holds; its assertion cannot fail. -/
theorem Backs.gather {im : BodyImage} {bs : Bytes} (h : im.Backs bs) :
    ∃ im', BodyImage.gather im = (.ok (), im') ∧ im'.Backs bs := by
  obtain ⟨state, len⟩ := im
  have hall := h
  obtain ⟨hlen, h⟩ := h
  cases state with
  | ram v =>
    obtain ⟨rfl, hne⟩ := h
    by_cases hv : 1 < v.length
    · have hflat : v.flatten.length = len := hlen.symm
      refine ⟨⟨.ram [v.flatten], len⟩, by simp only [BodyImage.gather, if_pos hv, if_pos hflat],
        hlen, by simp, ?_⟩
      rintro b hb
      rw [List.mem_singleton.mp hb]
      obtain ⟨c, w, rfl⟩ := List.exists_cons_of_length_pos (l := v) (by omega)
      have hc := hne c (by simp)
      simp [hc]
    · exact ⟨_, by simp only [BodyImage.gather, if_neg hv], hall⟩
  | fsRead f => exact ⟨_, rfl, hall⟩
  | fsReadSlice rs => exact ⟨_, rfl, hall⟩
  | memMap m => exact ⟨_, rfl, hall⟩

/-! ## From a sink -/

/-- **`prepare`** of a sound sink gives an image of what the sink holds. -/
theorem prepare_backs {s : BodySink} (h : s.Sound) {fault : Option IoError} {im : BodyImage}
    (hp : s.prepare fault = .ok im) : im.Backs s.held ∧ im.len = s.len := by
  obtain ⟨state, len⟩ := s
  cases state with
  | ram v =>
    cases hp
    exact ⟨⟨h.len_eq, rfl, h.bufs_ne_nil v rfl⟩, rfl⟩
  | fsWrite f =>
    have hlen : len = f.content.length := h.len_eq
    by_cases hz : len = 0
    · simp only [BodySink.prepare, if_pos hz, Except.ok.injEq] at hp
      have hnil : f.content = [] := List.eq_nil_of_length_eq_zero (by omega)
      subst hp
      refine ⟨⟨?_, ?_, by simp⟩, hz.symm⟩
      · show 0 = f.content.length
        omega
      · show [] = f.content
        rw [hnil]
    · simp only [BodySink.prepare, if_neg hz] at hp
      cases fault with
      | some e => cases hp
      | none =>
        cases hp
        refine ⟨⟨hlen, h.file_own f rfl, rfl, fun hnil => hz ?_⟩, rfl⟩
        have hc : f.content = [] := hnil
        rw [hlen, hc]
        rfl

/-- Preparing fails only with the file. -/
theorem prepare_ok (s : BodySink) : ∃ im, s.prepare none = .ok im := by
  obtain ⟨state, len⟩ := s
  cases state with
  | ram v => exact ⟨_, rfl⟩
  | fsWrite f =>
    rw [BodySink.prepare]
    by_cases hz : len = 0
    · exact ⟨_, if_pos hz⟩
    · exact ⟨_, if_neg hz⟩

/-- An image has the length of its sink, sound or not. -/
theorem prepare_len {s : BodySink} {fault : Option IoError} {im : BodyImage}
    (h : s.prepare fault = .ok im) : im.len = s.len := by
  obtain ⟨state, len⟩ := s
  unfold BodySink.prepare at h
  cases state with
  | ram v =>
    cases h
    rfl
  | fsWrite f =>
    by_cases hz : len = 0
    · simp only [if_pos hz] at h
      cases h
      exact hz.symm
    · simp only [if_neg hz] at h
      cases fault with
      | none =>
        cases h
        rfl
      | some e => cases h

/-- An image of one buffer. -/
theorem fromSlice_backs (bs : Bytes) : (fromSlice bs).Backs bs := by
  rw [fromSlice]
  split
  · next h =>
    refine ⟨rfl, by simp, fun b hb => ?_⟩
    rw [List.mem_singleton.mp hb]
    exact List.ne_nil_of_length_pos h
  · next h =>
    have hnil : bs = [] := List.eq_nil_of_length_eq_zero (by omega)
    subst hnil
    exact ⟨rfl, rfl, by simp⟩

end BodyImage

end BodyArchive
