import BodyArchive.Barc.Reader

/-!
# The request body of a compressed record

It comes from a decoder, and its length from the record's head: up to `max_body_ram` it is read in one
piece, and above that it is copied to a temporary file in a loop. The two agree on streams that have
the length, whatever the pieces they come in. On a stream that ends before, the loop ends as well, and
what has been copied so far passes for the body (`read_body_fs_iff`).
-/

namespace BodyArchive

/-- Of a stream of `bs` that ends in `t`, the next `len` bytes are read: they come back as an image and
no more is taken; or there are fewer, which is an error, after all of them have been taken. -/
def ReadsNext (len : Nat) (bs : Bytes) (t : Tail) (x : Res BarcError BodyImage × Stream) : Prop :=
  (len ≤ bs.length ∧ ∃ im st', x = (.ok im, st') ∧ im.Backs (bs.take len) ∧
    st'.AtRest (bs.drop len) t) ∨
  (bs.length < len ∧ ∃ e st', x = (.err e, st') ∧ (t = .eof → st'.AtRest [] t))

section ReqBody

variable {bs : Bytes} {t : Tail} {st : Stream} {len : Nat}

theorem tail_ne_more (h : st.AtRest bs t) : t ≠ .more := by
  intro ht
  have htail := h.2.1
  rw [ht, Stream.tail] at htail
  split at htail <;> cases htail

/-- **`read_body_ram`** reads the next bytes, or reports that there are too few. -/
theorem readBodyRam_readsNext (h : st.AtRest bs t) (len : Nat) :
    ReadsNext len bs t (readBodyRam false len st) := by
  have hrest : Rest st 0 bs t := Stream.rest_iff.mpr h
  have ht := tail_ne_more h
  unfold readBodyRam
  by_cases hz : len = 0
  · rw [if_pos hz, hz]
    exact .inl ⟨Nat.zero_le _, .empty, st, rfl, ⟨rfl, rfl, by simp⟩, h⟩
  have hassert : (!false || decide (2 < len)) = true := rfl
  rw [if_neg hz, Prog.bind_of_ok (Prog.assert_true hassert _ _)]
  by_cases hlen : len ≤ bs.length
  · obtain ⟨st', hr, hrest'⟩ := readExact_ok hrest hlen
    refine .inl ⟨hlen, .fromSlice (bs.take len), st', ?_, BodyImage.fromSlice_backs _, hrest'⟩
    have htake : (bs.take len).take len = bs.take len := by rw [List.take_take, Nat.min_self]
    rw [Prog.bind_of_ok (Prog.mapErr_of_ok hr), if_neg (by decide), htake]
    rfl
  · obtain ⟨st', hr, hrest'⟩ := readExact_short hrest ht (Nat.lt_of_not_le hlen)
    exact .inr ⟨Nat.lt_of_not_le hlen, .io t.error, st', Prog.bind_of_err (Prog.mapErr_of_err hr),
      hrest'⟩

/-- What `read_body_fs` makes of a stream, with or without a temporary file. -/
theorem readBodyFs_ends (tune : Tunables) (h : st.AtRest bs t) (len : Nat) :
    (∃ im st', readBodyFs tune len st = (.ok im, st') ∧ im.Backs (bs.take len) ∧
      (len = 0 ∨ tune.TempOk ∧ (len ≤ bs.length ∨ t = .eof)) ∧ st'.AtRest (bs.drop len) t) ∨
    (∃ e st', readBodyFs tune len st = (.err e, st') ∧ tune.TempOk ∧ bs.length < len ∧ t ≠ .eof) ∨
    ∃ e, readBodyFs tune len st = (.err e, st) ∧ ¬ tune.TempOk ∧ len ≠ 0 := by
  have hrest : Rest st 0 bs t := Stream.rest_iff.mpr h
  by_cases htemp : tune.TempOk
  · rcases readBodyFs_run tune hrest (fun hm => absurd hm (tail_ne_more h)) htemp with
      ⟨im, st', hr, hbacks, hend, hrest'⟩ | ⟨e, st', hr, hshort, he⟩
    · exact .inl ⟨im, st', hr, hbacks, .inr ⟨htemp, hend⟩, hrest'⟩
    · refine .inr (.inl ⟨_, st', hr, htemp, hshort, ?_⟩)
      rw [he]
      intro heof
      cases heof
  · by_cases hz : len = 0
    · refine .inl ⟨.empty, st, ?_, ?_, .inl hz, ?_⟩
      · rw [readBodyFs, if_pos hz]
        rfl
      · rw [hz, List.take_zero]
        exact ⟨rfl, rfl, by simp⟩
      · rw [hz, List.drop_zero]
        exact h
    · obtain ⟨e, he⟩ := readBodyFs_no_temp htemp hz st
      exact .inr (.inr ⟨_, he, htemp, hz⟩)

end ReqBody

end BodyArchive
