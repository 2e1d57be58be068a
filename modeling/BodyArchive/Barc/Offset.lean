import BodyArchive.Barc.RoundTrip

/-!
# The offset of a reader

A `read` that returns a record has moved the reader over exactly that record, wherever its bodies
ended up (`read_offset`), so reading in sequence always comes to an end (`reads_end`).

One that returns nothing has not moved the reader, but one that fails has, although `offset` is
documented to advance with successful reads only (`unmoved_iff`).
-/

namespace BodyArchive

/-! ## Moving forward -/

/-- The ending `x` leaves the reader at `p` or behind it, and at `q` if it is a value. -/
def MovedTo {ε α : Type} (p q : Nat) (x : Res ε α × ReadPos) : Prop :=
  p ≤ x.2.pos ∧ ∀ a, x.1 = .ok a → x.2.pos = q

/-- The program never moves the reader back, and moves it by `n` if it returns a value. -/
def Advances {ε α : Type} (n : Nat) (m : Prog ReadPos ε α) : Prop :=
  ∀ rp, MovedTo rp.pos (rp.pos + n) (m rp)

section Moved

variable {ε ε' α β : Type} {p q n : Nat}

theorem movedTo_ok {a : α} {rp : ReadPos} (hle : p ≤ rp.pos) (hq : rp.pos = q) :
    MovedTo p q ((.ok a, rp) : Res ε α × ReadPos) :=
  ⟨hle, fun _ _ => hq⟩

theorem movedTo_err {e : ε} {rp : ReadPos} (hle : p ≤ rp.pos) :
    MovedTo p q ((.err e, rp) : Res ε α × ReadPos) := by
  refine ⟨hle, fun a h => ?_⟩
  cases h

theorem movedTo_panic {msg : String} {rp : ReadPos} (hle : p ≤ rp.pos) :
    MovedTo p q ((.panic msg, rp) : Res ε α × ReadPos) := by
  refine ⟨hle, fun a h => ?_⟩
  cases h

theorem MovedTo.mapErr {m : Prog ReadPos ε α} {rp : ReadPos} (h : MovedTo p q (m rp))
    (f : ε → ε') : MovedTo p q (Prog.mapErr f m rp) := by
  obtain ⟨hle, hq⟩ := h
  rcases hx : m rp with ⟨a | e | msg, rp₁⟩ <;> rw [hx] at hle hq <;> rw [Prog.mapErr, hx]
  · exact movedTo_ok hle (hq a rfl)
  · exact movedTo_err hle
  · exact movedTo_panic hle

/-- A sequence, from a reader behind `p`. -/
theorem Advances.bind {m : Prog ReadPos ε α} {f : α → Prog ReadPos ε β} {rp : ReadPos}
    (hm : Advances n m) (hp : p ≤ rp.pos)
    (hf : ∀ a rp₁, rp₁.pos = rp.pos + n → MovedTo p q (f a rp₁)) :
    MovedTo p q ((m >>= f) rp) := by
  obtain ⟨hle, hq⟩ := hm rp
  rcases hx : m rp with ⟨a | e | msg, rp₁⟩ <;> rw [hx] at hle hq
  · rw [Prog.bind_of_ok hx]
    exact hf a rp₁ (hq a rfl)
  · rw [Prog.bind_of_err hx]
    exact movedTo_err (Nat.le_trans hp hle)
  · rw [Prog.bind_of_panic hx]
    exact movedTo_panic (Nat.le_trans hp hle)

theorem advances_assert (b : Bool) (msg : String) :
    Advances 0 (Prog.assert b msg : Prog ReadPos ε Unit) := by
  intro rp
  cases b
  · exact movedTo_panic (Nat.le_refl _)
  · exact movedTo_ok (Nat.le_refl _) rfl

end Moved

/-- One read call moves the reader over the bytes it returns. -/
theorem ReadPos.read_pos {rp rp' : ReadPos} {n : Nat} {x : Except IoError Bytes}
    (h : Read.read rp n = (x, rp')) :
    rp'.pos = rp.pos + (match x with | .ok bs => bs.length | .error _ => 0) :=
  (ReadPos.read_cases h).2

theorem advances_readExact (n : Nat) : Advances n (readExact n : Prog ReadPos IoError Bytes) := by
  intro rp
  refine Prog.loop_rule (readExactStep_decreasing n)
    (fun got rp₁ => rp₁.pos = rp.pos + got.length) _ ?_ [] rp rfl
  intro got rp₁ hpos
  rw [readExactStep]
  split
  · next hfull =>
    exact movedTo_ok (by omega) (by omega)
  · rcases hr : Read.read rp₁ (n - got.length) with ⟨e | bs, rp₂⟩ <;>
      rw [Prog.bind_of_ok (tryRead_of hr)] <;> have hmove := ReadPos.read_pos hr <;>
      simp only at hmove
    · cases e with
      | interrupted =>
        show rp₂.pos = rp.pos + got.length
        omega
      | _ => exact movedTo_err (by omega)
    · cases bs with
      | nil => exact movedTo_err (by omega)
      | cons b bs =>
        show rp₂.pos = rp.pos + (got ++ b :: bs).length
        rw [List.length_append]
        omega

section Parts

variable (cr : Crates) (tune : Tunables)

theorem advances_readHeaders (withCrlf : Bool) (len : Nat) :
    Advances len (readHeaders cr withCrlf len : Prog ReadPos BarcError HeaderMap) := by
  intro rp
  rw [readHeaders]
  split
  · exact movedTo_ok (Nat.le_refl _) (by omega)
  · refine (advances_assert _ _).bind (Nat.le_refl _) fun _ rp₁ h₁ => ?_
    have hread : Advances len (Prog.mapErr BarcError.io (readExact len)) :=
      fun rp => (advances_readExact len rp).mapErr _
    refine hread.bind (by omega) fun buf rp₂ h₂ => ?_
    exact ⟨by show rp.pos ≤ rp₂.pos; omega, fun _ _ => by show rp₂.pos = _; omega⟩

theorem advances_readBodyRam (withCrlf : Bool) (len : Nat) :
    Advances len (readBodyRam withCrlf len : Prog ReadPos BarcError BodyImage) := by
  intro rp
  rw [readBodyRam]
  split
  · exact movedTo_ok (Nat.le_refl _) (by omega)
  · refine (advances_assert _ _).bind (Nat.le_refl _) fun _ rp₁ h₁ => ?_
    have hread : Advances len (Prog.mapErr BarcError.io (readExact len)) :=
      fun rp => (advances_readExact len rp).mapErr _
    refine hread.bind (by omega) fun buf rp₂ h₂ => ?_
    exact movedTo_ok (by omega) (by omega)

theorem advances_sliceBody (len : Nat) : Advances len (sliceBody len) := by
  intro rp
  rw [sliceBody]
  refine (advances_assert _ _).bind (Nat.le_refl _) fun _ rp₁ h₁ => ?_
  rw [Prog.get_bind, Prog.bind_of_ok (Prog.mapErr_of_ok (ReadPos.seek_current _ _)), Prog.get_bind]
  refine movedTo_ok ?_ ?_
  · show rp.pos ≤ rp₁.pos + len
    omega
  · show rp₁.pos + len = _
    omega

/-- A deferred body counts like one that was read. -/
theorem advances_readOrSliceBody (len : Nat) : Advances len (readOrSliceBody tune len) := by
  intro rp
  rw [readOrSliceBody]
  split
  · exact advances_readBodyRam true len rp
  · exact advances_sliceBody len rp

/-- **The parts of a plain record** add up to its length: the last part is what the others
leave of it. -/
theorem readPlain_moved {start : Nat} (rhead : RecordHead) {rp : ReadPos}
    (hpos : rp.pos = start + v2HeadSize) :
    MovedTo rp.pos (rp.pos + rhead.len) (readPlain cr tune start rhead rp) := by
  rw [readPlain]
  refine (advances_readHeaders cr true _).bind (Nat.le_refl _) fun m rp₁ h₁ => ?_
  refine (advances_readHeaders cr true _).bind (by omega) fun q rp₂ h₂ => ?_
  refine (advances_readOrSliceBody tune _).bind (by omega) fun b rp₃ h₃ => ?_
  refine (advances_readHeaders cr true _).bind (by omega) fun s rp₄ h₄ => ?_
  rw [Prog.get_bind]
  cases htaken : decide (rp₄.pos - start - v2HeadSize ≤ rhead.len) with
  | false =>
    rw [Prog.bind_of_panic (Prog.assert_false rfl _ _)]
    exact movedTo_panic (by omega)
  | true =>
    have hle := of_decide_eq_true htaken
    rw [Prog.bind_of_ok (Prog.assert_true rfl _ _)]
    refine (advances_readOrSliceBody tune _).bind (by omega) fun b rp₅ h₅ => ?_
    exact movedTo_ok (by omega) (by omega)

/-- A compressed record is read from a slice; the reader then seeks behind it. -/
theorem readCompressed_state {σ : Type} (rs : ReadSlice) (rhead : RecordHead) (s : σ) :
    (readCompressed cr tune rs rhead s).2 = s := by
  rw [readCompressed]
  cases decodeWrapper cr rhead.compress rs tune.bufferSizeRam with
  | error e => rfl
  | ok fin => rfl

/-- **What `read` does after the head**: the reader ends behind the record, if there is one. -/
theorem readRecord_moved {start : Nat} {rhead : RecordHead} (hreal : rhead.recType ≠ .reserved)
    {rp : ReadPos} (hpos : rp.pos = start + v2HeadSize) :
    MovedTo rp.pos (rp.pos + rhead.len) (readRecord cr tune start rhead rp) := by
  rw [readRecord, if_neg hreal]
  split
  · rw [Prog.get_bind, Prog.set_bind]
    generalize hrs : rp.subslice rp.pos (rp.pos + rhead.len) = rs
    generalize rp.file.skip _ = file
    have hstate := readCompressed_state cr tune rs rhead (⟨file, rp.pos⟩ : ReadPos)
    rcases hx : readCompressed cr tune rs rhead (⟨file, rp.pos⟩ : ReadPos) with ⟨r | e | msg, rp₁⟩ <;>
      rw [hx] at hstate <;> simp only at hstate <;> subst hstate
    · rw [Prog.bind_of_ok hx]
      exact movedTo_ok (Nat.le_add_right _ _) rfl
    · rw [Prog.bind_of_err hx]
      exact movedTo_err (Nat.le_refl _)
    · rw [Prog.bind_of_panic hx]
      exact movedTo_panic (Nat.le_refl _)
  · have hplain := readPlain_moved cr tune rhead hpos
    obtain ⟨hle, hq⟩ := hplain
    rcases hx : readPlain cr tune start rhead rp with ⟨r | e | msg, rp₁⟩ <;> rw [hx] at hle hq
    · rw [Prog.bind_of_ok hx]
      exact movedTo_ok hle (hq r rfl)
    · rw [Prog.bind_of_err hx]
      exact movedTo_err hle
    · rw [Prog.bind_of_panic hx]
      exact movedTo_panic hle

end Parts

/-- A head takes its length. -/
theorem readRecordHead_pos {rp rp' : ReadPos} {head : RecordHead}
    (hr : readRecordHead rp = (.ok (some head), rp')) : rp'.pos = rp.pos + v2HeadSize := by
  obtain ⟨buf, hbuf, -, hlen⟩ := readRecordHead_eq_some hr
  rw [← hlen]
  refine readRecordHeadBuf_rule (fun got (rp₁ : ReadPos) => rp₁.pos = rp.pos + got.length)
    (fun got rp₁ n bs rp₂ hpos hread => ?_) (fun got rp₁ n rp₂ hpos hread => ?_) rfl hbuf
  · have hmove := ReadPos.read_pos hread
    simp only at hmove
    rw [hmove, hpos, List.length_append, Nat.add_assoc]
  · exact (ReadPos.read_pos hread).trans hpos

/-! ## Files that nobody writes -/

/-- Nobody writes the file; its reads may go in any way. -/
def File.Still (f : File) : Prop := ∀ e ∈ f.env, e.ops = []

theorem File.Own.still {f : File} (h : f.Own) : f.Still := fun e he => (h e he).1

theorem File.still_stable (c : Bytes) : File.Stable fun f => f.Still ∧ f.content = c := by
  rintro ⟨content, env⟩ ⟨hstill, rfl⟩
  cases env with
  | nil => exact ⟨hstill, rfl⟩
  | cons e env =>
    refine ⟨fun e' he' => hstill e' (List.mem_cons_of_mem _ he'), ?_⟩
    show e.ops.foldl FileOp.apply content = content
    rw [hstill e (by simp)]
    rfl

/-- What a delivery hands out is the first of what there is. -/
theorem Delivery.deliver_take {d : Delivery} {n : Nat} {avail bs : Bytes}
    (h : d.deliver n avail = .ok bs) : bs = avail.take bs.length := by
  cases d with
  | full =>
    cases h
    rw [List.length_take, List.take_eq_take_iff]
    omega
  | upTo k =>
    cases h
    rw [List.length_take, List.take_eq_take_iff]
    omega
  | interrupted => cases h
  | failed e => cases h

theorem ReadPos.read_still {rp rp' : ReadPos} {n : Nat} {bs : Bytes} (h : rp.file.Still)
    (hr : Read.read rp n = (.ok bs, rp')) :
    bs = (rp.file.content.drop rp.pos).take bs.length ∧ rp'.file.Still ∧
      rp'.file.content = rp.file.content ∧ rp'.pos = rp.pos + bs.length := by
  obtain ⟨hread, hpos⟩ := ReadPos.read_cases hr
  have htick := File.still_stable rp.file.content rp.file ⟨h, rfl⟩
  rw [File.readAt, Prod.mk.injEq, htick.2] at hread
  obtain ⟨hbs, hfile⟩ := hread
  rw [← hfile]
  exact ⟨Delivery.deliver_take hbs, htick.1, htick.2, hpos⟩

/-- A head that was read is what lies at the position. -/
theorem readRecordHead_still {rp rp' : ReadPos} {head : RecordHead} (h : rp.file.Still)
    (hr : readRecordHead rp = (.ok (some head), rp')) :
    headOf ((rp.file.content.drop rp.pos).take v2HeadSize) = .ok (some head) ∧
      rp.pos + v2HeadSize ≤ rp.file.content.length ∧ rp'.pos = rp.pos + v2HeadSize := by
  obtain ⟨buf, hbuf, hof, hlen⟩ := readRecordHead_eq_some hr
  have htake := readRecordHeadBuf_rule
    (fun got (rp₁ : ReadPos) => got = (rp.file.content.drop rp.pos).take got.length ∧
      rp₁.file.Still ∧ rp₁.file.content = rp.file.content ∧ rp₁.pos = rp.pos + got.length)
    (fun got rp₁ n bs rp₂ hI hread => ?_) (fun got rp₁ n rp₂ hI hread => ?_) ⟨rfl, h, rfl, rfl⟩ hbuf
  · obtain ⟨htake, -, -, hpos⟩ := htake
    rw [hlen] at htake hpos
    refine ⟨by rw [← htake]; exact hof, ?_, hpos⟩
    have hle := congrArg List.length htake
    rw [hlen, List.length_take, List.length_drop] at hle
    have h54 : 0 < v2HeadSize := by decide
    omega
  · obtain ⟨htake, hstill, hcontent, hpos⟩ := hI
    obtain ⟨hbs, hstill₂, hcontent₂, hpos₂⟩ := ReadPos.read_still hstill hread
    rw [hcontent, hpos, ← List.drop_drop] at hbs
    refine ⟨?_, hstill₂, hcontent₂.trans hcontent, ?_⟩
    · rw [List.length_append, List.take_add, ← htake, ← hbs]
    · rw [hpos₂, hpos, List.length_append, Nat.add_assoc]
  · obtain ⟨htake, hstill, hcontent, hpos⟩ := hI
    have hkept := @ReadPos.preserves_tryRead _ (File.still_stable rp.file.content)
      BarcError n rp₁ ⟨hstill, hcontent⟩
    rw [tryRead_of hread] at hkept
    exact ⟨htake, hkept.1, hkept.2, (ReadPos.read_pos hread).trans hpos⟩

/-! ## Successful reads -/

section Ends

variable {cr : Crates} {tune : Tunables}

/-- **A successful read** moves the reader over one record: the head at its position, and as many
bytes as the head says. -/
theorem read_offset {rp rp' : ReadPos} {r : Record} (h : rp.file.Still)
    (hread : read cr tune rp = (.ok (some r), rp')) :
    ∃ head, headOf ((rp.file.content.drop rp.pos).take v2HeadSize) = .ok (some head) ∧
      rp.pos + v2HeadSize ≤ rp.file.content.length ∧
      offset rp' = rp.pos + v2HeadSize + head.len := by
  rcases hhead : readRecordHead rp with ⟨(_ | head) | e | msg, rp₁⟩
  · rw [read_of_none hhead] at hread
    cases hread
  · obtain ⟨hof, hle, hpos⟩ := readRecordHead_still h hhead
    rw [read_of_head hhead] at hread
    refine ⟨head, hof, hle, ?_⟩
    by_cases hreal : head.recType = .reserved
    · rw [readRecord_reserved cr tune hreal] at hread
      cases hread
    · have hmoved := (readRecord_moved cr tune hreal hpos).2
      rw [hread] at hmoved
      rw [← hpos]
      exact hmoved _ rfl
  · rw [read_of_err hhead] at hread
    cases hread
  · rw [read, Prog.get_bind, Prog.bind_of_panic hhead] at hread
    cases hread

theorem read_still {rp rp' : ReadPos} {x : Res BarcError (Option Record)} (h : rp.file.Still)
    (hread : read cr tune rp = (x, rp')) :
    rp'.file.Still ∧ rp'.file.content = rp.file.content := by
  have hkept := preserves_read cr tune (File.still_stable rp.file.content) rp ⟨h, rfl⟩
  rwa [hread] at hkept

/-- What can be read of a file gets less with the calls and the writes that are over. -/
theorem File.fuel_stable (calls reach : Nat) :
    File.Stable fun f => f.env.length ≤ calls ∧ f.reach ≤ reach := by
  rintro f ⟨hcalls, hreach⟩
  exact ⟨Nat.le_trans (File.tick_env f) hcalls, Nat.le_trans (File.tick_reach f) hreach⟩

/-- **A record takes from what can still be read**, whoever writes the file. -/
theorem read_fuel {rp rp' : ReadPos} {r : Record} (hread : read cr tune rp = (.ok (some r), rp')) :
    Read.fuel rp' < Read.fuel rp := by
  rcases hhead : readRecordHead rp with ⟨(_ | head) | e | msg, rp₁⟩
  · rw [read_of_none hhead] at hread
    cases hread
  · have hlt := readRecordHead_fuel hhead
    rw [read_of_head hhead] at hread
    by_cases hreal : head.recType = .reserved
    · rw [readRecord_reserved cr tune hreal] at hread
      cases hread
    · have hmoved := (readRecord_moved cr tune hreal (readRecordHead_pos hhead)).1
      have hkept := preserves_readRecord cr tune
        (File.fuel_stable rp₁.file.env.length rp₁.file.reach) rp.pos head rp₁
        ⟨Nat.le_refl _, Nat.le_refl _⟩
      rw [hread] at hmoved hkept
      obtain ⟨hcalls, hreach⟩ := hkept
      have hle : Read.fuel rp' ≤ Read.fuel rp₁ := by
        show rp'.file.env.length + (rp'.file.reach - rp'.pos) ≤
          rp₁.file.env.length + (rp₁.file.reach - rp₁.pos)
        simp only at hcalls hreach hmoved
        omega
      exact Nat.lt_of_le_of_lt hle hlt
  · rw [read_of_err hhead] at hread
    cases hread
  · rw [read, Prog.get_bind, Prog.bind_of_panic hhead] at hread
    cases hread

/-- Reads in sequence, each of which returns a record, take a head's length each. -/
theorem reads_length {rp rp' : ReadPos} {rs : List (Nat × Record)} (h : rp.file.Still)
    (hreads : Reads cr tune rp rs rp') :
    rs.length * v2HeadSize ≤ rp.file.content.length := by
  have hspace : rs = [] ∨ rp.pos + rs.length * v2HeadSize ≤ rp.file.content.length := by
    induction hreads with
    | done rp => exact .inl rfl
    | @next rp rp₁ rp₂ r rs hread rest ih =>
      refine .inr ?_
      obtain ⟨head, -, hle, hoff⟩ := read_offset h hread
      obtain ⟨hstill, hcontent⟩ := read_still h hread
      rw [List.length_cons, Nat.succ_mul]
      rcases ih hstill with rfl | hrest
      · rw [List.length_nil]
        omega
      · have hpos : rp₁.pos = rp.pos + v2HeadSize + head.len := hoff
        rw [hcontent] at hrest
        omega
  rcases hspace with rfl | hspace
  · rw [List.length_nil]
    omega
  · omega

theorem Reads.snoc {rp rp₁ rp₂ : ReadPos} {rs : List (Nat × Record)} {r : Record}
    (h : Reads cr tune rp rs rp₁) (hread : read cr tune rp₁ = (.ok (some r), rp₂)) :
    Reads cr tune rp (rs ++ [(offset rp₁, r)]) rp₂ := by
  induction h with
  | done rp => exact .next hread (.done rp₂)
  | next hfirst _ ih => exact .next hfirst (ih hread)

/-- **Sequential reading always ends.** Each successful read of a file that nobody writes moves the
reader over the record at its offset, however its bodies are read. So reading in sequence, from any
offset, comes to a read that returns no record, after no more records than the file has room for
heads. -/
theorem sequential_read_ends {file : File} (h : file.Still) (o : Nat) :
    (∀ r rp', read cr tune ⟨file, o⟩ = (.ok (some r), rp') →
      ∃ head, headOf ((file.content.drop o).take v2HeadSize) = .ok (some head) ∧
        offset rp' = o + v2HeadSize + head.len) ∧
    (∀ rs rp', Reads cr tune ⟨file, o⟩ rs rp' →
      rs.length ≤ file.content.length / v2HeadSize + 1) ∧
    ∃ rs rp', Reads cr tune ⟨file, o⟩ rs rp' ∧
      ∀ r rp'', read cr tune rp' ≠ (.ok (some r), rp'') := by
  have hbound (rs : List (Nat × Record)) (rp' : ReadPos) (hreads : Reads cr tune ⟨file, o⟩ rs rp') :
      rs.length ≤ file.content.length / v2HeadSize := by
    rw [Nat.le_div_iff_mul_le (by decide)]
    exact @reads_length cr tune ⟨file, o⟩ _ _ h hreads
  refine ⟨fun r rp' hread => ?_, fun rs rp' hreads => Nat.le_succ_of_le (hbound rs rp' hreads), ?_⟩
  · obtain ⟨head, hof, -, hoff⟩ := @read_offset cr tune ⟨file, o⟩ _ _ h hread
    exact ⟨head, hof, hoff⟩
  · -- As long as reads return records, one more can be made; the bound ends that.
    by_contra hnever
    have hlong (n : Nat) : ∃ rs rp', Reads cr tune ⟨file, o⟩ rs rp' ∧ rs.length = n := by
      induction n with
      | zero => exact ⟨[], _, .done _, rfl⟩
      | succ n ih =>
        obtain ⟨rs, rp', hreads, hlen⟩ := ih
        have hmore : ¬ ∀ r rp'', read cr tune rp' ≠ (.ok (some r), rp'') :=
          fun hstop => hnever ⟨rs, rp', hreads, hstop⟩
        push Not at hmore
        obtain ⟨r, rp'', hread⟩ := hmore
        exact ⟨_, rp'', hreads.snoc hread, by rw [List.length_append, hlen]; rfl⟩
    obtain ⟨rs, rp', hreads, hlen⟩ := hlong (file.content.length / v2HeadSize + 1)
    have := hbound rs rp' hreads
    omega

end Ends

/-- Reading the sample record, and whatever comes after it. -/
theorem sampleFile_read_ends :
    ∃ rs rp', Reads sampleCrates (Sample.tunables 2 3 (by decide))
        ⟨File.quiet (write sampleCrates Sample.record .plain OutFile.empty).2.content, 0⟩ rs rp' ∧
      rs.length ≤ 2 ∧
      ∀ r rp'', read sampleCrates (Sample.tunables 2 3 (by decide)) rp' ≠ (.ok (some r), rp'') := by
  obtain ⟨-, hbound, rs, rp', hreads, hstop⟩ :=
    @sequential_read_ends sampleCrates (Sample.tunables 2 3 (by decide)) _
      (File.quiet_own (write sampleCrates Sample.record .plain OutFile.empty).2.content).still 0
  refine ⟨rs, rp', hreads, Nat.le_trans (hbound rs rp' hreads) ?_, hstop⟩
  decide +kernel

/-! ## Unsuccessful reads -/

section Unmoved

variable {cr : Crates} {tune : Tunables}

/-- **An unsuccessful read leaves the reader where it was** exactly when it found the end of the
file there, or a reserved head: so whenever it returns nothing, and never when it fails. -/
theorem unmoved_iff {file : File} (hown : file.Own) {o : Nat} {x : Res BarcError (Option Record)}
    {rp' : ReadPos} (hread : read cr tune ⟨file, o⟩ = (x, rp'))
    (hx : x = .ok none ∨ ∃ e, x = .err e) :
    offset rp' = o ↔ file.content.length ≤ o ∨
      ∃ head, headOf ((file.content.drop o).take v2HeadSize) = .ok (some head) ∧
        head.recType = .reserved := by
  have hrest : Rest (⟨file, o⟩ : ReadPos) o (file.content.drop o) .eof := ReadPos.rest_own hown o
  obtain ⟨rp₁, hhead, hrest₁⟩ := readRecordHead_rest hrest (by simp) (by simp)
  have hpos₁ := (ReadPos.rest_iff.mp hrest₁).pos_eq
  have hlen : ((file.content.drop o).take v2HeadSize).length =
      min v2HeadSize (file.content.length - o) := by
    rw [List.length_take, List.length_drop]
  have h54 : v2HeadSize = 54 := rfl
  generalize (file.content.drop o).take v2HeadSize = buf at hhead hpos₁ hlen
  rcases hof : headOf buf with e | _ | head <;> rw [hof] at hhead
  · -- A bad head: some bytes of it have been read.
    have hsome : buf.length ≠ 0 := by
      intro hz
      rw [headOf_none.mpr hz] at hof
      cases hof
    rw [read_of_err hhead] at hread
    cases hread
    constructor
    · intro hoff
      have hback : rp'.pos = o := hoff
      omega
    · rintro (hle | ⟨head, hcontra, -⟩)
      · omega
      · cases hcontra
  · have hnone := headOf_none.mp hof
    rw [read_of_none hhead] at hread
    cases hread
    refine ⟨fun _ => .inl (by omega), fun _ => ?_⟩
    show rp'.pos = o
    omega
  · have hfull := headOf_some hof
    rw [read_of_head hhead] at hread
    by_cases hreal : head.recType = .reserved
    · rw [readRecord_reserved cr tune hreal] at hread
      cases hread
      exact ⟨fun _ => .inr ⟨head, rfl, hreal⟩, fun _ => rfl⟩
    · -- A record that failed, with its head read.
      have hat : rp₁.pos = o + v2HeadSize := by omega
      have hmoved := (readRecord_moved cr tune hreal hat).1
      rw [show readRecord cr tune o head rp₁ = (x, rp') from hread] at hmoved
      constructor
      · intro hoff
        have hback : rp'.pos = o := hoff
        simp only at hmoved
        omega
      · rintro (hle | ⟨head', hsame, hreal'⟩)
        · omega
        · cases hsame
          exact absurd hreal' hreal

end Unmoved

/-- At the end of a file of one byte, a read returns nothing and moves nothing. -/
theorem byteFile_unmoved :
    ∃ rp', read sampleCrates (Sample.tunables 2 3 (by decide)) ⟨File.quiet [0], 1⟩ =
      (.ok none, rp') ∧ offset rp' = 1 :=
  ⟨⟨File.quiet [0], 1⟩, by decide +kernel,
    (@unmoved_iff sampleCrates (Sample.tunables 2 3 (by decide)) _ (File.quiet_own [0]) 1 (.ok none) _
      (by decide +kernel) (.inl rfl)).mpr (.inl (by decide))⟩

/-- At its start, a read fails and moves over the byte. -/
theorem byteFile_moved :
    let x := read sampleCrates (Sample.tunables 2 3 (by decide)) ⟨File.quiet [0], 0⟩
    x.1 = .err (.readIncompleteRecHead 1) ∧ offset x.2 = 1 :=
  ⟨by decide +kernel, by decide +kernel⟩

end BodyArchive
