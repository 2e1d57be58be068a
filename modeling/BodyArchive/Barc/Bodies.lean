import BodyArchive.Barc.Record
import BodyArchive.Body.ReadFrom

/-!
# Reading the parts of a record

Header blocks and bodies, each from the bytes that are there. A body is read into RAM, copied
from a decoder to a temporary file, or left in the archive as a slice of it. What comes back is
given in terms of the part alone, whatever follows it.
-/

namespace BodyArchive

/-! ## Header blocks -/

section Headers

variable (cr : Crates)

/-- What the block of a header map is read as. -/
def reparse (headers : HeaderMap) : Res BarcError HeaderMap :=
  if headerLines headers = [] then .ok .empty else parseHeaders cr (headerLines headers ++ crlf)

/-- The block of a map is read as that map. -/
def ParsesBack (headers : HeaderMap) : Prop := reparse cr headers = .ok headers

/-- Few enough headers, with trimmed values, parse back. -/
theorem parsesBack_of_trimmed (hcr : cr.HeadersLawful) {headers : HeaderMap}
    (hlen : headers.len ≤ maxHeaders) (htrim : ∀ e ∈ headers.iter, e.2.Trimmed) :
    ParsesBack cr headers := by
  rw [ParsesBack, reparse]
  by_cases hne : headers = .empty
  · rw [if_pos (headerLines_eq_nil.mpr hne), hne]
  · rw [if_neg (fun h => hne (headerLines_eq_nil.mp h)), parseHeaders,
      hcr.parse_block headers hne hlen htrim]
    simp only [if_true, appendHeaders_back cr hcr]
    exact congrArg Res.ok headers.ofList_iter

/-- **`read_headers`** of the block of a map. -/
theorem readHeaders_block {R : Type} [Source R] {r : R} {p : Nat} {withCrlf : Bool}
    {headers : HeaderMap} {z : Bytes} {t : Tail} (h : Rest r p (block withCrlf headers ++ z) t) :
    ∃ r', readHeaders cr withCrlf (block withCrlf headers).length r = (reparse cr headers, r') ∧
      Rest r' (p + (block withCrlf headers).length) z t := by
  by_cases hnil : headerLines headers = []
  · have hblock : block withCrlf headers = [] := by rw [block, hnil, pad_nil]
    rw [hblock] at h ⊢
    exact ⟨r, by rw [reparse, if_pos hnil]; rfl, h⟩
  · have hlen := two_lt_headerLines (fun he => hnil (headerLines_eq_nil.mpr he))
    have hblock : (if withCrlf then block withCrlf headers else block withCrlf headers ++ crlf) =
        headerLines headers ++ crlf := by
      cases withCrlf with
      | false => rfl
      | true => exact pad_true hnil
    have hlong : 2 < (block withCrlf headers).length := by
      cases withCrlf with
      | false => exact hlen
      | true => exact two_lt_pad_length hnil
    obtain ⟨r', hr, hrest⟩ := readHeaders_rest cr h hlong withCrlf
    refine ⟨r', ?_, hrest⟩
    rw [hr, hblock, reparse, if_neg hnil]

end Headers

/-! ## Bodies -/

section Programs

variable {R : Type} [Read R]

/-- `read_body_ram`. -/
def readBodyRam (withCrlf : Bool) (len : Nat) : Prog R BarcError BodyImage :=
  if len = 0 then pure .empty else do
    Prog.assert (!withCrlf || decide (2 < len)) "assertion failed: !with_crlf || len > 2"
    let buf ← Prog.mapErr .io (readExact len)
    pure (.fromSlice (buf.take (if withCrlf then len - 2 else len)))

/-- One round of `read_body_fs`. -/
def readBodyFsStep (tune : Tunables) (len : Nat) (body : BodySink) :
    Prog R BarcError (BodySink ⊕ BodySink) := do
  let limit := min tune.bufferSizeFs (len - body.len)
  Prog.assert (0 < limit) "assertion failed: limit > 0"
  match ← tryRead limit with
  | .ok [] => pure (.inr body)
  | .ok bs => do
    let body ← Prog.evolve (Prog.mapErr .io (BodySink.writeAll .done bs)) body
    if body.len < len then pure (.inl body) else do
      Prog.assert (body.len = len) "assertion failed: body.len() == len"
      pure (.inr body)
  | .error .interrupted => pure (.inl body)
  | .error e => Prog.throw (.io e)

/-- `read_body_fs`. -/
def readBodyFs (tune : Tunables) (len : Nat) : Prog R BarcError BodyImage :=
  if len = 0 then pure .empty else do
    let body ← Prog.mapErr (fun e => .body (.io e))
      (Prog.ofRes (.ofExcept (BodySink.withFs tune.tempDir)))
    let body ← Prog.loop Read.fuel (readBodyFsStep tune len) body
    Prog.mapErr .body (Prog.ofRes (.ofExcept (body.prepare none)))

theorem readBodyFsStep_decreasing (tune : Tunables) (len : Nat) :
    Prog.Decreasing Read.fuel (readBodyFsStep (R := R) tune len) := by
  intro body r body' r' h
  rw [readBodyFsStep] at h
  obtain ⟨_, r₁, ha, hnext⟩ := Prog.bind_eq_ok h
  obtain ⟨-, rfl⟩ := Prog.assert_eq_ok ha
  rcases hr : Read.read r₁ (min tune.bufferSizeFs (len - body.len)) with ⟨(e | bs), r₂⟩ <;>
    rw [Prog.bind_of_ok (tryRead_of hr)] at hnext
  · cases e <;> cases hnext
    exact Read.fuel_interrupted hr
  · cases bs with
    | nil => cases hnext
    | cons b bs =>
      obtain ⟨body₁, r₃, hw, hlast⟩ := Prog.bind_eq_ok hnext
      have hstate := Prog.evolve_state hw
      split at hlast
      · cases hlast
        rw [hstate]
        exact Read.fuel_bytes hr (by simp)
      · obtain ⟨_, r₄, -, hlast'⟩ := Prog.bind_eq_ok hlast
        cases hlast'

end Programs

/-- `slice_body`: a body that is left where it is. -/
def sliceBody (len : Nat) : Prog ReadPos BarcError BodyImage := do
  Prog.assert (2 < len) "assertion failed: len > 2"
  let offset := (← Prog.get).pos
  -- Seek past the body, as if read.
  Prog.mapErr .io (ReadPos.seek (.current len))
  let rp ← Prog.get
  pure (.fromReadSlice (rp.subslice offset (offset + len - 2)))

/-- A body of a plain record, with its CRLF: in RAM up to `max_body_ram`, else in the archive. -/
def readOrSliceBody (tune : Tunables) (len : Nat) : Prog ReadPos BarcError BodyImage :=
  if len ≤ tune.maxBodyRam then readBodyRam true len else sliceBody len

/-! ## Bodies that are there -/

section Specs

variable {R : Type} [Source R]

/-- **`read_body_ram`** of a body. -/
theorem readBodyRam_pad {r : R} {p : Nat} {withCrlf : Bool} {bs z : Bytes} {t : Tail}
    (h : Rest r p (pad withCrlf bs ++ z) t) :
    ∃ im r', readBodyRam withCrlf (pad withCrlf bs).length r = (.ok im, r') ∧ im.Backs bs ∧
      Rest r' (p + (pad withCrlf bs).length) z t := by
  by_cases hnil : bs = []
  · subst hnil
    rw [pad_nil] at h ⊢
    exact ⟨.empty, r, rfl, ⟨rfl, rfl, by simp⟩, h⟩
  · have hpos : (pad withCrlf bs).length ≠ 0 := by
      rw [Ne, List.length_eq_zero_iff, pad_eq_nil]
      exact hnil
    have hassert : (!withCrlf || decide (2 < (pad withCrlf bs).length)) = true := by
      cases withCrlf with
      | false => rfl
      | true => simpa using two_lt_pad_length hnil
    have htake : (pad withCrlf bs).take
        (if withCrlf then (pad withCrlf bs).length - 2 else (pad withCrlf bs).length) = bs := by
      cases withCrlf with
      | false => simp [pad_false]
      | true => simp [pad_true hnil]
    obtain ⟨r', hr, hrest⟩ := readExact_ok h (n := (pad withCrlf bs).length) (by simp)
    rw [List.take_left] at hr
    rw [List.drop_left] at hrest
    refine ⟨.fromSlice bs, r', ?_, BodyImage.fromSlice_backs bs, hrest⟩
    rw [readBodyRam, if_neg hpos, Prog.bind_of_ok (Prog.assert_true hassert _ _),
      Prog.bind_of_ok (Prog.mapErr_of_ok hr), htake]
    rfl

/-- How the collecting of `len` bytes ends: with these bytes, or if the stream ends before with all that
there are, or with the error it breaks off with. -/
def Collected (len p : Nat) (bs : Bytes) (t : Tail) (x : Res BarcError BodySink × R) : Prop :=
  (∃ body r', x = (.ok body, r') ∧ body.Sound ∧ body.held = bs.take len ∧
    (len ≤ bs.length ∨ t = .eof) ∧ Rest r' (p + (bs.take len).length) (bs.drop len) t) ∨
  ∃ e r', x = (.err (.io e), r') ∧ bs.length < len ∧ t = .failed e

/-- The temporary file of `read_body_fs` collects bytes up to its length, and no assertion fails. -/
theorem readBodyFs_collects (tune : Tunables) {r : R} {p len : Nat} {bs : Bytes} {t : Tail}
    (h : Rest r p bs t) (ht : t = .more → len ≤ bs.length) (hlen : 0 < len) {body : BodySink}
    (hs : body.Sound) (hempty : body.held = []) :
    Collected len p bs t (Prog.loop Read.fuel (readBodyFsStep tune len) body r) := by
  refine Prog.loop_rule (readBodyFsStep_decreasing tune len)
    (fun body₁ r₁ => ∃ done left, bs = done ++ left ∧ done.length < len ∧ body₁.Sound ∧
      body₁.held = done ∧ Rest r₁ (p + done.length) left t)
    (Collected len p bs t) ?_ body r ⟨[], bs, rfl, hlen, hs, hempty, h⟩
  rintro body₁ r₁ ⟨done, left, rfl, hroom, hs₁, rfl, hrest⟩
  have hbuf := tune.buffer_fs_pos
  have hlimit : min tune.bufferSizeFs (len - body₁.len) =
      min tune.bufferSizeFs (len - body₁.held.length) := by
    rw [hs₁.len_eq]
  have hall : (body₁.held ++ left).length = body₁.held.length + left.length := List.length_append
  rw [readBodyFsStep, hlimit, Prog.bind_of_ok (Prog.assert_true (by simp; omega) _ _)]
  rcases Source.step hrest (n := min tune.bufferSizeFs (len - body₁.held.length)) (by omega)
      (fun hm => by have := ht hm; omega) with
    ⟨k, r', hr, hkn, hkl, hpos, heof, hrest'⟩ | ⟨r', hr, hrest'⟩ | ⟨hnil, e, r', he, hint, hr⟩
  · rw [Prog.bind_of_ok (tryRead_of hr)]
    cases hc : left.take k with
    | nil =>
      -- The stream has ended, and the file has all of it.
      obtain rfl := nil_of_take hpos hc
      rw [List.append_nil] at ht ⊢
      have hshort : body₁.held.take len = body₁.held := List.take_of_length_le (by omega)
      refine .inl ⟨body₁, r', rfl, hs₁, hshort.symm, .inr (heof rfl), ?_⟩
      rw [hshort, List.drop_of_length_le (by omega)]
      have hk : k = 0 := Nat.le_zero.mp hkl
      rw [hk] at hrest'
      exact hrest'
    | cons b rest =>
      have hlk : (b :: rest).length = k := by
        rw [← hc, List.length_take]; omega
      obtain ⟨body₂, hw, hs₂, hheld₂, -⟩ :=
        BodyImage.append_step hs₁ (b :: rest) BarcError.io r'
      show Prog.After _ _ ((Prog.evolve (Prog.mapErr BarcError.io
        (BodySink.writeAll .done (b :: rest))) body₁ >>= _) r')
      rw [Prog.bind_of_ok hw]
      have hlen₂ : body₂.held.length = body₁.held.length + k := by
        rw [hheld₂, List.length_append, hlk]
      have hsplit : body₁.held ++ left = body₂.held ++ left.drop k := by
        rw [hheld₂, ← hc, List.append_assoc, List.take_append_drop]
      have hrest₂ : Rest r' (p + body₂.held.length) (left.drop k) t := by
        rw [hlen₂, ← Nat.add_assoc]
        exact hrest'
      by_cases hmore : body₂.len < len
      · rw [if_pos hmore]
        rw [hs₂.len_eq] at hmore
        exact ⟨body₂.held, left.drop k, hsplit, hmore, hs₂, rfl, hrest₂⟩
      · have hfull : body₂.held.length = len := by
          rw [hs₂.len_eq] at hmore
          omega
        rw [if_neg hmore, Prog.bind_of_ok (Prog.assert_true
          (decide_eq_true (hs₂.len_eq.trans hfull)) _ _)]
        refine .inl ⟨body₂, r', rfl, hs₂, ?_, .inl ?_, ?_⟩
        · rw [hsplit, ← hfull, List.take_left]
        · omega
        · rw [hsplit, ← hfull, List.take_left, List.drop_left]
          exact hrest₂
  · rw [Prog.bind_of_ok (tryRead_of hr)]
    exact ⟨body₁.held, left, rfl, hroom, hs₁, rfl, hrest'⟩
  · rw [Prog.bind_of_ok (tryRead_of hr)]
    have hshort : (body₁.held ++ left).length < len := by
      rw [hnil, List.append_nil]
      exact hroom
    cases e <;> first | exact .inr ⟨_, r', rfl, hshort, he⟩ | exact absurd rfl hint

/-- **`read_body_fs`** collects the bytes in a temporary file, if one can be created. -/
theorem readBodyFs_run (tune : Tunables) {r : R} {p len : Nat} {bs : Bytes} {t : Tail}
    (h : Rest r p bs t) (ht : t = .more → len ≤ bs.length) (htemp : tune.TempOk) :
    (∃ im r', readBodyFs tune len r = (.ok im, r') ∧ im.Backs (bs.take len) ∧
      (len ≤ bs.length ∨ t = .eof) ∧ Rest r' (p + (bs.take len).length) (bs.drop len) t) ∨
    ∃ e r', readBodyFs tune len r = (.err (.io e), r') ∧ bs.length < len ∧ t = .failed e := by
  rw [readBodyFs]
  by_cases hlen : len = 0
  · rw [if_pos hlen, hlen, List.take_zero, List.drop_zero]
    exact .inl ⟨.empty, r, rfl, ⟨rfl, rfl, by simp⟩, .inl (Nat.zero_le _), h⟩
  · obtain ⟨env, henv⟩ := htemp
    have hw : BodySink.withFs (.ok env) = .ok ⟨.fsWrite ⟨[], env.val⟩, 0⟩ := rfl
    obtain ⟨hs, hheld⟩ := BodySink.sound_withFs hw
    have hopen : (Prog.mapErr (fun e => .body (.io e))
        (Prog.ofRes (.ofExcept (BodySink.withFs tune.tempDir))) : Prog R BarcError BodySink) r =
        (.ok ⟨.fsWrite ⟨[], env.val⟩, 0⟩, r) := by
      rw [henv]
      rfl
    rw [if_neg hlen, Prog.bind_of_ok hopen]
    rcases readBodyFs_collects tune h ht (Nat.pos_of_ne_zero hlen) hs hheld with
      ⟨body', r', hl, hs', hheld', hend, hrest⟩ | ⟨e, r', hl, hshort, he⟩
    · obtain ⟨im, him⟩ := BodyImage.prepare_ok body'
      refine .inl ⟨im, r', ?_, ?_, hend, hrest⟩
      · rw [Prog.bind_of_ok hl, him]
        rfl
      · rw [← hheld']
        exact (BodyImage.prepare_backs hs' him).1
    · exact .inr ⟨e, r', Prog.bind_of_err hl, hshort, he⟩

/-- Without a temporary file `read_body_fs` takes nothing. -/
theorem readBodyFs_no_temp {tune : Tunables} (htemp : ¬ tune.TempOk) {len : Nat} (hlen : len ≠ 0)
    (r : R) : ∃ e, readBodyFs tune len r = (.err (.body (.io e)), r) := by
  rw [readBodyFs, if_neg hlen]
  cases hdir : tune.tempDir with
  | error e => exact ⟨e, Prog.bind_of_err rfl⟩
  | ok env => exact absurd ⟨env, hdir⟩ htemp

/-- **`read_body_fs`** of a body, when a temporary file can be created. -/
theorem readBodyFs_rest (tune : Tunables) {r : R} {p : Nat} {bs z : Bytes} {t : Tail}
    (h : Rest r p (bs ++ z) t) (hne : bs ≠ []) :
    Prog.OkIff tune.TempOk (fun im r' => im.Backs bs ∧ Rest r' (p + bs.length) z t)
      (readBodyFs tune bs.length r) := by
  have hle : t = .more → bs.length ≤ (bs ++ z).length := by
    intro _
    rw [List.length_append]
    omega
  have hlen : bs.length ≠ 0 := by simpa using hne
  by_cases htemp : tune.TempOk
  · rcases readBodyFs_run tune h hle htemp with
      ⟨im, r', hr, hbacks, -, hrest⟩ | ⟨e, r', -, hshort, -⟩
    · rw [List.take_left] at hbacks hrest
      rw [List.drop_left] at hrest
      exact .inl ⟨htemp, im, r', hr, hbacks, hrest⟩
    · rw [List.length_append] at hshort
      omega
  · obtain ⟨e, he⟩ := readBodyFs_no_temp htemp hlen r
    exact .inr ⟨htemp, _, r, he⟩

end Specs

/-- **`slice_body`** of a body: the slice has the body, whatever becomes of the file beyond. -/
theorem sliceBody_pad {rp : ReadPos} {p : Nat} {bs z : Bytes} {t : Tail}
    (h : Rest rp p (pad true bs ++ z) t) (hne : bs ≠ []) :
    ∃ im rp', sliceBody (pad true bs).length rp = (.ok im, rp') ∧ im.Backs bs ∧
      Rest rp' (p + (pad true bs).length) z t := by
  have hlen := two_lt_pad_length hne
  have hp : rp.pos = p := (ReadPos.rest_iff.mp h).pos_eq
  have hat := ReadPos.rest_iff.mp h
  have hmoved := hat.move (k := (pad true bs).length) (by simp) hat.fair fun c hc => hc
  rw [List.drop_left, hp] at hmoved
  have hpad : (pad true bs).length = bs.length + 2 := by
    rw [pad_true hne, List.length_append, crlf_length]
  refine ⟨.fromReadSlice (rp.subslice p (p + (pad true bs).length - 2)),
    { rp with pos := p + (pad true bs).length }, ?_, ?_, hmoved⟩
  · rw [sliceBody, Prog.bind_of_ok (Prog.assert_true (by simpa using hlen) _ _), Prog.get_bind,
      Prog.bind_of_ok (Prog.mapErr_of_ok (ReadPos.seek_current _ _)), Prog.get_bind, hp]
    rfl
  · have hbs := List.length_pos_iff.mpr hne
    rw [hpad, show p + (bs.length + 2) - 2 = p + bs.length by omega, BodyImage.fromReadSlice,
      if_pos (by simp only [ReadSlice.len, ReadPos.subslice]; omega)]
    refine ⟨by simp [ReadSlice.len, ReadPos.subslice], rfl, rfl, hat.fair, fun c hc => ?_⟩
    obtain ⟨z', hz'⟩ := hat.starts hc
    rw [pad_true hne] at hz'
    have htake : (c.drop p).take bs.length = bs := by
      rw [← hz', List.append_assoc, List.append_assoc, List.take_left]
    refine ⟨?_, htake⟩
    have := congrArg List.length htake
    rw [List.length_take, List.length_drop] at this
    show p + bs.length ≤ c.length
    omega

/-- A body of a plain record, wherever it ends up. -/
theorem readOrSliceBody_pad (tune : Tunables) {rp : ReadPos} {p : Nat} {bs z : Bytes} {t : Tail}
    (h : Rest rp p (pad true bs ++ z) t) :
    ∃ im rp', readOrSliceBody tune (pad true bs).length rp = (.ok im, rp') ∧ im.Backs bs ∧
      Rest rp' (p + (pad true bs).length) z t := by
  rw [readOrSliceBody]
  split
  · exact readBodyRam_pad h
  · next hlong =>
    refine sliceBody_pad h fun hnil => ?_
    rw [hnil, pad_nil] at hlong
    exact hlong (Nat.zero_le _)

end BodyArchive
