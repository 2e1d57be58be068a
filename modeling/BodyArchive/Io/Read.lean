import BodyArchive.Io.Prog

/-!
# Readers

The `Read` trait: a call offers a slice of `n` bytes and gets at most that many back, or an
error. How many bytes a call delivers is up to the reader, and a call may be interrupted, so
nothing about a byte source follows from one call. Two layers make reading predictable:

* `Read` — one call, with the bound `fuel` on the calls that can still make progress (return
  bytes, or be interrupted). It is the variant of every reading loop.
* `Source` — a reader *at a position of a byte sequence*. `Rest r p bs t` says that `r` stands
  at position `p`, that `bs` comes next, and what follows `bs` (`Tail`). The reading loops are
  then specified by the bytes alone, whatever the chunking: `readExact_ok`, `readExact_short`,
  `readToEnd_eof`.
-/

namespace BodyArchive

abbrev Bytes := List UInt8

/-- The kinds of I/O error the code tells apart, and all others. -/
inductive IoError where
  | interrupted
  | unexpectedEof
  | invalidInput
  | invalidData
  | other (code : Nat)
  deriving DecidableEq, Repr

/-! ## One call -/

/-- How one read call goes. -/
inductive Delivery where
  /-- As many bytes as there are, up to the slice. -/
  | full
  /-- At most `k` bytes; `upTo 0` is a zero-length read. -/
  | upTo (k : Nat)
  | interrupted
  | failed (e : IoError)
  deriving DecidableEq, Repr

/-- The result of a call offering `n` bytes when `avail` is there to be read. -/
def Delivery.deliver : Delivery → Nat → Bytes → Except IoError Bytes
  | .full, n, avail => .ok (avail.take n)
  | .upTo k, n, avail => .ok (avail.take (min k n))
  | .interrupted, _, _ => .error .interrupted
  | .failed e, _, _ => .error e

/-- A call that makes progress: short at most, or interrupted, but never empty-handed while
bytes are left, and without an error. -/
def Delivery.Fair : Delivery → Prop
  | .full => True
  | .upTo k => 0 < k
  | .interrupted => True
  | .failed _ => False

instance : (d : Delivery) → Decidable d.Fair
  | .full => isTrue trivial
  | .upTo k => inferInstanceAs (Decidable (0 < k))
  | .interrupted => isTrue trivial
  | .failed _ => isFalse id

/-- What a fair call returns: an interrupt, or some of what is there. -/
theorem Delivery.Fair.deliver {d : Delivery} (hd : d.Fair) {n : Nat} (hn : 0 < n) (avail : Bytes) :
    d.deliver n avail = .error .interrupted ∨
      ∃ k, d.deliver n avail = .ok (avail.take k) ∧ k ≤ n ∧ k ≤ avail.length ∧
        (avail ≠ [] → 0 < k) := by
  have some_of (m : Nat) (hm : 0 < m) (hmn : m ≤ n) :
      ∃ k, avail.take m = avail.take k ∧ k ≤ n ∧ k ≤ avail.length ∧ (avail ≠ [] → 0 < k) := by
    refine ⟨min m avail.length, ?_, by omega, by omega, fun hne => ?_⟩
    · rw [List.take_eq_take_iff]; omega
    · have := List.length_pos_iff.mpr hne
      omega
  cases d with
  | full =>
    obtain ⟨k, hk, h⟩ := some_of n hn (Nat.le_refl n)
    exact .inr ⟨k, by rw [Delivery.deliver, hk], h⟩
  | upTo j =>
    have hj : 0 < j := hd
    obtain ⟨k, hk, h⟩ := some_of (min j n) (by omega) (by omega)
    exact .inr ⟨k, by rw [Delivery.deliver, hk], h⟩
  | interrupted => exact .inl rfl
  | failed e => exact hd.elim

/-- The `Read` trait. -/
class Read (R : Type) where
  /-- Read into a slice of the given length. -/
  read : R → Nat → Except IoError Bytes × R
  /-- A bound on the calls that can still return bytes or be interrupted. -/
  fuel : R → Nat
  read_length : ∀ {r n bs r'}, read r n = (.ok bs, r') → bs.length ≤ n
  fuel_le : ∀ {r n x r'}, read r n = (x, r') → fuel r' ≤ fuel r
  fuel_bytes : ∀ {r n bs r'}, read r n = (.ok bs, r') → bs ≠ [] → fuel r' < fuel r
  fuel_interrupted : ∀ {r n r'}, read r n = (.error .interrupted, r') → fuel r' < fuel r

section Loops

variable {R ε : Type} [Read R]

/-- `match rin.read(buf)`: the call's result as a value. -/
def tryRead (n : Nat) : Prog R ε (Except IoError Bytes) := fun r =>
  (.ok (Read.read r n).1, (Read.read r n).2)

theorem tryRead_of {r r' : R} {n : Nat} {x : Except IoError Bytes} (h : Read.read r n = (x, r')) :
    (tryRead n : Prog R ε _) r = (.ok x, r') := by
  rw [tryRead, h]

/-- One round of `read_exact`: `got` holds the bytes read so far. -/
def readExactStep (n : Nat) (got : Bytes) : Prog R IoError (Bytes ⊕ Bytes) :=
  if got.length = n then pure (.inr got) else do
    match ← tryRead (n - got.length) with
    | .ok [] => Prog.throw .unexpectedEof
    | .ok bs => pure (.inl (got ++ bs))
    | .error .interrupted => pure (.inl got)
    | .error e => Prog.throw e

/-- `Read::read_exact`: exactly `n` bytes, or `UnexpectedEof`. -/
def readExact (n : Nat) : Prog R IoError Bytes := Prog.loop Read.fuel (readExactStep n) []

/-- One round of reading to the end of the stream in slices of `n` bytes. -/
def readToEndStep (n : Nat) (got : Bytes) : Prog R IoError (Bytes ⊕ Bytes) := do
  match ← tryRead n with
  | .ok [] => pure (.inr got)
  | .ok bs => pure (.inl (got ++ bs))
  | .error .interrupted => pure (.inl got)
  | .error e => Prog.throw e

/-- `Read::read_to_end`, as also performed by `io::copy`. -/
def readToEnd (n : Nat) : Prog R IoError Bytes := Prog.loop Read.fuel (readToEndStep n) []

/-! Every round that goes on has read bytes or was interrupted. -/

theorem readExactStep_decreasing (n : Nat) :
    Prog.Decreasing Read.fuel (readExactStep (R := R) n) := by
  intro got r got' r' h
  rw [readExactStep] at h
  split at h
  · cases h
  · rcases hr : Read.read r (n - got.length) with ⟨(e | bs), r₁⟩ <;>
      rw [Prog.bind_of_ok (tryRead_of hr)] at h
    · cases e <;> cases h
      exact Read.fuel_interrupted hr
    · cases bs <;> cases h
      exact Read.fuel_bytes hr (by simp)

theorem readToEndStep_decreasing (n : Nat) :
    Prog.Decreasing Read.fuel (readToEndStep (R := R) n) := by
  intro got r got' r' h
  rw [readToEndStep] at h
  rcases hr : Read.read r n with ⟨(e | bs), r₁⟩ <;>
    rw [Prog.bind_of_ok (tryRead_of hr)] at h
  · cases e <;> cases h
    exact Read.fuel_interrupted hr
  · cases bs <;> cases h
    exact Read.fuel_bytes hr (by simp)

/-- A property of a reader that no read call changes. -/
def KeptByReads (I : R → Prop) : Prop := ∀ (ε : Type) n, Prog.Preserves I (tryRead n : Prog R ε _)

theorem KeptByReads.readExact {I : R → Prop} (h : KeptByReads I) (n : Nat) :
    Prog.Preserves I (readExact (R := R) n) := by
  refine Prog.preserves_loop (fun got => ?_) Read.fuel []
  rw [readExactStep]
  split
  · exact Prog.preserves_pure _
  · refine (h _ _).bind fun x => ?_
    split
    · exact Prog.preserves_throw _
    · exact Prog.preserves_pure _
    · exact Prog.preserves_pure _
    · exact Prog.preserves_throw _

end Loops

/-! ## Readers at a position -/

/-- What comes after the bytes known to come next. -/
inductive Tail where
  /-- The end of the stream. -/
  | eof
  /-- A read error. -/
  | failed (e : IoError)
  /-- More bytes, of which nothing is known. -/
  | more
  deriving DecidableEq, Repr

/-- The possible results of offering `n` bytes to a reader at position `p` of `bs` and `t`. -/
def ReadStep {R : Type} (read : R → Nat → Except IoError Bytes × R)
    (Rest : R → Nat → Bytes → Tail → Prop) (r : R) (n p : Nat) (bs : Bytes) (t : Tail) : Prop :=
  (∃ k r', read r n = (.ok (bs.take k), r') ∧ k ≤ n ∧ k ≤ bs.length ∧ (bs ≠ [] → 0 < k) ∧
    (bs = [] → t = .eof) ∧ Rest r' (p + k) (bs.drop k) t) ∨
  (∃ r', read r n = (.error .interrupted, r') ∧ Rest r' p bs t) ∨
  (bs = [] ∧ ∃ e r', t = .failed e ∧ e ≠ .interrupted ∧ read r n = (.error e, r'))

/-- A reader whose coming bytes can be known. -/
class Source (R : Type) extends Read R where
  /-- The reader is at the given position, the given bytes come next, and then the tail. -/
  Rest : R → Nat → Bytes → Tail → Prop
  step : ∀ {r n p bs t}, Rest r p bs t → 0 < n → (t = .more → n ≤ bs.length) →
    ReadStep read Rest r n p bs t

export Source (Rest)

/-- A read that returns nothing is at the end. -/
theorem nil_of_take {bs : Bytes} {k : Nat} (hpos : bs ≠ [] → 0 < k) (h : bs.take k = []) :
    bs = [] := by
  by_contra hne
  rcases List.take_eq_nil_iff.mp h with hk | hnil
  · have := hpos hne
    omega
  · exact hne hnil

section Specs

variable {R : Type} [Source R]

/-- **`read_exact` within the known bytes** returns them and leaves the rest. -/
theorem readExact_ok {r : R} {p n : Nat} {bs : Bytes} {t : Tail} (h : Rest r p bs t)
    (hn : n ≤ bs.length) :
    ∃ r', readExact n r = (.ok (bs.take n), r') ∧ Rest r' (p + n) (bs.drop n) t := by
  refine Prog.loop_rule (readExactStep_decreasing n)
    (fun got r => got.length ≤ n ∧ got = bs.take got.length ∧
      Rest r (p + got.length) (bs.drop got.length) t)
    (fun x => ∃ r', x = (.ok (bs.take n), r') ∧ Rest r' (p + n) (bs.drop n) t)
    ?_ [] r ⟨by simp, by simp, by simpa using h⟩
  rintro got r ⟨hle, hgot, hrest⟩
  by_cases hfull : got.length = n
  · rw [readExactStep, if_pos hfull]
    rw [hfull] at hgot hrest
    exact ⟨r, by rw [← hgot], hrest⟩
  · have hlen : (bs.drop got.length).length = bs.length - got.length := List.length_drop
    rw [readExactStep, if_neg hfull]
    rcases Source.step hrest (n := n - got.length) (by omega) (by omega) with
      ⟨k, r', hr, hkn, hkl, hpos, -, hrest'⟩ | ⟨r', hr, hrest'⟩ | ⟨hnil, -⟩
    · have hk : 0 < k := hpos (List.ne_nil_of_length_pos (by omega))
      have hlk : ((bs.drop got.length).take k).length = k := by
        rw [List.length_take]; omega
      rw [Prog.bind_of_ok (tryRead_of hr)]
      cases hc : (bs.drop got.length).take k with
      | nil => rw [hc] at hlk; simp at hlk; omega
      | cons b rest =>
        rw [hc] at hlk
        refine ⟨?_, ?_, ?_⟩
        · rw [List.length_append, hlk]; omega
        · rw [List.length_append, hlk, List.take_add, ← hgot, hc]
        · rw [List.length_append, hlk, ← Nat.add_assoc, ← List.drop_drop]
          exact hrest'
    · rw [Prog.bind_of_ok (tryRead_of hr)]
      exact ⟨hle, hgot, hrest'⟩
    · have := congrArg List.length hnil
      simp at this
      omega

/-- The error a stream that is too short ends in. -/
def Tail.error : Tail → IoError
  | .failed e => e
  | _ => .unexpectedEof

/-- **`read_exact` beyond the end** of the stream is an error, after all there is has been read. -/
theorem readExact_short {r : R} {p n : Nat} {bs : Bytes} {t : Tail} (h : Rest r p bs t)
    (ht : t ≠ .more) (hn : bs.length < n) :
    ∃ r', readExact n r = (.err t.error, r') ∧ (t = .eof → Rest r' (p + bs.length) [] t) := by
  refine Prog.loop_rule (readExactStep_decreasing n)
    (fun got r => ∃ left, bs = got ++ left ∧ Rest r (p + got.length) left t)
    (fun x => ∃ r', x = (.err t.error, r') ∧ (t = .eof → Rest r' (p + bs.length) [] t))
    ?_ [] r ⟨bs, rfl, h⟩
  rintro got r ⟨left, rfl, hrest⟩
  have hall : (got ++ left).length = got.length + left.length := List.length_append
  rw [readExactStep, if_neg (by omega)]
  rcases Source.step hrest (n := n - got.length) (by omega) (fun hm => absurd hm ht) with
    ⟨k, r', hr, -, hkl, hpos, heof, hrest'⟩ | ⟨r', hr, hrest'⟩ | ⟨-, e, r', he, hint, hr⟩ <;>
    rw [Prog.bind_of_ok (tryRead_of hr)]
  · cases hc : left.take k with
    | nil =>
      obtain rfl := nil_of_take hpos hc
      have hk : k = 0 := Nat.le_zero.mp hkl
      rw [hk] at hrest'
      refine ⟨r', by rw [heof rfl]; rfl, ?_⟩
      intro _
      rw [List.append_nil]
      exact hrest'
    | cons b rest =>
      have hlk : (b :: rest).length = k := by
        rw [← hc, List.length_take]; omega
      refine ⟨left.drop k, ?_, ?_⟩
      · rw [← hc, List.append_assoc, List.take_append_drop]
      · rw [List.length_append, hlk, ← Nat.add_assoc]
        exact hrest'
  · exact ⟨left, rfl, hrest'⟩
  · subst he
    cases e <;> first | exact ⟨r', rfl, fun ht => by cases ht⟩ | exact absurd rfl hint

/-- **`read_to_end`** returns all the bytes of a stream that ends. -/
theorem readToEnd_eof {n : Nat} (hn : 0 < n) {r : R} {p : Nat} {bs : Bytes}
    (h : Rest r p bs .eof) : ∃ r', readToEnd n r = (.ok bs, r') := by
  refine Prog.loop_rule (readToEndStep_decreasing n)
    (fun got r => ∃ p left, bs = got ++ left ∧ Rest r p left .eof)
    (fun x => ∃ r', x = (.ok bs, r')) ?_ [] r ⟨p, bs, rfl, h⟩
  rintro got r ⟨p, left, rfl, hrest⟩
  rw [readToEndStep]
  rcases Source.step hrest hn (by simp) with
    ⟨k, r', hr, -, -, hpos, -, hrest'⟩ | ⟨r', hr, hrest'⟩ | ⟨-, e, r', he, -⟩
  · rw [Prog.bind_of_ok (tryRead_of hr)]
    cases hc : left.take k with
    | nil =>
      obtain rfl := nil_of_take hpos hc
      exact ⟨r', by rw [List.append_nil]⟩
    | cons b rest =>
      refine ⟨p + k, left.drop k, ?_, hrest'⟩
      rw [← hc, List.append_assoc, List.take_append_drop]
  · rw [Prog.bind_of_ok (tryRead_of hr)]
    exact ⟨p, left, rfl, hrest'⟩
  · cases he

end Specs

/-! ## Readers of a known stream -/

/-- The reader yields exactly `bs`: every call gets some of what is left, or is interrupted, and
only at the end nothing. -/
def Yields {R : Type} [Read R] (r : R) (bs : Bytes) : Prop :=
  ∃ At : R → Bytes → Prop, At r bs ∧ ∀ r bs n, At r bs → 0 < n →
    (∃ k r', Read.read r n = (.ok (bs.take k), r') ∧ k ≤ n ∧ k ≤ bs.length ∧ (bs ≠ [] → 0 < k) ∧
      At r' (bs.drop k)) ∨
    (∃ r', Read.read r n = (.error .interrupted, r') ∧ At r' bs)

/-- A reader that yields a stream, as a `Source` at its start. -/
theorem Yields.rest {R : Type} [base : Read R] {r : R} {bs : Bytes} (h : Yields r bs) :
    ∃ src : Source R, src.toRead = base ∧ src.Rest r 0 bs .eof := by
  obtain ⟨At, hat, hstep⟩ := h
  refine ⟨{ toRead := base, Rest := fun r _ bs t => At r bs ∧ t = .eof, step := ?_ }, rfl, hat, rfl⟩
  intro r n p bs t hrest hn _
  obtain ⟨hat, rfl⟩ := hrest
  rcases hstep r bs n hat hn with ⟨k, r', hr, hkn, hkl, hpos, hat'⟩ | ⟨r', hr, hat'⟩
  · exact .inl ⟨k, r', hr, hkn, hkl, hpos, fun _ => rfl, hat', rfl⟩
  · exact .inr (.inl ⟨r', hr, hat', rfl⟩)

/-- A source whose stream ends yields it. -/
theorem Source.yields {R : Type} [Source R] {r : R} {p : Nat} {bs : Bytes}
    (h : Rest r p bs .eof) : Yields r bs := by
  refine ⟨fun r bs => ∃ p, Rest r p bs .eof, ⟨p, h⟩, ?_⟩
  intro r bs n hat hn
  obtain ⟨p, hat⟩ := hat
  rcases Source.step hat hn (by simp) with
    ⟨k, r', hr, hkn, hkl, hpos, -, hat'⟩ | ⟨r', hr, hat'⟩ | ⟨-, e, r', he, -⟩
  · exact .inl ⟨k, r', hr, hkn, hkl, hpos, p + k, hat'⟩
  · exact .inr ⟨r', hr, p, hat'⟩
  · cases he

end BodyArchive
