import BodyArchive.Io.Read

/-!
# Streams

A byte stream behind a reader whose deliveries are given as a script. It stands for any reader
that is not a file: the output of a decoder, the body of a message. A script may hold anything
a reader can do, so a property proved for every `Stream` is a property of every run of every
`Read`; a stream with a fair script is a `Source`.
-/

namespace BodyArchive

/-- The bytes left, the error they end in, if any, and how the coming calls go. -/
structure Stream where
  bytes : Bytes
  fault : Option IoError
  script : List Delivery
  deriving DecidableEq, Repr

namespace Stream

/-- A call after the last byte: the fault, once, or the end of the stream. -/
def atEnd (s : Stream) : Except IoError Bytes × Stream :=
  match s.fault with
  | none => (.ok [], s)
  | some e => (.error e, { s with fault := none })

/-- A call that goes as `d` says. -/
def readAs (s : Stream) (d : Delivery) (n : Nat) : Except IoError Bytes × Stream :=
  match d.deliver n s.bytes with
  | .ok [] => if s.bytes = [] ∧ 0 < n then s.atEnd else (.ok [], s)
  | .ok bs => (.ok bs, { s with bytes := s.bytes.drop bs.length })
  | .error e => (.error e, s)

/-- A call takes the next delivery of the script; a script that has run out delivers in full. -/
def read (s : Stream) (n : Nat) : Except IoError Bytes × Stream :=
  match s.script with
  | [] => s.readAs .full n
  | d :: ds => { s with script := ds }.readAs d n

def fuel (s : Stream) : Nat :=
  s.script.length + s.bytes.length + if s.fault.isSome then 1 else 0

theorem deliver_length {d : Delivery} {n : Nat} {avail bs : Bytes}
    (h : d.deliver n avail = .ok bs) : bs.length ≤ n ∧ bs.length ≤ avail.length := by
  cases d <;> simp only [Delivery.deliver, Except.ok.injEq, reduceCtorEq] at h
  all_goals
    subst h
    rw [List.length_take]
    omega

/-- What a call can be: nothing at the end or out of turn, some bytes, or an error, which
either is the delivery's or uses up the fault. -/
theorem readAs_cases {s s' : Stream} {d : Delivery} {n : Nat} {x : Except IoError Bytes}
    (h : s.readAs d n = (x, s')) :
    (x = .ok [] ∧ s' = s) ∨
    (∃ bs, x = .ok bs ∧ bs ≠ [] ∧ bs.length ≤ n ∧ bs.length ≤ s.bytes.length ∧
      s' = { s with bytes := s.bytes.drop bs.length }) ∨
    (∃ e, x = .error e ∧ ((d.deliver n s.bytes = .error e ∧ s' = s) ∨
      (s.fault = some e ∧ s' = { s with fault := none }))) := by
  rw [readAs] at h
  split at h
  · split at h
    · rw [atEnd] at h
      split at h
      · cases h
        exact .inl ⟨rfl, rfl⟩
      · next e he =>
        cases h
        exact .inr (.inr ⟨e, rfl, .inr ⟨he, rfl⟩⟩)
    · cases h
      exact .inl ⟨rfl, rfl⟩
  · next bs hne hbs =>
    cases h
    obtain ⟨h₁, h₂⟩ := deliver_length hbs
    exact .inr (.inl ⟨bs, rfl, hne, h₁, h₂, rfl⟩)
  · next e he =>
    cases h
    exact .inr (.inr ⟨e, rfl, .inl ⟨he, rfl⟩⟩)

/-- A call that returned bytes, or an error of the stream's own, has used some fuel. -/
theorem readAs_fuel_le {s s' : Stream} {d : Delivery} {n : Nat} {x : Except IoError Bytes}
    (h : s.readAs d n = (x, s')) : s'.fuel ≤ s.fuel := by
  rcases readAs_cases h with ⟨-, rfl⟩ | ⟨bs, -, -, -, -, rfl⟩ | ⟨e, -, ⟨-, rfl⟩ | ⟨-, rfl⟩⟩
  · exact Nat.le_refl _
  · simp only [fuel, List.length_drop]; omega
  · exact Nat.le_refl _
  · simp [fuel]

instance : Read Stream where
  read := read
  fuel := fuel
  read_length := by
    intro s n bs s' h
    rw [read] at h
    split at h <;>
      rcases readAs_cases h with ⟨hx, -⟩ | ⟨bs', hx, -, hn, -, -⟩ | ⟨e, hx, -⟩ <;> cases hx
    · exact Nat.zero_le _
    · exact hn
    · exact Nat.zero_le _
    · exact hn
  fuel_le := by
    intro s n x s' h
    rw [read] at h
    split at h
    · exact readAs_fuel_le h
    · next d ds hs =>
      have := readAs_fuel_le h
      simp only [fuel, hs, List.length_cons] at *
      omega
  fuel_bytes := by
    intro s n bs s' h hne
    rw [read] at h
    split at h
    · rcases readAs_cases h with ⟨hx, -⟩ | ⟨bs', hx, hne', -, hl, rfl⟩ | ⟨e, hx, -⟩ <;> cases hx
      · exact absurd rfl hne
      · have := List.length_pos_iff.mpr hne
        simp only [fuel, List.length_drop]; omega
    · next d ds hs =>
      have := readAs_fuel_le h
      simp only [fuel, hs, List.length_cons] at *
      omega
  fuel_interrupted := by
    intro s n s' h
    rw [read] at h
    split at h
    · rcases readAs_cases h with ⟨hx, -⟩ | ⟨bs', hx, -⟩ | ⟨e, hx, ⟨hd, -⟩ | ⟨hf, rfl⟩⟩ <;>
        cases hx
      · cases hd
      · simp [fuel, hf]
    · next d ds hs =>
      have := readAs_fuel_le h
      simp only [fuel, hs, List.length_cons] at *
      omega

@[simp] theorem read_def (s : Stream) (n : Nat) : Read.read s n = s.read n := rfl

/-- The tail a fault stands for. -/
def tail (s : Stream) : Tail :=
  match s.fault with
  | none => .eof
  | some e => .failed e

/-- A stream holding `bs` and ending in `t`, whose calls are all fair. A stream does not know
its own position, so it stands at any. -/
def AtRest (s : Stream) (bs : Bytes) (t : Tail) : Prop :=
  s.bytes = bs ∧ s.tail = t ∧ t ≠ .failed .interrupted ∧ ∀ d ∈ s.script, d.Fair

theorem readAs_step {s : Stream} {d : Delivery} (hd : d.Fair) {n p : Nat} {bs : Bytes} {t : Tail}
    (h : s.AtRest bs t) (hn : 0 < n) :
    ReadStep (fun s n => s.readAs d n) (fun s _ bs t => s.AtRest bs t) s n p bs t := by
  obtain ⟨rfl, rfl, hint, hfair⟩ := h
  rcases hd.deliver hn s.bytes with hx | ⟨k, hx, hkn, hkl, hpos⟩
  · exact .inr (.inl ⟨s, by simp only [readAs, hx], rfl, rfl, hint, hfair⟩)
  · by_cases hb : s.bytes = []
    · rw [hb, List.take_nil] at hx
      cases hf : s.fault with
      | none =>
        refine .inl ⟨0, s, ?_, by omega, by omega, fun h => absurd hb h, fun _ => ?_, rfl, rfl, hint,
          hfair⟩
        · simp only [readAs, hb, hx, hn, and_self, if_true, atEnd, hf, List.take_nil]
        · rw [tail, hf]
      | some e =>
        refine .inr (.inr ⟨hb, e, { s with fault := none }, ?_, ?_, ?_⟩)
        · rw [tail, hf]
        · rintro rfl
          rw [tail, hf] at hint
          exact hint rfl
        · simp only [readAs, hb, hx, hn, and_self, if_true, atEnd, hf]
    · have hk := hpos hb
      have hlk : (s.bytes.take k).length = k := by rw [List.length_take]; omega
      refine .inl ⟨k, { s with bytes := s.bytes.drop k }, ?_, hkn, hkl, hpos, fun h => absurd h hb,
        rfl, rfl, hint, hfair⟩
      cases hc : s.bytes.take k with
      | nil => rw [hc] at hlk; simp at hlk; omega
      | cons b rest =>
        rw [hc] at hlk hx
        simp only [readAs, hx, hlk]

instance : Source Stream where
  Rest s _ bs t := s.AtRest bs t
  step := by
    intro s n p bs t h hn _
    obtain ⟨hb, ht, hint, hfair⟩ := h
    cases hs : s.script with
    | nil =>
      have hread : Read.read s n = s.readAs .full n := by rw [read_def, read, hs]
      have := readAs_step (s := s) (d := .full) trivial (p := p) ⟨hb, ht, hint, hfair⟩ hn
      simpa only [ReadStep, hread] using this
    | cons d ds =>
      have hread : Read.read s n = ({ s with script := ds } : Stream).readAs d n := by
        rw [read_def, read, hs]
      rw [hs] at hfair
      have := readAs_step (s := { s with script := ds }) (hfair d (by simp)) (p := p)
        ⟨hb, ht, hint, fun d' hd' => hfair d' (by simp [hd'])⟩ hn
      simpa only [ReadStep, hread] using this

theorem rest_iff {s : Stream} {p : Nat} {bs : Bytes} {t : Tail} :
    Rest s p bs t ↔ s.AtRest bs t := Iff.rfl

end Stream

end BodyArchive
