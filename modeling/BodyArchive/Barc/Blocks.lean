import BodyArchive.Barc.RoundTrip

/-!
# Which header blocks can be read

`write_headers` limits a block by its bytes only; `read_headers` has room for 128 headers, and its
parser strips the blanks around a value. So the blocks that come back are those of few enough
headers with trimmed values, and `written_headers_read` says that these are all.
-/

namespace BodyArchive

/-- A value without the blanks around it. -/
def strip (bs : Bytes) : Bytes := ((bs.dropWhile isBlank).reverse.dropWhile isBlank).reverse

theorem strip_sublist (bs : Bytes) : (strip bs).Sublist bs := by
  have hfront := List.dropWhile_sublist isBlank (l := bs)
  have hback := (List.dropWhile_sublist isBlank (l := (bs.dropWhile isBlank).reverse)).reverse
  rw [List.reverse_reverse] at hback
  exact hback.trans hfront

def HeaderValue.strip (v : HeaderValue) : HeaderValue :=
  ⟨BodyArchive.strip v.bytes, fun b hb => v.valid b ((strip_sublist v.bytes).subset hb)⟩

/-- A list that nothing is dropped from starts with nothing to drop. -/
theorem head_of_dropWhile {α : Type} {p : α → Bool} {bs : List α} (h : bs.dropWhile p = bs) (b : α)
    (hb : bs.head? = some b) : p b = false := by
  cases bs with
  | nil => cases hb
  | cons c bs =>
    cases hb
    cases hp : p b with
    | false => rfl
    | true =>
      rw [List.dropWhile_cons_of_pos hp] at h
      have hle := (List.dropWhile_sublist p (l := bs)).length_le
      rw [h, List.length_cons] at hle
      omega

/-- The trimmed values are those that stripping leaves alone. -/
theorem trimmed_of_strip {v : HeaderValue} (h : BodyArchive.strip v.bytes = v.bytes) :
    v.Trimmed := by
  have hfront : v.bytes.dropWhile isBlank = v.bytes := by
    refine (List.dropWhile_sublist isBlank).eq_of_length_le ?_
    have hback := (List.dropWhile_sublist isBlank
      (l := (v.bytes.dropWhile isBlank).reverse)).length_le
    have hlen := congrArg List.length h
    rw [BodyArchive.strip, List.length_reverse] at hlen
    rw [List.length_reverse] at hback
    omega
  refine ⟨head_of_dropWhile hfront, fun b hb => ?_⟩
  rw [BodyArchive.strip, hfront, List.reverse_eq_iff] at h
  exact head_of_dropWhile h b (by rwa [List.head?_reverse])

/-- What `httparse` documents of the blocks that `write_headers` writes: the blanks around a value
are stripped, and more headers than there is room for are an error. -/
structure Crates.HeadersExact (cr : Crates) : Prop extends cr.HeadersLawful where
  parse_strip : ∀ headers : HeaderMap, headers ≠ .empty → headers.len ≤ maxHeaders →
    cr.parseHeaders (headerLines headers ++ crlf) maxHeaders =
      .complete (headerLines headers ++ crlf).length
        (headers.iter.map fun e => (e.1.bytes, e.2.strip.bytes))
  parse_full : ∀ headers : HeaderMap, maxHeaders < headers.len →
    ∃ code, cr.parseHeaders (headerLines headers ++ crlf) maxHeaders = .error code

variable {cr : Crates}

/-- Lengths that are none longer, and as long together, are the same. -/
theorem eq_of_sum_le {α : Type} {f g : α → Nat} {l : List α} (hle : ∀ a ∈ l, f a ≤ g a)
    (hsum : (l.map g).sum ≤ (l.map f).sum) : ∀ a ∈ l, f a = g a := by
  induction l with
  | nil => simp
  | cons a l ih =>
    have hrest : (l.map f).sum ≤ (l.map g).sum :=
      List.sum_le_sum fun b hb => hle b (List.mem_cons_of_mem a hb)
    have ha := hle a List.mem_cons_self
    rw [List.map_cons, List.map_cons, List.sum_cons, List.sum_cons] at hsum
    intro b hb
    rcases List.mem_cons.mp hb with rfl | hb
    · omega
    · exact ih (fun c hc => hle c (List.mem_cons_of_mem a hc)) (by omega) b hb

/-- A map that is built again from its own stripped values has trimmed ones. -/
theorem trimmed_of_ofList {headers : HeaderMap}
    (h : Multimap.ofList (headers.iter.map fun e => (e.1, e.2.strip)) = headers) :
    ∀ e ∈ headers.iter, e.2.Trimmed := by
  have hperm := Multimap.iter_ofList (headers.iter.map fun e => (e.1, e.2.strip))
  rw [h] at hperm
  have hsum := (hperm.map fun e => e.2.bytes.length).sum_eq
  rw [List.map_map] at hsum
  have hsame := eq_of_sum_le (f := fun e : HeaderName × HeaderValue => e.2.strip.bytes.length)
    (g := fun e => e.2.bytes.length) (fun e _ => (strip_sublist e.2.bytes).length_le)
    (Nat.le_of_eq hsum)
  intro e he
  exact trimmed_of_strip ((strip_sublist e.2.bytes).eq_of_length (hsame e he))

/-- The maps whose blocks are read as they are. -/
theorem parsesBack_iff (hcr : cr.HeadersExact) {headers : HeaderMap} :
    ParsesBack cr headers ↔ Parsable headers := by
  refine ⟨fun h => ?_, fun h => h.parsesBack hcr.toHeadersLawful⟩
  by_cases hempty : headers = .empty
  · rw [hempty]
    exact ⟨Nat.zero_le _, by simp [Multimap.empty, Multimap.iter]⟩
  rw [ParsesBack, reparse, if_neg (fun hnil => hempty (headerLines_eq_nil.mp hnil)), parseHeaders]
    at h
  by_cases hlen : headers.len ≤ maxHeaders
  · rw [hcr.parse_strip headers hempty hlen] at h
    simp only [if_true] at h
    have happend := appendHeaders_back cr hcr.toHeadersLawful
      (headers.iter.map fun e => (e.1, e.2.strip)) .empty
    rw [List.map_map] at happend
    rw [show (headers.iter.map fun e => (e.1.bytes, e.2.strip.bytes)) = headers.iter.map
      ((fun e : HeaderName × HeaderValue => (e.1.bytes, e.2.bytes)) ∘ fun e => (e.1, e.2.strip))
      from rfl, happend] at h
    exact ⟨hlen, trimmed_of_ofList (Res.ok.inj h)⟩
  · obtain ⟨code, hcode⟩ := hcr.parse_full headers (by omega)
    rw [hcode] at h
    cases h

/-- **Header blocks that were written** are read back exactly if they have at most 128 headers, with
no blanks around their values. -/
theorem written_headers_read (hcr : cr.HeadersExact) {withCrlf : Bool} {headers : HeaderMap}
    {n : Nat} {out : Bytes}
    (hw : writeHeaders withCrlf headers ([] : Bytes) = (.ok n, out)) {R : Type} [Source R] {r : R}
    {p : Nat} {z : Bytes} {t : Tail} (h : Rest r p (out ++ z) t) :
    (readHeaders cr withCrlf n r).1 = .ok headers ↔
      headers.len ≤ maxHeaders ∧ ∀ e ∈ headers.iter, e.2.Trimmed := by
  have hout : n = (block withCrlf headers).length ∧ out = block withCrlf headers := by
    have hends := writeHeaders_accepts (accepts_vec []) (show ([] : Bytes) = [] ++ [] from rfl)
      withCrlf headers
    rw [hw] at hends
    rcases hends with ⟨-, a, w, hok, hn, hgot⟩ | ⟨-, msg, w, hpanic⟩
    · cases hok
      exact ⟨hn, by simpa using hgot⟩
    · cases hpanic
  obtain ⟨rfl, rfl⟩ := hout
  obtain ⟨r', hr, -⟩ := readHeaders_block cr h
  rw [hr]
  have hiff : ParsesBack cr headers ↔ Parsable headers := parsesBack_iff hcr
  exact hiff.trans ⟨fun h => ⟨h.len_le, h.trimmed⟩, fun h => ⟨h.1, h.2⟩⟩

/-! ## Samples -/

theorem sampleCrates_headersExact : sampleCrates.HeadersExact where
  toHeadersLawful := sampleCrates_headersLawful
  parse_strip headers _ hlen := by
    have hblock := Sample.parseLines_block headers.iter hlen 0 []
    rw [Nat.zero_add, List.nil_append] at hblock
    exact hblock
  parse_full headers hlen := ⟨5, Sample.parseLines_full headers.iter hlen 0 [] crlf⟩

/-- The block of `a: x`. -/
theorem sampleHeaders_read :
    (readHeaders sampleCrates true 8 (⟨File.quiet (ascii "a: x" ++ crlf ++ crlf), 0⟩ : ReadPos)).1 =
      .ok (.ofList [(Sample.name, Sample.value)]) :=
  (written_headers_read sampleCrates_headersExact
    (show writeHeaders true (.ofList [(Sample.name, Sample.value)]) ([] : Bytes) =
      (.ok 8, ascii "a: x" ++ crlf ++ crlf) by decide +kernel)
    (p := 0) (z := []) (t := .eof) (by
      rw [List.append_nil]
      exact ReadPos.rest_own (File.quiet_own _) 0)).mpr
    ⟨sampleContents_parsable.2.2.len_le, sampleContents_parsable.2.2.trimmed⟩

/-- **Two blocks that are written and not read**: of 129 headers, and of a value after a blank. -/
theorem blocks_not_read :
    let many : HeaderMap := .ofList (List.replicate 129 (Sample.name, Sample.value))
    let blank : HeaderMap := .ofList [(Sample.name, ⟨[32, 120], by decide +kernel⟩)]
    let written (m : HeaderMap) := (writeHeaders true m ([] : Bytes)).2
    (writeHeaders true many ([] : Bytes)).1 = .ok (129 * 6 + 2) ∧
    (readHeaders sampleCrates true (129 * 6 + 2) (⟨File.quiet (written many), 0⟩ : ReadPos)).1 =
      .err (.invalidHeader (.httparse 5)) ∧
    (writeHeaders true blank ([] : Bytes)).1 = .ok 9 ∧
    (readHeaders sampleCrates true 9 (⟨File.quiet (written blank), 0⟩ : ReadPos)).1 =
      .ok (.ofList [(Sample.name, Sample.value)]) := by
  refine ⟨?_, ?_, ?_, ?_⟩ <;> decide +kernel

end BodyArchive
