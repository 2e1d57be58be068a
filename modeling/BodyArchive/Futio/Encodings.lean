import BodyArchive.Futio.Decode

/-!
# The encodings that headers name

What `find_encodings` picks of the two headers (`find_encodings_picks`), and what becomes of a dialog
that is decoded twice: what to take off is decided from the headers, and they still name it after it
has been taken off (`decode_twice`).
-/

namespace BodyArchive

/-! ## The outermost coding -/

section Picks

variable (dec : Decoders)

/-- The compressions that a header names, in the order of the header. -/
def compressionsNamed (raw : List HeaderValue) : List Encoding :=
  match dec.parseHeader raw with
  | .ok encs => encs.filterMap HyEncoding.known
  | .error _ => []

variable {dec}

theorem compressionsOf_eq (raw : List HeaderValue) :
    compressionsOf dec raw = (compressionsNamed dec raw).reverse := by
  unfold compressionsOf codings compressionsNamed
  cases dec.parseHeader raw with
  | error e =>
    dsimp only
    split <;> rfl
  | ok encs =>
    dsimp only
    rw [Option.getD_some, filterMap_codings, List.filterMap_reverse]

/-- Whatever is named is a compression. -/
theorem known_compression {c : HyEncoding} {e : Encoding} (h : c.known = some e) :
    e ∈ [Encoding.deflate, .gzip, .brotli, .compress] := by
  cases c with
  | ext s =>
    unfold HyEncoding.known at h
    simp only at h
    split at h
    · cases h
      decide
    · cases h
  | _ => cases h <;> decide

theorem named_compression {raw : List HeaderValue} {e : Encoding}
    (h : e ∈ compressionsNamed dec raw) : e ∈ [Encoding.deflate, .gzip, .brotli, .compress] := by
  unfold compressionsNamed at h
  split at h
  · obtain ⟨c, -, hc⟩ := List.mem_filterMap.mp h
    exact known_compression hc
  · cases h

/-- **What `find_encodings` picks.** For any two headers: `Chunked` first, exactly if `find_chunked`
finds it, and then the last compression that the transfer encoding names, or else the last one that the
content encoding names, or else nothing, if neither names one. -/
theorem find_encodings_picks (dec : Decoders) (headers : HeaderMap) :
    ∃ c : Option Encoding,
      findEncodings dec headers =
        (if findChunked dec headers then [.chunked] else []) ++ c.toList ∧
      c = (compressionsNamed dec (headers.getAll transferEncoding)).getLast?.or
        (compressionsNamed dec (headers.getAll contentEncoding)).getLast? ∧
      (∀ e, c = some e → e ∈ [Encoding.deflate, .gzip, .brotli, .compress]) ∧
      (c = none ↔ compressionsNamed dec (headers.getAll transferEncoding) = [] ∧
        compressionsNamed dec (headers.getAll contentEncoding) = []) := by
  refine ⟨_, ?_, rfl, ?_, ?_⟩
  · have hhead : ∀ es : List Encoding, es.take 1 = es.head?.toList := by
      intro es
      cases es <;> rfl
    rw [findEncodings_eq, compressions, compressionsOf_eq, compressionsOf_eq, hhead,
      List.head?_append, List.head?_reverse, List.head?_reverse]
  · intro e he
    cases hte : (compressionsNamed dec (headers.getAll transferEncoding)).getLast? with
    | some e' =>
      rw [hte, Option.some_or] at he
      cases he
      exact named_compression (List.mem_of_getLast? hte)
    | none =>
      rw [hte, Option.none_or] at he
      exact named_compression (List.mem_of_getLast? he)
  · rw [Option.or_eq_none_iff, List.getLast?_eq_none_iff, List.getLast?_eq_none_iff]

end Picks

/-! ## Decoding twice -/

section Twice

variable {dec : Decoders} {http : HttpTypes} (tune : Tunables)

/-- **A second decoding** of a dialog. If the first one found nothing to take off, the second one does
not either, and leaves the dialog as it is. If a compression was taken off the body, the second one
takes it off again: the result is `Ok(true)` with what the decoded body decodes to, and the same mark,
or an error that leaves the dialog as it is, but never `Ok(false)`. -/
theorem decode_twice (hdec : dec.Lawful) {dialog dialog' : Dialog http} {bs : Bytes}
    (hb : dialog.epi.resBody.Backs bs) {b : Bool}
    (h : decodeResBody dec tune dialog = (.ok b, dialog')) :
    (b = false → decodeResBody dec tune dialog' = (.ok false, dialog')) ∧
    (b = true → ∃ e out, dec.decode e bs = some out ∧ dialog'.epi.resBody.Backs out ∧
      ((∃ out' dialog'', dec.decode e out = some out' ∧
          decodeResBody dec tune dialog' = (.ok true, dialog'') ∧
          dialog''.epi.resBody.Backs out' ∧
          dialog''.epi.resDecoded = dialog'.epi.resDecoded) ∨
        ∃ err, decodeResBody dec tune dialog' = (.err err, dialog'))) := by
  cases hhead : (compressions dec dialog.epi.resHeaders).head? with
  | none =>
    rw [decodeResBody_none tune hhead] at h
    cases h
    -- The headers are as they were, and so is what they name.
    refine ⟨fun _ => decodeResBody_none tune hhead, ?_⟩
    intro hb
    cases hb
  | some e =>
    rcases hfirst : decompress dec tune dialog.epi.resBody e with im | err | msg
    · rw [decodeResBody_ok tune hhead hfirst] at h
      cases h
      refine ⟨?_, fun _ => ?_⟩
      · intro hb
        cases hb
      obtain ⟨-, out, hout, him⟩ := decompress_ok tune hdec hb hfirst
      refine ⟨e, out, hout, him, ?_⟩
      rcases hsecond : decompress dec tune im e with im' | err | msg
      · obtain ⟨-, out', hout', him'⟩ := decompress_ok tune hdec him hsecond
        exact .inl ⟨out', _, hout', decodeResBody_ok tune hhead hsecond, him', rfl⟩
      · exact .inr ⟨err, decodeResBody_err tune hhead hsecond⟩
      · exact absurd hsecond (decompress_no_panic tune)
    · rw [decodeResBody_err tune hhead hfirst] at h
      cases h
    · exact absurd hfirst (decompress_no_panic tune)

end Twice

/-- **An already decoded dialog is decompressed again**: both calls return `Ok(true)`, and each takes
a byte off the body. -/
theorem decoded_again :
    (decodeResBody Sample.stripDecoders (.new Tunables.calmDir)
      (Sample.encodedDialog Sample.gzip [1, 2, 3])).1 = .ok true ∧
    (decodeResBody Sample.stripDecoders (.new Tunables.calmDir)
      (Sample.encodedDialog Sample.gzip [1, 2, 3])).2.epi.resBody = .fromSlice [2, 3] ∧
    (decodeResBody Sample.stripDecoders (.new Tunables.calmDir)
      (decodeResBody Sample.stripDecoders (.new Tunables.calmDir)
        (Sample.encodedDialog Sample.gzip [1, 2, 3])).2).1 = .ok true ∧
    (decodeResBody Sample.stripDecoders (.new Tunables.calmDir)
      (decodeResBody Sample.stripDecoders (.new Tunables.calmDir)
        (Sample.encodedDialog Sample.gzip [1, 2, 3])).2).2.epi.resBody = .fromSlice [3] :=
  ⟨by decide +kernel, by decide +kernel, by decide +kernel, by decide +kernel⟩

/-- Two dialogs decoded twice: one of a body whose coding is not known, and one of a body that is
decoded each time. -/
theorem both_decoded_twice :
    decodeResBody Sample.stripDecoders (.new Tunables.calmDir)
      (decodeResBody Sample.stripDecoders (.new Tunables.calmDir)
        (Sample.encodedDialog Sample.zstd [1, 2, 3])).2 =
      (.ok false, (decodeResBody Sample.stripDecoders (.new Tunables.calmDir)
        (Sample.encodedDialog Sample.zstd [1, 2, 3])).2) ∧
    ∃ out out' dialog'', Sample.strip [1, 2, 3] = some out ∧ Sample.strip out = some out' ∧
      decodeResBody Sample.stripDecoders (.new Tunables.calmDir)
        (decodeResBody Sample.stripDecoders (.new Tunables.calmDir)
          (Sample.encodedDialog Sample.gzip [1, 2, 3])).2 = (.ok true, dialog'') ∧
      dialog''.epi.resBody.Backs out' := by
  have hbody (v : HeaderValue) : (Sample.encodedDialog v [1, 2, 3]).epi.resBody.Backs [1, 2, 3] :=
    BodyImage.fromSlice_backs [1, 2, 3]
  have hplain : (decodeResBody Sample.stripDecoders (.new Tunables.calmDir)
      (Sample.encodedDialog Sample.zstd [1, 2, 3])).1 = .ok false := by decide +kernel
  have hcoded : (decodeResBody Sample.stripDecoders (.new Tunables.calmDir)
      (Sample.encodedDialog Sample.gzip [1, 2, 3])).1 = .ok true := by decide +kernel
  have hagain : (decodeResBody Sample.stripDecoders (.new Tunables.calmDir)
      (decodeResBody Sample.stripDecoders (.new Tunables.calmDir)
        (Sample.encodedDialog Sample.gzip [1, 2, 3])).2).1 = .ok true := by decide +kernel
  refine ⟨(decode_twice (.new Tunables.calmDir) Sample.stripDecoders_lawful (hbody _)
    (Prod.ext hplain rfl)).1 rfl, ?_⟩
  rcases hfirst : decodeResBody Sample.stripDecoders (.new Tunables.calmDir)
    (Sample.encodedDialog Sample.gzip [1, 2, 3]) with ⟨x, first⟩
  rw [hfirst] at hcoded hagain
  cases hcoded
  obtain ⟨e, out, hout, -, ⟨out', dialog'', hout', hsecond, hback, -⟩ | ⟨err, herr⟩⟩ :=
    (decode_twice (.new Tunables.calmDir) Sample.stripDecoders_lawful (hbody _) hfirst).2 rfl
  · exact ⟨out, out', dialog'', hout, hout', hsecond, hback⟩
  · rw [herr] at hagain
    cases hagain

end BodyArchive
