import BodyArchive.Body.Content

/-!
# Appends that fail

A write to the file of a sink may fail after some of its bytes. The sink's length then stays as it
was, but nothing takes the bytes out of the file again, and what is appended later comes after
them. The length is that of the accepted buffers in any run; the content is, exactly when the
failed calls have put no byte in the file (`appends_deliver_iff`).
-/

namespace BodyArchive

/-- A call of `push` or of `write_all`, and how its file write goes. -/
structure AppendCall where
  isPush : Bool
  io : OpResult
  buf : Bytes
  deriving DecidableEq, Repr

namespace AppendCall

def run (c : AppendCall) : Prog BodySink IoError Unit :=
  if c.isPush then BodySink.push c.io c.buf else BodySink.writeAll c.io c.buf

/-- The two calls do the same to a sink. -/
theorem run_eq_push (c : AppendCall) : c.run = BodySink.push c.io c.buf := by
  unfold run
  split
  · rfl
  · exact BodySink.writeAll_eq_push _ _

/-- The bytes that a call leaves in the file when it fails. -/
def stray (c : AppendCall) : Bytes :=
  match c.io with
  | .done => []
  | .failed k _ => c.buf.take k

end AppendCall

namespace BodySink

/-! ## One call -/

/-- Whether a result is `Ok`. -/
def isOk (x : Res IoError Unit) : Bool :=
  match x with
  | .ok () => true
  | _ => false

/-- The bytes a call is accepted with: the buffer, when it returns `Ok`. -/
def took (s : BodySink) (c : AppendCall) : Bytes := if isOk (c.run s).1 then c.buf else []

/-- The bytes it leaves in the sink. -/
def left (s : BodySink) (c : AppendCall) : Bytes := if isOk (c.run s).1 then c.buf else c.stray

/-- What a call on a sink comes to: the buffer is accepted, or the file write has failed. -/
theorem append_cases (s : BodySink) (c : AppendCall) :
    (isOk (c.run s).1 = true ∧ (s.isRam = false → c.stray = []) ∧
      (c.run s).2.isRam = s.isRam ∧ (c.run s).2.len = s.len + c.buf.length ∧
      (c.run s).2.held = s.held ++ c.buf) ∨
    (isOk (c.run s).1 = false ∧ s.isRam = false ∧ (c.run s).2.isRam = s.isRam ∧
      (c.run s).2.len = s.len ∧ (c.run s).2.held = s.held ++ c.stray) := by
  rw [c.run_eq_push]
  obtain ⟨state, len⟩ := s
  by_cases hb : 0 < c.buf.length
  · cases state with
    | ram v =>
      have hrun : push c.io c.buf ⟨.ram v, len⟩ =
          (.ok (), ⟨.ram (v ++ [c.buf]), len + c.buf.length⟩) := if_pos hb
      rw [hrun]
      refine .inl ⟨rfl, fun h => (by cases h), rfl, rfl, ?_⟩
      simp [held]
    | fsWrite f =>
      cases hio : c.io with
      | done =>
        have hrun : push .done c.buf ⟨.fsWrite f, len⟩ =
            (.ok (), ⟨.fsWrite (f.extend c.buf), len + c.buf.length⟩) := if_pos hb
        rw [hrun]
        exact .inl ⟨rfl, fun _ => by rw [AppendCall.stray, hio], rfl, rfl, rfl⟩
      | failed k e =>
        have hrun : push (.failed k e) c.buf ⟨.fsWrite f, len⟩ =
            (.err e, ⟨.fsWrite (f.extend (c.buf.take k)), len⟩) := if_pos hb
        rw [hrun]
        exact .inr ⟨rfl, rfl, rfl, rfl, by rw [AppendCall.stray, hio]; rfl⟩
  · have hnil : c.buf = [] := List.eq_nil_of_length_eq_zero (by omega)
    have hrun : push c.io c.buf ⟨state, len⟩ = (.ok (), ⟨state, len⟩) := by
      cases state <;> exact if_neg hb
    have hstray : c.stray = [] := by
      unfold AppendCall.stray
      split
      · rfl
      · rw [hnil, List.take_nil]
    rw [hrun, hnil]
    exact .inl ⟨rfl, fun _ => hstray, rfl, rfl, (List.append_nil _).symm⟩

/-- One call adds what it took to the length, and what it left to the content. -/
theorem append_eq (s : BodySink) (c : AppendCall) :
    (c.run s).2.isRam = s.isRam ∧ (c.run s).2.len = s.len + (s.took c).length ∧
      (c.run s).2.held = s.held ++ s.left c := by
  unfold took left
  rcases s.append_cases c with ⟨hok, -, hram, hlen, hheld⟩ | ⟨herr, -, hram, hlen, hheld⟩
  · rw [hok]
    exact ⟨hram, hlen, hheld⟩
  · rw [herr]
    exact ⟨hram, hlen, hheld⟩

/-- The two differ by the stray bytes of a file write. -/
theorem left_eq (s : BodySink) (c : AppendCall) :
    (s.left c).length = (s.took c).length + (if s.isRam then 0 else c.stray.length) ∧
      (c.stray = [] ∨ s.isRam = true → s.left c = s.took c) := by
  unfold took left
  rcases s.append_cases c with ⟨hok, hstray, -⟩ | ⟨herr, hfs, -⟩
  · rw [hok]
    refine ⟨?_, fun _ => rfl⟩
    cases hram : s.isRam with
    | true => rfl
    | false =>
      rw [hstray hram]
      rfl
  · rw [herr, hfs]
    refine ⟨?_, fun h => ?_⟩
    · simp
    · rcases h with h | h
      · exact h
      · cases h

/-- A sink whose buffers are not empty, and whose file is its own. -/
def Formed (s : BodySink) : Prop :=
  (∀ v, s.state = .ram v → ∀ b ∈ v, b ≠ []) ∧ ∀ f, s.state = .fsWrite f → f.Own

theorem append_formed {s : BodySink} (h : s.Formed) (c : AppendCall) : (c.run s).2.Formed := by
  rw [c.run_eq_push]
  obtain ⟨state, len⟩ := s
  obtain ⟨hne, hown⟩ := h
  unfold push
  by_cases hb : 0 < c.buf.length
  · cases state with
    | ram v =>
      simp only [if_pos hb]
      refine ⟨fun w hw => ?_, fun f hf => (by cases hf)⟩
      cases hw
      intro b hmem
      rcases List.mem_append.mp hmem with hv | hv
      · exact hne v rfl b hv
      · rw [List.mem_singleton.mp hv]
        exact List.ne_nil_of_length_pos hb
    | fsWrite f =>
      have hf := hown f rfl
      simp only [if_pos hb]
      cases c.io with
      | done =>
        refine ⟨fun w hw => (by cases hw), fun g hg => ?_⟩
        cases hg
        exact extend_own hf _
      | failed k e =>
        refine ⟨fun w hw => (by cases hw), fun g hg => ?_⟩
        cases hg
        exact extend_own hf _
  · cases state <;> simp only [if_neg hb] <;> exact ⟨hne, hown⟩

/-! ## A run -/

/-- The sink after some calls, whatever they returned. -/
def appendAll (s : BodySink) (cs : List AppendCall) : BodySink :=
  cs.foldl (fun s c => (c.run s).2) s

/-- The buffers of the calls that returned `Ok`. -/
def accepted (s : BodySink) : List AppendCall → Bytes
  | [] => []
  | c :: cs => s.took c ++ accepted (c.run s).2 cs

/-- What the calls put into the sink: those buffers, and what the failed calls have left. -/
def landed (s : BodySink) : List AppendCall → Bytes
  | [] => []
  | c :: cs => s.left c ++ landed (c.run s).2 cs

/-- No failed call puts a byte in the file. -/
def Clean (s : BodySink) (cs : List AppendCall) : Prop :=
  s.isRam = true ∨ ∀ c ∈ cs, c.stray = []

/-- A run counts what it accepts and holds what has landed. -/
theorem appendAll_eq (s : BodySink) (cs : List AppendCall) :
    (s.appendAll cs).isRam = s.isRam ∧ (s.appendAll cs).len = s.len + (accepted s cs).length ∧
      (s.appendAll cs).held = s.held ++ landed s cs := by
  induction cs generalizing s with
  | nil => exact ⟨rfl, rfl, (List.append_nil _).symm⟩
  | cons c cs ih =>
    obtain ⟨hram, hlen, hheld⟩ := ih (c.run s).2
    obtain ⟨hram', hlen', hheld'⟩ := s.append_eq c
    rw [hlen', Nat.add_assoc, ← List.length_append] at hlen
    rw [hheld', List.append_assoc] at hheld
    exact ⟨hram.trans hram', hlen, hheld⟩

theorem appendAll_formed {s : BodySink} (h : s.Formed) (cs : List AppendCall) :
    (s.appendAll cs).Formed := by
  induction cs generalizing s with
  | nil => exact h
  | cons c cs ih => exact ih (append_formed h c)

/-- **What has landed is what was accepted** when no failed call put a byte in the file, and more
otherwise. -/
theorem landed_of_clean {s : BodySink} {cs : List AppendCall} (h : s.Clean cs) :
    landed s cs = accepted s cs := by
  induction cs generalizing s with
  | nil => rfl
  | cons c cs ih =>
    have htail : (c.run s).2.Clean cs := by
      rcases h with h | h
      · exact .inl ((s.append_eq c).1.trans h)
      · exact .inr fun c' hc' => h c' (List.mem_cons_of_mem _ hc')
    have hhead : c.stray = [] ∨ s.isRam = true := by
      rcases h with h | h
      · exact .inr h
      · exact .inl (h c List.mem_cons_self)
    rw [landed, accepted, (s.left_eq c).2 hhead, ih htail]

theorem accepted_le_landed (s : BodySink) (cs : List AppendCall) :
    (accepted s cs).length ≤ (landed s cs).length := by
  induction cs generalizing s with
  | nil => exact Nat.le_refl _
  | cons c cs ih =>
    have hhead := (s.left_eq c).1
    have htail := ih (c.run s).2
    rw [landed, accepted, List.length_append, List.length_append]
    omega

theorem clean_of_length {s : BodySink} {cs : List AppendCall}
    (h : (landed s cs).length = (accepted s cs).length) : s.Clean cs := by
  cases hram : s.isRam with
  | true => exact .inl hram
  | false =>
    right
    induction cs generalizing s with
    | nil =>
      intro c hc
      cases hc
    | cons c cs ih =>
      have hhead := (s.left_eq c).1
      have htail := accepted_le_landed (c.run s).2 cs
      rw [landed, accepted, List.length_append, List.length_append] at h
      rw [hram] at hhead
      simp only [Bool.false_eq_true, if_false] at hhead
      intro c' hc'
      rcases List.mem_cons.mp hc' with rfl | hc'
      · exact List.eq_nil_of_length_eq_zero (by omega)
      · exact ih (by omega) ((s.append_eq c).1.trans hram) c' hc'

end BodySink

namespace BodyImage

/-- All access paths of an image give exactly some bytes, before it is mapped and after. -/
def DeliversAll (im : BodyImage) (bs : Bytes) : Prop :=
  im.Delivers bs ∧ ∀ sys : MapSys, sys.Lawful → ∀ im', memMap sys im = (.ok (), im') →
    im'.Delivers bs

theorem Backs.deliversAll {im : BodyImage} {bs : Bytes} (h : im.Backs bs) :
    im.DeliversAll bs := by
  refine ⟨h.delivers, fun sys hsys im' hmap => ?_⟩
  rcases h.memMap hsys with ⟨im₁, hm, hb⟩ | ⟨e, hm⟩
  · rw [hmap] at hm
    cases hm
    exact hb.delivers
  · rw [hmap] at hm
    cases hm

end BodyImage

/-- What a file is written out as is all that is in it, whatever the recorded length. -/
theorem BodyImage.writeTo_file {f : File} (h : f.Own) (len : Nat) :
    BodyImage.writeTo (⟨.fsRead f, len⟩ : BodyImage) ([] : Bytes) = (.ok len, f.content) := by
  have hrest : Rest (⟨f, 0⟩ : ReadPos) 0 f.content .eof := ReadPos.rest_own h 0
  obtain ⟨r', w', hc, hw'⟩ := copy_eof (accepts_vec []) hrest (show ([] : Bytes) = [] ++ [] from rfl)
  have hw : w' = f.content := hw'
  rw [hw] at hc
  have hstate : (BodyImage.writeState (.fsRead f) : Prog Bytes BodyError Unit) [] =
      (.ok (), f.content) := by
    rw [BodyImage.writeState, Prog.bind_of_ok (Prog.mapErr_of_ok (Prog.withLocal_of hc))]
    rfl
  rw [BodyImage.writeTo, Prog.bind_of_ok hstate]
  rfl

/-- **Appends that fail.** After any calls on a sink its length is that of what it held and
of the buffers accepted since; and the image it prepares delivers exactly these, if and only if no
failed call has put a byte in the file, or there is nothing to deliver. -/
theorem appends_deliver_iff {s : BodySink} (hs : s.Sound) (cs : List AppendCall) :
    (s.appendAll cs).len = (s.held ++ s.accepted cs).length ∧
    (∃ im, (s.appendAll cs).prepare none = .ok im) ∧
    ∀ fault im, (s.appendAll cs).prepare fault = .ok im →
      im.len = (s.held ++ s.accepted cs).length ∧
      (im.DeliversAll (s.held ++ s.accepted cs) ↔
        s.Clean cs ∨ s.held ++ s.accepted cs = []) := by
  obtain ⟨hram, hlen, hheld⟩ := s.appendAll_eq cs
  obtain ⟨hne, hown⟩ := BodySink.appendAll_formed ⟨hs.bufs_ne_nil, hs.file_own⟩ cs
  rw [hs.len_eq, ← List.length_append] at hlen
  refine ⟨hlen, BodyImage.prepare_ok _, fun fault im hp => ?_⟩
  refine ⟨(BodyImage.prepare_len hp).trans hlen, fun h => ?_, fun h => ?_⟩
  · -- Written out, the file must be what was accepted.
    by_cases hnil : s.held ++ s.accepted cs = []
    · exact .inr hnil
    left
    cases hs' : (s.appendAll cs).state with
    | ram v =>
      left
      rw [← hram]
      unfold BodySink.isRam
      rw [hs']
    | fsWrite f =>
      have hpos := List.length_pos_iff.mpr hnil
      have him : im = ⟨.fsRead f, (s.appendAll cs).len⟩ := by
        unfold BodySink.prepare at hp
        rw [hs'] at hp
        simp only [if_neg (show ¬ (s.appendAll cs).len = 0 by omega)] at hp
        cases fault with
        | none =>
          cases hp
          rfl
        | some e => cases hp
      have hfile := BodyImage.writeTo_file (hown f hs') (s.appendAll cs).len
      obtain ⟨out, hout, hgot⟩ := h.1.writeTo (accepts_vec []) [] [] rfl
      rw [him, hfile] at hout
      have hcontent : f.content = s.held ++ s.landed cs := by
        rw [← hheld]
        unfold BodySink.held
        rw [hs']
      apply BodySink.clean_of_length
      have hsame : s.held ++ s.landed cs = s.held ++ s.accepted cs := by
        cases hout
        rw [← hcontent]
        exact hgot
      have hlength := congrArg List.length hsame
      rw [List.length_append, List.length_append] at hlength
      omega
  · have hclean (hc : s.Clean cs) : im.DeliversAll (s.held ++ s.accepted cs) := by
      rw [BodySink.landed_of_clean hc] at hheld
      rw [← hheld] at hlen ⊢
      exact (BodyImage.prepare_backs ⟨hlen, hne, hown⟩ hp).1.deliversAll
    rcases h with h | hnil
    · exact hclean h
    · cases hs' : (s.appendAll cs).state with
      | ram v =>
        apply hclean
        left
        rw [← hram]
        unfold BodySink.isRam
        rw [hs']
      | fsWrite f =>
        -- A file that nothing was accepted to becomes the empty image.
        have him : im = .empty := by
          unfold BodySink.prepare at hp
          rw [hs'] at hp
          simp only [if_pos (show (s.appendAll cs).len = 0 by rw [hlen, hnil]; rfl)] at hp
          cases hp
          rfl
        rw [him, hnil]
        have hback : BodyImage.empty.Backs [] := ⟨rfl, rfl, by simp⟩
        exact hback.deliversAll

/-- A file that one byte of a failed call is put in. -/
def strayCalls : List AppendCall :=
  [⟨true, .done, [1]⟩, ⟨false, .failed 1 (.other 28), [2, 3]⟩, ⟨true, .done, [4]⟩]

def fileSink : BodySink := ⟨.fsWrite (File.quiet []), 0⟩

theorem fileSink_sound : fileSink.Sound :=
  ⟨rfl, fun v hv => (by cases hv), fun f hf => (by cases hf; exact File.quiet_own [])⟩

/-- The image is of two bytes, but the reader gives the stray one as the second. -/
theorem stray_delivered : fileSink.accepted strayCalls = [1, 4] ∧
    (fileSink.appendAll strayCalls).prepare none = .ok ⟨.fsRead (File.quiet [1, 2, 4]), 2⟩ ∧
    (readToEnd 8 (BodyImage.reader ⟨.fsRead (File.quiet [1, 2, 4]), 2⟩)).1 = .ok [1, 2] ∧
    BodyImage.writeTo (⟨.fsRead (File.quiet [1, 2, 4]), 2⟩ : BodyImage) ([] : Bytes) =
      (.ok 2, [1, 2, 4]) :=
  ⟨rfl, rfl, rfl, rfl⟩

/-- Calls that fail before their first byte. -/
theorem clean_delivered :
    ∃ im, (fileSink.appendAll [⟨true, .done, [1]⟩, ⟨false, .failed 0 (.other 28), [2, 3]⟩,
      ⟨true, .done, [4]⟩]).prepare none = .ok im ∧ im.DeliversAll [1, 4] := by
  obtain ⟨-, ⟨im, him⟩, h⟩ := appends_deliver_iff fileSink_sound
    [⟨true, .done, [1]⟩, ⟨false, .failed 0 (.other 28), [2, 3]⟩, ⟨true, .done, [4]⟩]
  exact ⟨im, him, (h none im him).2.mpr (.inl (.inr (by decide)))⟩

end BodyArchive
