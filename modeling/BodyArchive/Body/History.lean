import BodyArchive.Body.Content

/-!
# From sink to image

Histories of a sink and of the images it becomes. `SinkRun s acc` is a sink after any sequence of
operations, and the bytes it has accepted: every buffer since the last `write_back` that failed.
`Handles im hs` are the handles on an image, after any sequence of `clone`, `gather` and
`mem_map` calls on any of them. Whatever the two histories, the handles deliver what the sink
accepted.
-/

namespace BodyArchive

/-! ## Histories of a sink -/

/-- An operation of a sink. The file writes of `push` and `write_all` succeed; how the directory
and the writes of a `write_back` behave is part of the operation. -/
inductive SinkOp where
  | push (buf : Bytes)
  | writeAll (buf : Bytes)
  | writeBack (dir : TempDir) (writes : List OpResult)

namespace SinkOp

def run : SinkOp → Prog BodySink BodyError Unit
  | .push buf => Prog.mapErr .io (BodySink.push .done buf)
  | .writeAll buf => Prog.mapErr .io (BodySink.writeAll .done buf)
  | .writeBack dir writes => BodySink.writeBack dir writes

/-- What the sink has accepted, after an operation that ended in `r`. -/
def accepted (op : SinkOp) (r : Res BodyError Unit) (acc : Bytes) : Bytes :=
  match op, r with
  | .push buf, .ok () => acc ++ buf
  | .writeAll buf, .ok () => acc ++ buf
  | .writeBack _ _, .ok () => acc
  | .writeBack _ _, _ => []
  | _, _ => acc

/-- The operations a caller can lose bytes by. -/
def isWriteBack : SinkOp → Bool
  | .writeBack _ _ => true
  | _ => false

end SinkOp

/-- A sink and what it has accepted, after any sequence of operations on a new one. -/
inductive SinkRun : BodySink → Bytes → Prop
  | empty : SinkRun BodySink.empty []
  | withRam (n : Nat) : SinkRun (BodySink.withRam n) []
  | withRamBuffers (n : Nat) : SinkRun (BodySink.withRamBuffers n) []
  | withFs {dir : TempDir} {s : BodySink} (h : BodySink.withFs dir = .ok s) : SinkRun s []
  | step {s s' : BodySink} {acc : Bytes} (run : SinkRun s acc) (op : SinkOp)
      {r : Res BodyError Unit} (h : op.run s = (r, s')) : SinkRun s' (op.accepted r acc)

/-- One operation on a sound sink. Only a `write_back` fails, and it leaves an empty `Ram`. -/
theorem SinkOp.run_sound {s : BodySink} (h : s.Sound) (op : SinkOp) :
    (∃ s', op.run s = (.ok (), s') ∧ s'.Sound ∧ s'.held = op.accepted (.ok ()) s.held) ∨
      (op.isWriteBack = true ∧ ∃ e, op.run s = (.err e, ⟨.ram [], 0⟩)) := by
  cases op with
  | push buf =>
    obtain ⟨s', hp, hs, hheld, -⟩ := BodySink.push_done h buf
    exact .inl ⟨s', Prog.mapErr_of_ok hp, hs, hheld⟩
  | writeAll buf =>
    obtain ⟨s', hp, hs, hheld, -⟩ := BodySink.push_done h buf
    rw [← BodySink.writeAll_eq_push] at hp
    exact .inl ⟨s', Prog.mapErr_of_ok hp, hs, hheld⟩
  | writeBack dir writes =>
    rcases BodySink.writeBack_cases h dir writes with ⟨s', hw, hs, hheld, -⟩ | ⟨e, hw⟩
    · exact .inl ⟨s', hw, hs, hheld⟩
    · exact .inr ⟨rfl, .io e, hw⟩

/-- **Any history of a sink** leaves it sound, and holding what it has accepted. -/
theorem SinkRun.sound {s : BodySink} {acc : Bytes} (h : SinkRun s acc) :
    s.Sound ∧ s.held = acc := by
  induction h with
  | empty => exact ⟨BodySink.sound_ram_nil, rfl⟩
  | withRam n =>
    rw [BodySink.withRam_eq]
    exact ⟨BodySink.sound_ram_nil, rfl⟩
  | withRamBuffers n => exact ⟨BodySink.sound_ram_nil, rfl⟩
  | withFs h => exact BodySink.sound_withFs h
  | step run op h ih =>
    obtain ⟨hs, rfl⟩ := ih
    rcases op.run_sound hs with ⟨s', hok, hs', hheld⟩ | ⟨hback, e, herr⟩
    · rw [hok] at h
      cases h
      exact ⟨hs', hheld⟩
    · rw [herr] at h
      cases h
      cases op with
      | push buf => cases hback
      | writeAll buf => cases hback
      | writeBack dir writes => exact ⟨BodySink.sound_ram_nil, rfl⟩

/-! ## Histories of an image -/

/-- The handles on an image: the first, and those cloned from it, after any calls on them. -/
inductive Handles (im : BodyImage) : List BodyImage → Prop
  | start : Handles im [im]
  | clone {hs : List BodyImage} {h : BodyImage} (run : Handles im hs) (mem : h ∈ hs) :
      Handles im (hs ++ [h])
  | gather {before rest : List BodyImage} {h h' : BodyImage} {r : Res BodyError Unit}
      (run : Handles im (before ++ h :: rest)) (call : BodyImage.gather h = (r, h')) :
      Handles im (before ++ h' :: rest)
  | memMap {before rest : List BodyImage} {h h' : BodyImage} {r : Res BodyError Unit}
      {sys : MapSys} (run : Handles im (before ++ h :: rest)) (lawful : sys.Lawful)
      (call : BodyImage.memMap sys h = (r, h')) : Handles im (before ++ h' :: rest)

theorem mem_replaced {α : Type} {a b x : α} {before rest : List α}
    (h : x ∈ before ++ b :: rest) : x = b ∨ x ∈ before ++ a :: rest := by
  rcases List.mem_append.mp h with h | h
  · exact .inr (List.mem_append_left _ h)
  · rcases List.mem_cons.mp h with rfl | h
    · exact .inl rfl
    · exact .inr (List.mem_append_right _ (List.mem_cons_of_mem _ h))

/-- **Any history of an image** leaves every handle backed by the same bytes. -/
theorem Handles.backs {im : BodyImage} {bs : Bytes} (him : im.Backs bs) {hs : List BodyImage}
    (run : Handles im hs) : ∀ h ∈ hs, h.Backs bs := by
  induction run with
  | start =>
    intro h hmem
    rw [List.mem_singleton.mp hmem]
    exact him
  | clone run mem ih =>
    intro h hmem
    rcases List.mem_append.mp hmem with hmem | hmem
    · exact ih h hmem
    · rw [List.mem_singleton.mp hmem]
      exact ih _ mem
  | gather run call ih =>
    obtain ⟨h₁, hg, hb⟩ := (ih _ List.mem_append_cons_self).gather
    rw [call] at hg
    cases hg
    intro h hmem
    rcases mem_replaced hmem with rfl | hmem
    · exact hb
    · exact ih h hmem
  | memMap run lawful call ih =>
    have hold := ih _ List.mem_append_cons_self
    intro h hmem
    rcases mem_replaced hmem with rfl | hmem
    · rcases hold.memMap lawful with ⟨h₁, hm, hb⟩ | ⟨e, hm⟩ <;> rw [call] at hm <;> cases hm
      · exact hb
      · exact hold
    · exact ih h hmem

/-- **Sink to image.** After any history of a sink its length is that of the bytes held, which
are the accepted ones; a failing `write_back` leaves an empty `Ram`, and nothing panics. Preparing
it gives an image of that length, all of whose handles, after any calls on them, deliver exactly
the accepted bytes on every access path, with no assertion failing. -/
theorem sink_run_delivers {s : BodySink} {acc : Bytes} (run : SinkRun s acc) :
    s.len = s.held.length ∧ s.held = acc ∧
    (∀ op : SinkOp, (op.run s).1.Safe) ∧
    (∀ dir writes e s', BodySink.writeBack dir writes s = (.err e, s') → s' = ⟨.ram [], 0⟩) ∧
    (∃ im, s.prepare none = .ok im) ∧
    ∀ fault im, s.prepare fault = .ok im → im.len = s.len ∧
      ∀ hs, Handles im hs → ∀ h ∈ hs, h.Delivers acc ∧ (BodyImage.gather h).1.Safe ∧
        ∀ sys : MapSys, sys.Lawful → (BodyImage.memMap sys h).1.Safe := by
  obtain ⟨hs, rfl⟩ := run.sound
  refine ⟨hs.len_eq, rfl, fun op => ?_, fun dir writes e s' hw => ?_, BodyImage.prepare_ok s,
    fun fault im hp => ?_⟩
  · rcases op.run_sound hs with ⟨s', hok, -⟩ | ⟨-, e, herr⟩
    · rw [hok]
      trivial
    · rw [herr]
      trivial
  · rcases BodySink.writeBack_cases hs dir writes with ⟨s₁, hok, -⟩ | ⟨e₁, herr⟩
    · rw [hok] at hw
      cases hw
    · rw [herr] at hw
      cases hw
      rfl
  · obtain ⟨hbacks, hlen⟩ := BodyImage.prepare_backs hs hp
    refine ⟨hlen, fun handles hrun h hmem => ?_⟩
    have hb := hrun.backs hbacks h hmem
    obtain ⟨h₁, hg, -⟩ := hb.gather
    refine ⟨hb.delivers, by rw [hg]; trivial, fun sys hsys => ?_⟩
    rcases hb.memMap hsys with ⟨h₂, hm, -⟩ | ⟨e, hm⟩ <;> rw [hm] <;> trivial

/-- A sink whose first buffer is lost to a failing `write_back`. -/
def lossySink : BodySink := ⟨.fsWrite (File.quiet [2, 3, 4]), 3⟩

theorem lossySink_run : SinkRun lossySink [2, 3, 4] :=
  SinkRun.empty
    |>.step (.push [1]) rfl
    |>.step (.writeBack (.error (.other 28)) []) rfl
    |>.step (.push [2, 3]) rfl
    |>.step (.push []) rfl
    |>.step (.writeBack (.ok ⟨[], File.quiet_own []⟩) []) rfl
    |>.step (.writeAll [4]) rfl

/-- Its image, and a clone of it that is mapped. -/
def lossyImage : BodyImage := ⟨.fsRead (File.quiet [2, 3, 4]), 3⟩

def lossyMapped : BodyImage := ⟨.memMap [2, 3, 4], 3⟩

theorem lossyImage_handles : Handles lossyImage [lossyImage, lossyMapped] := by
  have hcloned : Handles lossyImage ([lossyImage] ++ lossyImage :: []) :=
    .clone .start (List.mem_singleton.mpr rfl)
  exact .memMap hcloned MapSys.plain_lawful rfl

theorem lossySink_delivers : lossySink.prepare none = .ok lossyImage ∧
    lossyImage.Delivers [2, 3, 4] ∧ lossyMapped.Delivers [2, 3, 4] := by
  obtain ⟨-, -, -, -, -, h⟩ := sink_run_delivers lossySink_run
  obtain ⟨-, h⟩ := h none lossyImage rfl
  exact ⟨rfl, (h _ lossyImage_handles _ (by simp)).1, (h _ lossyImage_handles _ (by simp)).1⟩

end BodyArchive
