import BodyArchive.Body.Phases
import BodyArchive.Io.Stream

/-!
# `max_body`, whatever the reader does

The file part of `read_from` counts from 0, so a body that goes to a file can be longer than
`max_body`: `max_body_kept_iff` says when, by the answers of the reader alone, that is by what they
deliver and where the zero-length reads are. The phases only serve to prove it.
-/

namespace BodyArchive

namespace BodyImage

section Agreement

variable {tune : Tunables}

/-! ## The file part -/

/-- No zero-length read ends the file part when the bytes before the file and those since are
together more than `max_body`. -/
def Within (tune : Tunables) (ph : Phase) (xs : List Answer) : Prop :=
  ∀ ys zs before since, xs = ys ++ .ok [] :: zs → ph.run tune ys = .file before since →
    before + since ≤ tune.maxBody

theorem within_nil (ph : Phase) : Within tune ph [] := by
  intro ys zs before since h
  cases ys <;> cases h

theorem within_cons {ph : Phase} {x : Answer} {xs : List Answer} :
    Within tune ph (x :: xs) ↔
      (∀ before since, x = .ok [] → ph = .file before since → before + since ≤ tune.maxBody) ∧
        Within tune (ph.next tune x) xs := by
  constructor
  · intro h
    refine ⟨fun before since hx hph => ?_, fun ys zs before since hxs hrun => ?_⟩
    · exact h [] xs before since (by rw [hx]; rfl) hph
    · exact h (x :: ys) zs before since (by rw [hxs]; rfl) hrun
  · intro h ys zs before since hxs hrun
    obtain ⟨hhead, htail⟩ := h
    cases ys with
    | nil =>
      cases hxs
      exact hhead before since rfl hrun
    | cons y ys =>
      cases hxs
      exact htail ys zs before since rfl hrun

/-- The last call: an image of a file has the length of all that was counted. -/
theorem step_done {p : Point} {ph : Phase} (h : Agrees tune p ph) {x : Answer}
    {r : Res BodyError BodyImage} (going : p.isDone = false) (hdone : p.step tune x = .done r) :
    (∀ im, r = .ok im → im.len ≤ tune.maxBody) ↔
      ∀ before since, x = .ok [] → ph = .file before since → before + since ≤ tune.maxBody := by
  cases p with
  | done r => cases going
  | filling body size buf =>
    cases ph with
    | ended => exact h.elim
    | file before since => exact h.elim
    | memory sink buffered =>
      obtain ⟨-, hlen, -, -, hle, -⟩ := h
      refine ⟨fun _ before since _ hph => (by cases hph), fun _ im hr => ?_⟩
      subst hr
      have hprepare : body.prepare none = .ok im := by
        rw [step_ok rfl hdone] at hdone
        exact (filled_ok hdone).2
      have := tune.ram_le_max
      rw [prepare_len hprepare, hlen]
      omega
  | writing body size =>
    cases ph with
    | ended => exact h.elim
    | memory sink buffered => exact h.elim
    | file before since =>
      obtain ⟨-, hlen, -⟩ := h
      rcases x with e | bs
      · refine ⟨fun _ _ _ hx => (by cases hx), fun _ im hr => ?_⟩
        subst hr
        cases e <;> cases hdone
      · cases bs with
        | nil =>
          cases hdone
          obtain ⟨im, him⟩ := prepare_ok body
          rw [him]
          constructor
          · intro hall before' since' _ hph
            cases hph
            rw [← hlen, ← prepare_len him]
            exact hall im rfl
          · intro hall im' hr
            cases hr
            rw [prepare_len him, hlen]
            exact hall before since rfl rfl
        | cons b bs =>
          refine ⟨fun _ _ _ hx => (by cases hx), fun _ im hr => ?_⟩
          subst hr
          cases step_ok rfl hdone

/-- A zero-length read ends the file part. -/
theorem file_ends {p : Point} {ph : Phase} (h : Agrees tune p ph) (going : p.isDone = false)
    {x : Answer} {before since : Nat} (hx : x = .ok []) (hph : ph = .file before since)
    (hnext : (p.step tune x).isDone = false) : False := by
  subst hx hph
  cases p with
  | done r => cases going
  | filling body size buf => exact h
  | writing body size => cases hnext

/-- A whole run, from a point that agrees with the counts. -/
theorem runs_within {R : Type} [Read R] {p q : Point} {ph : Phase} {r r' : R} {xs : List Answer}
    (hruns : Runs tune p r xs q r') (h : Agrees tune p ph) (going : p.isDone = false)
    {res : Res BodyError BodyImage} (hq : q = .done res) :
    (∀ im, res = .ok im → im.len ≤ tune.maxBody) ↔ Within tune ph xs := by
  induction hruns generalizing ph with
  | refl p r =>
    subst hq
    cases going
  | @step p q r r₁ r' x xs going' answer rest ih =>
    rw [within_cons]
    cases hstep : p.step tune x with
    | done res' =>
      -- This was the last call.
      rw [hstep] at rest
      cases rest with
      | step going' answer' rest' => cases going'
      | refl =>
        cases hq
        rw [step_done h going' hstep]
        exact ⟨fun hhead => ⟨hhead, within_nil _⟩, fun hall => hall.1⟩
    | filling body size buf =>
      rw [ih (step_agrees h x) (by rw [hstep]; rfl) hq]
      refine ⟨fun hrest => ⟨?_, hrest⟩, fun hall => hall.2⟩
      intro before since hx hph
      cases file_ends h going' hx hph (by rw [hstep]; rfl)
    | writing body size =>
      rw [ih (step_agrees h x) (by rw [hstep]; rfl) hq]
      refine ⟨fun hrest => ⟨?_, hrest⟩, fun hall => hall.2⟩
      intro before since hx hph
      cases file_ends h going' hx hph (by rw [hstep]; rfl)

/-- The same from a start, which may have failed. -/
theorem start_within {R : Type} [Read R] {p : Point} {ph : Phase} {r r' : R} {xs : List Answer}
    {res : Res BodyError BodyImage} (hruns : Runs tune p r xs (.done res) r')
    (h : p.isDone = false → Agrees tune p ph) (hstart : ∀ im, p ≠ .done (.ok im)) :
    (∀ im, res = .ok im → im.len ≤ tune.maxBody) ↔ Within tune ph xs := by
  cases hp : p.isDone with
  | false => exact runs_within hruns (h hp) hp rfl
  | true =>
    cases hruns with
    | step going answer rest =>
      rw [hp] at going
      cases going
    | refl =>
      exact ⟨fun _ => within_nil ph, fun _ im hr => absurd (by rw [hr]) (hstart im)⟩

theorem toFs_agrees {body : BodySink} (h : (Point.toFs body).isDone = false) :
    Agrees tune (Point.toFs body) (.file body.len 0) := by
  unfold Point.toFs at h ⊢
  cases hram : body.isRam with
  | true =>
    rw [hram] at h
    cases h
  | false => exact ⟨hram, rfl, rfl⟩

/-! ## On the answers alone -/

/-- The number of bytes that some calls have delivered. -/
def total (xs : List Answer) : Nat := (xs.map Answer.got).sum

@[simp] theorem total_nil : total [] = 0 := rfl

@[simp] theorem total_cons (x : Answer) (xs : List Answer) : total (x :: xs) = x.got + total xs :=
  List.sum_cons

@[simp] theorem total_append (xs ys : List Answer) : total (xs ++ ys) = total xs + total ys := by
  rw [total, List.map_append, List.sum_append]
  rfl

/-- The calls come to their end within `max_body`, but over it with the bytes that are there
before. -/
def OverrunsFile (tune : Tunables) (before : Nat) (xs : List Answer) : Prop :=
  ∃ ys, xs = ys ++ [.ok []] ∧ total ys ≤ tune.maxBody ∧ tune.maxBody < before + total ys

/-- The calls deliver more than `max_body_ram` bytes, though no more than `max_body`, and then
nothing, but that is not the end: more comes, and each part is within `max_body`, but not both. -/
def Overruns (tune : Tunables) (xs : List Answer) : Prop :=
  ∃ ys zs, xs = ys ++ .ok [] :: zs ∧ tune.maxBodyRam < total ys ∧ total ys ≤ tune.maxBody ∧
    OverrunsFile tune (total ys) zs

/-- Nothing comes after a zero-length read. -/
def EndsOnce (xs : List Answer) : Prop := ∀ ys zs, xs = ys ++ .ok [] :: zs → total zs = 0

theorem EndsOnce.not_overruns {xs : List Answer} (h : EndsOnce xs) : ¬ Overruns tune xs := by
  rintro ⟨ys, zs, hxs, -, hle, ws, rfl, -, hover⟩
  have hzero := h ys _ hxs
  rw [total_append] at hzero
  omega

/-- The file part counts what is delivered, as far as it goes on. -/
theorem run_file {before since : Nat} (hle : since ≤ tune.maxBody) (xs : List Answer) :
    Phase.run tune (.file before since) xs = .ended ∨ since + total xs ≤ tune.maxBody ∧
      Phase.run tune (.file before since) xs = .file before (since + total xs) := by
  induction xs generalizing since with
  | nil => exact .inr ⟨hle, rfl⟩
  | cons x xs ih =>
    rw [run_cons, total_cons]
    rcases x with e | bs
    · cases e <;> first | exact .inl (run_ended xs) | skip
      rw [Answer.got, Nat.zero_add]
      exact ih hle
    · cases bs with
      | nil => exact .inl (run_ended xs)
      | cons b bs =>
        simp only [Phase.next]
        split
        · exact .inl (run_ended xs)
        · rw [← Nat.add_assoc]
          exact ih (by omega)

/-- The file part, from its start. -/
theorem run_file_start (before : Nat) (xs : List Answer) :
    Phase.run tune (.file before 0) xs = .ended ∨ total xs ≤ tune.maxBody ∧
      Phase.run tune (.file before 0) xs = .file before (total xs) := by
  have := @run_file tune before 0 (Nat.zero_le _) xs
  rwa [Nat.zero_add] at this

/-- Where reading to memory stands after some calls, with `n` bytes before them: in memory still, or
in the file part, since a zero-length read with more than `max_body_ram` bytes before it. -/
def Stands (tune : Tunables) (n : Nat) (xs : List Answer) : Phase → Prop
  | .memory sink buffered => sink + buffered = n + total xs ∧ sink ≤ tune.maxBodyRam
  | .file before since => ∃ ys zs, xs = ys ++ .ok [] :: zs ∧ before = n + total ys ∧
      tune.maxBodyRam < before ∧ before ≤ tune.maxBody ∧ since = total zs ∧ since ≤ tune.maxBody
  | .ended => True

theorem Stands.cons {n : Nat} {x : Answer} {xs : List Answer} {ph : Phase}
    (h : Stands tune (n + x.got) xs ph) : Stands tune n (x :: xs) ph := by
  cases ph with
  | memory sink buffered =>
    obtain ⟨hsum, hle⟩ := h
    exact ⟨by rw [hsum, total_cons, Nat.add_assoc], hle⟩
  | file before since =>
    obtain ⟨ys, zs, rfl, hbefore, hrest⟩ := h
    exact ⟨x :: ys, zs, rfl, by rw [hbefore, total_cons, Nat.add_assoc], hrest⟩
  | ended => trivial

theorem run_memory {sink buffered : Nat} {xs : List Answer} (hle : sink ≤ tune.maxBodyRam)
    (hroom : sink + buffered + total xs ≤ isizeMax) :
    Stands tune (sink + buffered) xs (Phase.run tune (.memory sink buffered) xs) := by
  have husize : usizeMax = 2 ^ 64 - 1 := rfl
  have hisize : isizeMax = 2 ^ 63 - 1 := rfl
  induction xs generalizing sink buffered with
  | nil => exact ⟨rfl, hle⟩
  | cons x xs ih =>
    rw [total_cons] at hroom
    have hend : Stands tune (sink + buffered) (x :: xs) (Phase.run tune .ended xs) := by
      rw [run_ended]
      trivial
    have hon {s b : Nat} (hs : s ≤ tune.maxBodyRam) (hsum : s + b = sink + buffered + x.got) :
        Stands tune (sink + buffered) (x :: xs) (Phase.run tune (.memory s b) xs) := by
      have := ih hs (by omega : s + b + total xs ≤ isizeMax)
      rw [hsum] at this
      exact this.cons
    rw [run_cons]
    rcases x with e | bs
    · cases e <;> first | exact hend | exact hon hle rfl
    · cases bs with
      | nil =>
        simp only [Phase.next, Phase.close]
        split
        · exact hend
        split
        · exact hend
        split
        · next hshort hback =>
          cases tune.tempDir with
          | error e => exact hend
          | ok env =>
            -- The zero-length read is where the file part starts.
            show Stands tune (sink + buffered) _ (Phase.run tune (.file (sink + buffered) 0) xs)
            rcases @run_file_start tune (sink + buffered) xs with hph | ⟨hsince, hph⟩ <;> rw [hph]
            · trivial
            · exact ⟨[], xs, rfl, rfl, hback, by omega, rfl, hsince⟩
        · exact hon (by omega) rfl
      | cons b bs =>
        simp only [Answer.got] at hroom
        simp only [Phase.next]
        rw [if_neg (by omega)]
        exact hon hle (Nat.add_assoc _ _ _).symm

/-- A run goes on to its last call. -/
theorem runs_going {R : Type} [Read R] {p q : Point} {r r' : R} {xs : List Answer}
    (hruns : Runs tune p r xs q r') {ph : Phase} (h : Agrees tune p ph) {ys zs : List Answer}
    {y : Answer} (hxs : xs = ys ++ y :: zs) : ph.run tune ys ≠ .ended := by
  induction hruns generalizing ph ys with
  | refl p r => cases ys <;> cases hxs
  | @step p q r r₁ r' x xs going answer rest ih =>
    cases ys with
    | nil =>
      rintro rfl
      cases p with
      | done res => cases going
      | filling body size buf => exact h
      | writing body size => exact h
    | cons y' ys =>
      cases hxs
      exact ih (step_agrees h x) rfl

/-- A zero-length read after more than `max_body_ram` and at most `max_body` bytes goes on to a file
or ends reading. -/
theorem next_halt {sink buffered : Nat} (hback : tune.maxBodyRam < sink + buffered)
    (hle : sink + buffered ≤ tune.maxBody) :
    Phase.next tune (.memory sink buffered) (.ok []) = .ended ∨
      Phase.next tune (.memory sink buffered) (.ok []) = .file (sink + buffered) 0 := by
  simp only [Phase.next, Phase.close, if_pos hback, if_neg (Nat.not_lt.mpr hle)]
  split
  · exact .inl rfl
  · cases tune.tempDir with
    | error e => exact .inl rfl
    | ok env => exact .inr rfl

/-- In a run from memory, what ends the file part over `max_body` is seen in the answers. -/
theorem within_memory {xs : List Answer} (hroom : total xs ≤ isizeMax)
    (hgoing : ∀ ys y zs, xs = ys ++ y :: zs → Phase.run tune (.memory 0 0) ys ≠ .ended) :
    Within tune (.memory 0 0) xs ↔ ¬ Overruns tune xs := by
  have hstands {ys ws : List Answer} (hxs : xs = ys ++ ws) :
      Stands tune 0 ys (Phase.run tune (.memory 0 0) ys) := by
    refine @run_memory tune 0 0 ys (Nat.zero_le _) ?_
    rw [hxs, total_append] at hroom
    omega
  constructor
  · rintro h ⟨ys, ws, rfl, hback, hle, zs, rfl, hzs, hover⟩
    have hlast := hgoing (ys ++ .ok [] :: zs) (.ok []) [] (by simp)
    have hys := hstands rfl
    rw [run_append, run_cons] at hlast
    cases hph : Phase.run tune (.memory 0 0) ys with
    | ended =>
      rw [hph, next_ended, run_ended] at hlast
      exact hlast rfl
    | file before since =>
      rw [hph] at hlast
      exact hlast (run_ended zs)
    | memory sink buffered =>
      rw [hph] at hlast hys
      obtain ⟨hsum, hsink⟩ := hys
      rw [Nat.zero_add] at hsum
      rcases next_halt (hsum ▸ hback) (hsum ▸ hle) with hended | hfile
      · rw [hended] at hlast
        exact hlast (run_ended zs)
      · rw [hsum] at hfile
        rw [hfile] at hlast
        rcases @run_file_start tune (total ys) zs with hended | ⟨-, hph'⟩
        · exact hlast hended
        · have hwhole : Phase.run tune (.memory 0 0) (ys ++ .ok [] :: zs) =
              .file (total ys) (total zs) := by
            rw [run_append, run_cons, hph, hfile, hph']
          have := h (ys ++ .ok [] :: zs) [] _ _ (by simp) hwhole
          omega
  · intro h ys ws before since hxs hrun
    by_contra hover
    have hys := hstands hxs
    rw [hrun] at hys
    obtain ⟨as, zs, rfl, hbefore, hback, hle, rfl, hsince⟩ := hys
    rw [Nat.zero_add] at hbefore
    subst hbefore
    -- The zero-length read is the last call.
    cases ws with
    | cons w ws =>
      refine hgoing (as ++ .ok [] :: zs ++ [.ok []]) w ws (by simp [hxs]) ?_
      rw [run_append, hrun]
      rfl
    | nil =>
      exact h ⟨as, zs ++ [.ok []], by simp [hxs], hback, hle, zs, rfl, hsince, by omega⟩

theorem within_file {before : Nat} {xs : List Answer}
    (hgoing : ∀ ys y zs, xs = ys ++ y :: zs → Phase.run tune (.file before 0) ys ≠ .ended) :
    Within tune (.file before 0) xs ↔ ¬ OverrunsFile tune before xs := by
  constructor
  · rintro h ⟨ys, rfl, hle, hover⟩
    rcases @run_file_start tune before ys with hph | ⟨-, hph⟩
    · exact hgoing ys (.ok []) [] rfl hph
    · have := h ys [] before _ rfl hph
      omega
  · intro h ys ws before' since hxs hrun
    by_contra hover
    rcases @run_file_start tune before ys with hph | ⟨hle, hph⟩
    · cases hrun.symm.trans hph
    cases hrun.symm.trans hph
    cases ws with
    | cons w ws =>
      refine hgoing (ys ++ [.ok []]) w ws (by simp [hxs]) ?_
      rw [run_append, hrun]
      rfl
    | nil => exact h ⟨ys, hxs, hle, by omega⟩

/-- A run that starts in a file is within `max_body`. -/
theorem within_start_file {lenEstimate : Nat} (hest : tune.maxBodyRam < lenEstimate)
    (xs : List Answer) : Within tune (Phase.start tune lenEstimate) xs := by
  intro ys ws before since _ hrun
  rw [Phase.start, if_pos hest] at hrun
  cases hdir : tune.tempDir with
  | error e =>
    simp only [hdir, run_ended] at hrun
    cases hrun
  | ok env =>
    simp only [hdir] at hrun
    rcases @run_file_start tune 0 ys with hph | ⟨hle, hph⟩ <;> cases hrun.symm.trans hph
    omega

/-- **`max_body` is kept** by `read_from` exactly when the outcomes of the calls do not overrun it:
of a body that goes to a file in the middle, the part before and the part after are each within
`max_body`, but not both together. It is always kept when nothing comes after a zero-length read.
The same goes for `read_to_body_fs`, with what its sink holds as the part before. (It panics for a
sink that holds its bytes in memory.) What is read to memory is to be no more than a `Vec` can
hold. -/
theorem max_body_kept_iff {R : Type} [Read R] (tune : Tunables) (r : R) :
    (∀ lenEstimate, ∃ xs res r',
      Runs tune (Point.start tune lenEstimate) r xs (.done res) r' ∧
      readFrom tune lenEstimate r = (res, r') ∧
      (EndsOnce xs → total xs ≤ isizeMax → ∀ im, res = .ok im → im.len ≤ tune.maxBody) ∧
      (total xs ≤ isizeMax → ((∀ im, res = .ok im → im.len ≤ tune.maxBody) ↔
        (lenEstimate ≤ tune.maxBodyRam → ¬ Overruns tune xs)))) ∧
    (∀ body : BodySink, ∃ xs res r', Runs tune (Point.toFs body) r xs (.done res) r' ∧
      readToBodyFs tune body r = (res, r') ∧
      ((∀ im, res = .ok im → im.len ≤ tune.maxBody) ↔ ¬ OverrunsFile tune body.len xs)) := by
  constructor
  · intro lenEstimate
    obtain ⟨xs, hruns⟩ := readFrom_reaches (Reaches.refl tune (Point.start tune lenEstimate) r)
    have hwithin := start_within hruns (fun _ => start_agrees lenEstimate) (start_ne lenEstimate)
    have hiff (hroom : total xs ≤ isizeMax) : Within tune (Phase.start tune lenEstimate) xs ↔
        (lenEstimate ≤ tune.maxBodyRam → ¬ Overruns tune xs) := by
      by_cases hest : tune.maxBodyRam < lenEstimate
      · exact ⟨fun _ hle => by omega, fun _ => within_start_file hest xs⟩
      · have hstart : Phase.start tune lenEstimate = .memory 0 0 := by
          rw [Phase.start, if_neg hest]
        have hagrees := @start_agrees tune lenEstimate
        rw [hstart] at hagrees ⊢
        rw [within_memory hroom fun ys y zs hxs => runs_going hruns hagrees hxs]
        exact ⟨fun h _ => h, fun h => h (by omega)⟩
    refine ⟨xs, _, _, hruns, rfl, fun honce hroom => ?_, fun hroom => ?_⟩
    · exact hwithin.mpr ((hiff hroom).mpr fun _ => honce.not_overruns)
    · rw [hwithin, hiff hroom]
  · intro body
    obtain ⟨xs, hruns⟩ := readToBodyFs_reaches (Reaches.refl tune (Point.toFs body) r)
    refine ⟨xs, _, _, hruns, rfl, ?_⟩
    rw [start_within hruns toFs_agrees (toFs_ne body)]
    cases hdone : (Point.toFs body).isDone with
    | false => exact within_file fun ys y zs hxs => runs_going hruns (toFs_agrees hdone) hxs
    | true =>
      -- There was no call.
      obtain rfl := hruns.of_isDone hdone
      refine ⟨fun _ => ?_, fun _ => within_nil _⟩
      rintro ⟨ys, hxs, -⟩
      cases ys <;> cases hxs

end Agreement

/-- A reader that stops after one byte, and goes on with two more. -/
def haltingStream : Stream := ⟨[1, 2, 3], none, [.upTo 1, .upTo 0]⟩

/-- A sink that holds one byte in a file. -/
def byteSink : BodySink := ⟨.fsWrite (File.quiet [0]), 1⟩

/-- With a `max_body` of 2, three bytes are taken either way. -/
theorem max_body_passed :
    (∃ im r', readFrom (Tunables.sized 0 2 1 (by decide) (by decide)) 0 haltingStream =
      (.ok im, r') ∧ im.len = 3) ∧
    (∃ im r', readToBodyFs (Tunables.sized 0 2 1 (by decide) (by decide)) byteSink
      (⟨[1, 2], none, []⟩ : Stream) = (.ok im, r') ∧ im.len = 3) :=
  ⟨⟨_, _, rfl, rfl⟩, ⟨_, _, rfl, rfl⟩⟩

theorem haltingStream_runs : ∃ im r', Runs .fileOnly (.start .fileOnly 0) haltingStream
    [.ok [1], .ok [], .ok [2, 3], .ok []] (.done (.ok im)) r' :=
  ⟨_, _, .step rfl rfl (.step rfl rfl (.step rfl rfl (.step rfl rfl (.refl _ _))))⟩

/-- With a `max_body` of 4, all three bytes are taken, and rightly. -/
theorem haltingStream_kept : ∃ im r', readFrom .fileOnly 0 haltingStream = (.ok im, r') ∧
    im.len ≤ Tunables.fileOnly.maxBody := by
  obtain ⟨hfrom, -⟩ := max_body_kept_iff .fileOnly haltingStream
  obtain ⟨xs, res, r', hruns, hread, -, hiff⟩ := hfrom 0
  obtain ⟨im, r₁, hruns'⟩ := haltingStream_runs
  obtain ⟨rfl, rfl, -⟩ := hruns.unique hruns'
  refine ⟨im, r', hread, (hiff (by decide)).mpr (fun _ => ?_) im rfl⟩
  -- The two parts are no longer than all that comes.
  rintro ⟨ys, zs, hxs, -, -, ws, rfl, -, hover⟩
  have htotal : total ys + total ws = 3 := by
    have := congrArg total hxs
    simpa [Answer.got] using this.symm
  rw [htotal] at hover
  exact absurd hover (by decide)

end BodyImage

end BodyArchive
