import BodyArchive.Body.Phases

/-!
# What reading a body takes in

In memory a fill only ends with a zero-length read, so nothing bounds a buffer of `read_from` but the
reader. `bounded_iff` says which readers do, by what they deliver and where they fail or deliver
nothing, for every endless sequence of answers.
-/

namespace BodyArchive

namespace BodyImage

section Endless

variable (tune : Tunables) (lenEstimate : Nat) (x : Nat → Answer)

/-- Where `read_from` stands after `n` answers. -/
def pointAt : Nat → Point
  | 0 => Point.start tune lenEstimate
  | n + 1 => (pointAt n).step tune (x n)

/-- The bytes in RAM when a call at a point is answered: the sink's, unless it is a file, the
buffer's, and those just read. -/
def ramHeld : Point → Answer → Nat
  | .filling body _ buf, a => body.held.length + buf.bytes.length + a.got
  | .writing _ _, a => a.got
  | .done _, _ => 0

/-- The bytes taken from the reader by the calls that have been made. -/
def taken : Nat → Nat
  | 0 => 0
  | n + 1 => taken n + if (pointAt tune lenEstimate x n).isDone then 0 else (x n).got

/-- The bytes in RAM that the limits promise. -/
def ramLimit : Nat := tune.maxBodyRam + max tune.bufferSizeRam 1024

/-- The bytes taken that they promise. -/
def takenLimit : Nat :=
  tune.maxBody + max tune.bufferSizeRam (max tune.bufferSizeFs 1024)

/-- `read_from` bounds what it takes in. -/
structure Bounded : Prop where
  ram : ∀ n, ramHeld (pointAt tune lenEstimate x n) (x n) ≤ ramLimit tune
  taken : ∀ n, taken tune lenEstimate x n ≤ takenLimit tune
  stops : tune.TempOk → (∀ n, 0 < (x n).got) →
    ∃ n len, pointAt tune lenEstimate x n = .done (.err (.bodyTooLong len))

/-- The bytes delivered by the first `n` answers. -/
def delivered : Nat → Nat
  | 0 => 0
  | n + 1 => delivered n + (x n).got

/-- Everything delivered before has been followed by a zero-length read. -/
def Idle (n : Nat) : Prop := ∀ k < n, 0 < (x k).got → ∃ j, k < j ∧ j < n ∧ x j = .ok []

/-- The call fails, and not with an interrupt. -/
def Fails (k : Nat) : Prop := ∃ e, x k = .error e ∧ e ≠ .interrupted

/-- The call is the last that reads to memory: it fails; or it delivers nothing, and nothing has
come since the zero-length read before it, or more than `max_body_ram` bytes since the start. -/
def Leaves (k : Nat) : Prop :=
  Fails x k ∨ x k = .ok [] ∧ (Idle x k ∨ tune.maxBodyRam < delivered x k)

/-- After this call the body goes to a file. -/
structure Handover (k : Nat) : Prop where
  first : ∀ i < k, ¬ Leaves tune x i
  halts : x k = .ok []
  beyond : tune.maxBodyRam < delivered x k
  within : delivered x k ≤ tune.maxBody
  temp : tune.TempOk

/-- The call is the last of the file part that started after the call `k`: it delivers nothing or
fails, or more than `max_body` bytes have come since. -/
def FileEnds (k j : Nat) : Prop :=
  x j = .ok [] ∨ Fails x j ∨ tune.maxBody < delivered x (j + 1) - delivered x k

/-- The reader stops in time. Before the call after which more than the limit for RAM has been
delivered, there is one that ends reading to memory; and when the body goes to a file, before a call
that alone delivers more than that limit, or after which more than the limit for a body has been
delivered, there is one that ends the file part. -/
structure InTime : Prop where
  memory : ∀ n, ramLimit tune < delivered x (n + 1) → ∃ k < n, Leaves tune x k
  file : ∀ k, Handover tune x k → ∀ n > k,
    ramLimit tune < (x n).got ∨ takenLimit tune < delivered x (n + 1) →
    ∃ j, k < j ∧ j < n ∧ FileEnds tune x k j

/-- What has been counted after `n` answers. -/
def phaseAt : Nat → Phase
  | 0 => .memory 0 0
  | n + 1 => (phaseAt n).next tune (x n)

/-- What the limits come to for the counts. -/
structure PhasesBounded : Prop where
  memory : ∀ n sink buffered, phaseAt tune x n = .memory sink buffered →
    delivered x (n + 1) ≤ ramLimit tune
  file : ∀ n before since, phaseAt tune x n = .file before since →
    (x n).got ≤ ramLimit tune ∧ delivered x (n + 1) ≤ takenLimit tune

variable {tune lenEstimate x}

/-- As long as calls are made, everything delivered has been counted. -/
def Counts : Phase → Nat → Prop
  | .memory sink buffered, n => sink + buffered = n
  | .file before since, n => before + since = n
  | .ended, _ => True

theorem close_counts (sink buffered : Nat) :
    Counts (Phase.close tune sink buffered) (sink + buffered) := by
  unfold Phase.close
  split
  · trivial
  · split
    · trivial
    · split
      · split
        · exact Nat.add_zero _
        · trivial
      · exact Nat.add_zero _

theorem next_counts {ph : Phase} {n : Nat} (h : Counts ph n) (a : Answer) :
    Counts (ph.next tune a) (n + a.got) := by
  cases ph with
  | ended => rcases a with e | bs <;> first | trivial | (cases e <;> trivial)
  | memory sink buffered =>
    have hn : sink + buffered = n := h
    subst hn
    rcases a with e | bs
    · cases e <;> trivial
    · cases bs with
      | nil => exact close_counts sink buffered
      | cons b bs =>
        simp only [Phase.next]
        rw [Nat.add_assoc]
        split
        · exact close_counts sink _
        · rfl
  | file before since =>
    have hn : before + since = n := h
    subst hn
    rcases a with e | bs
    · cases e <;> trivial
    · cases bs with
      | nil => trivial
      | cons b bs =>
        simp only [Phase.next]
        split
        · trivial
        · exact (Nat.add_assoc ..).symm

theorem phaseAt_counts (n : Nat) : Counts (phaseAt tune x n) (delivered x n) := by
  induction n with
  | zero => rfl
  | succ n ih => exact next_counts ih (x n)

/-- The machine keeps to the counts, call after call. -/
theorem pointAt_agrees (h : lenEstimate ≤ tune.maxBodyRam) (n : Nat) :
    Agrees tune (pointAt tune lenEstimate x n) (phaseAt tune x n) := by
  induction n with
  | zero =>
    have hstart := @start_agrees tune lenEstimate
    rw [Phase.start, if_neg (by omega)] at hstart
    exact hstart
  | succ n ih => exact step_agrees ih (x n)

/-- What the calls have taken is what was delivered, until the last one. -/
theorem taken_of_going (n : Nat)
    (going : (pointAt tune lenEstimate x n).isDone = false) :
    taken tune lenEstimate x n = delivered x n := by
  induction n with
  | zero => rfl
  | succ n ih =>
    have hbefore : (pointAt tune lenEstimate x n).isDone = false := by
      cases hp : pointAt tune lenEstimate x n with
      | done r =>
        rw [pointAt, hp] at going
        cases going
      | filling body size buf => rfl
      | writing body size => rfl
    rw [taken, delivered, ih hbefore, hbefore]
    rfl

theorem close_ended {sink buffered : Nat} (htemp : tune.TempOk) (hpos : 0 < buffered)
    (h : Phase.close tune sink buffered = .ended) : tune.maxBody < sink + buffered := by
  obtain ⟨env, henv⟩ := htemp
  unfold Phase.close at h
  rw [if_neg (by omega)] at h
  split at h
  · assumption
  · rw [henv] at h
    split at h <;> cases h

/-- A call that returns bytes is the last one only when they are too many. -/
theorem step_tooLong {p : Point} {ph : Phase} (h : Agrees tune p ph) (htemp : tune.TempOk)
    {a : Answer} (hgot : 0 < a.got) (going : p.isDone = false) {r : Res BodyError BodyImage}
    (hdone : p.step tune a = .done r) : ∃ len, r = .err (.bodyTooLong len) := by
  have hended := step_agrees h a
  rw [hdone] at hended
  rcases a with e | bs
  · cases hgot
  cases bs with
  | nil => cases hgot
  | cons b bs =>
  cases p with
  | done r' => cases going
  | filling body size buf =>
    cases ph with
    | ended => exact h.elim
    | file before since => exact h.elim
    | memory sink buffered =>
      obtain ⟨-, -, -, hsize, -, hbuf⟩ := h
      have hbytes : (buf.chunkMut.advanceMut (b :: bs)).bytes.length =
          buffered + (b :: bs).length := by
        rw [BytesMut.advanceMut_bytes, BytesMut.chunkMut_bytes, List.length_append, hbuf]
      have hpos : 0 < buffered + (b :: bs).length := by
        rw [List.length_cons]
        omega
      simp only [Point.step, Phase.next, BytesMut.remainingMut, hbytes] at hdone hended
      split at hdone
      · next hroom =>
        rw [if_pos hroom] at hended
        cases hclose : Phase.close tune sink (buffered + (b :: bs).length) with
        | memory sink' buffered' =>
          rw [hclose] at hended
          exact hended.elim
        | file before since =>
          rw [hclose] at hended
          exact hended.elim
        | ended =>
          have hlong := close_ended htemp hpos hclose
          rw [Point.filled, hbytes, if_neg (by omega)] at hdone
          simp only [hsize, if_pos hlong] at hdone
          cases hdone
          exact ⟨_, rfl⟩
      · cases hdone
  | writing body size =>
    cases ph with
    | ended => exact h.elim
    | memory sink buffered => exact h.elim
    | file before since =>
      obtain ⟨hfs, -, rfl⟩ := h
      simp only [Point.step] at hdone
      split at hdone
      · cases hdone
        exact ⟨_, rfl⟩
      · obtain ⟨b₁, hw, -⟩ := writeAll_fs (b :: bs) hfs
        rw [Prog.mapErr_of_ok hw] at hdone
        cases hdone

/-- An endless stream within a limit is stopped. -/
theorem endless_stops (hest : lenEstimate ≤ tune.maxBodyRam) (htemp : tune.TempOk)
    (hgot : ∀ n, 0 < (x n).got)
    (hlimit : ∀ n, taken tune lenEstimate x n ≤ takenLimit tune) :
    ∃ n len, pointAt tune lenEstimate x n = .done (.err (.bodyTooLong len)) := by
  have hdelivered (n : Nat) : n ≤ delivered x n := by
    induction n with
    | zero => exact Nat.zero_le _
    | succ n ih =>
      have := hgot n
      rw [delivered]
      omega
  have hends : ∃ n, (pointAt tune lenEstimate x n).isDone = true := by
    by_contra hnever
    have going : (pointAt tune lenEstimate x (takenLimit tune + 1)).isDone = false := by
      rw [← Bool.not_eq_true]
      exact fun hd => hnever ⟨_, hd⟩
    have hle := hlimit (takenLimit tune + 1)
    rw [taken_of_going _ going] at hle
    have := hdelivered (takenLimit tune + 1)
    omega
  -- The first point that is done comes after a call.
  obtain ⟨n, hdone, hfirst⟩ : ∃ n, (pointAt tune lenEstimate x n).isDone = true ∧
      ∀ m < n, (pointAt tune lenEstimate x m).isDone = false := by
    refine ⟨Nat.find hends, Nat.find_spec hends, fun m hm => ?_⟩
    rw [← Bool.not_eq_true]
    exact Nat.find_min hends hm
  cases n with
  | zero =>
    rw [pointAt, Point.start, if_neg (by omega)] at hdone
    cases hdone
  | succ n =>
    have going := hfirst n (Nat.lt_succ_self n)
    cases hp : pointAt tune lenEstimate x (n + 1) with
    | filling body size buf =>
      rw [hp] at hdone
      cases hdone
    | writing body size =>
      rw [hp] at hdone
      cases hdone
    | done r =>
      obtain ⟨len, hr⟩ := step_tooLong (pointAt_agrees hest n) htemp (hgot n) going hp
      exact ⟨n + 1, len, by rw [hp, hr]⟩

/-- What one call adds to RAM and to what was taken, at a point that agrees with the counts. -/
def CallHolds (p : Point) (a : Answer) (n : Nat) : Phase → Prop
  | .memory _ _ => p.isDone = false ∧ ramHeld p a = n + a.got
  | .file _ _ => p.isDone = false ∧ ramHeld p a = a.got
  | .ended => p.isDone = true ∧ ramHeld p a = 0

theorem call_holds {p : Point} {ph : Phase} (h : Agrees tune p ph) {n : Nat} (hn : Counts ph n)
    (a : Answer) : CallHolds p a n ph := by
  cases p with
  | done r =>
    cases ph with
    | ended => exact ⟨rfl, rfl⟩
    | memory sink buffered => exact h.elim
    | file before since => exact h.elim
  | filling body size buf =>
    cases ph with
    | ended => exact h.elim
    | file before since => exact h.elim
    | memory sink buffered =>
      obtain ⟨-, -, hheld, -, -, hbuf⟩ := h
      have hsum : sink + buffered = n := hn
      refine ⟨rfl, ?_⟩
      show body.held.length + buf.bytes.length + a.got = n + a.got
      rw [hheld, hbuf, hsum]
  | writing body size =>
    cases ph with
    | ended => exact h.elim
    | memory sink buffered => exact h.elim
    | file before since => exact ⟨rfl, rfl⟩

theorem ramLimit_le (tune : Tunables) : ramLimit tune ≤ takenLimit tune := by
  have := tune.ram_le_max
  unfold ramLimit takenLimit
  omega

/-- What is taken in is bounded exactly when what is counted is. -/
theorem bounded_iff_phases (hest : lenEstimate ≤ tune.maxBodyRam) :
    Bounded tune lenEstimate x ↔ PhasesBounded tune x := by
  have hcall (n : Nat) : CallHolds (pointAt tune lenEstimate x n) (x n) (delivered x n)
      (phaseAt tune x n) :=
    call_holds (pointAt_agrees hest n) (phaseAt_counts n) (x n)
  have hnext (n : Nat) (going : (pointAt tune lenEstimate x n).isDone = false) :
      taken tune lenEstimate x (n + 1) = delivered x (n + 1) := by
    rw [taken, delivered, taken_of_going n going, going]
    rfl
  constructor
  · intro h
    refine ⟨fun n sink buffered hph => ?_, fun n before since hph => ?_⟩
    · have hn := hcall n
      rw [hph] at hn
      rw [delivered, ← hn.2]
      exact h.ram n
    · have hn := hcall n
      rw [hph] at hn
      refine ⟨?_, ?_⟩
      · rw [← hn.2]
        exact h.ram n
      · rw [← hnext n hn.1]
        exact h.taken (n + 1)
  · intro h
    have hram (n : Nat) : ramHeld (pointAt tune lenEstimate x n) (x n) ≤ ramLimit tune := by
      have hn := hcall n
      cases hph : phaseAt tune x n with
      | memory sink buffered =>
        rw [hph] at hn
        rw [hn.2]
        exact h.memory n sink buffered hph
      | file before since =>
        rw [hph] at hn
        rw [hn.2]
        exact (h.file n before since hph).1
      | ended =>
        rw [hph] at hn
        rw [hn.2]
        exact Nat.zero_le _
    have htaken (n : Nat) : taken tune lenEstimate x n ≤ takenLimit tune := by
      induction n with
      | zero => exact Nat.zero_le _
      | succ n ih =>
        have hn := hcall n
        cases hph : phaseAt tune x n with
        | memory sink buffered =>
          rw [hph] at hn
          rw [hnext n hn.1]
          exact Nat.le_trans (h.memory n sink buffered hph) (ramLimit_le tune)
        | file before since =>
          rw [hph] at hn
          rw [hnext n hn.1]
          exact (h.file n before since hph).2
        | ended =>
          rw [hph] at hn
          rw [taken, hn.1]
          exact ih
    exact ⟨hram, htaken, fun htemp hgot => endless_stops hest htemp hgot htaken⟩

/-! ## On the answers alone -/

theorem idle_succ {n : Nat} : Idle x (n + 1) ↔ x n = .ok [] ∨ Idle x n ∧ (x n).got = 0 := by
  constructor
  · intro h
    by_cases hn : x n = .ok []
    · exact .inl hn
    refine .inr ⟨fun k hk hgot => ?_, ?_⟩
    · obtain ⟨j, hkj, hj, hxj⟩ := h k (by omega) hgot
      have hne : j ≠ n := by
        rintro rfl
        exact hn hxj
      exact ⟨j, hkj, by omega, hxj⟩
    · by_contra hgot
      obtain ⟨j, hkj, hj, -⟩ := h n (Nat.lt_succ_self n) (Nat.pos_of_ne_zero hgot)
      omega
  · rintro (hn | ⟨h, hgot⟩) k hk hpos
    · have hne : k ≠ n := by
        rintro rfl
        rw [hn] at hpos
        exact Nat.lt_irrefl 0 hpos
      exact ⟨n, by omega, Nat.lt_succ_self n, hn⟩
    · have hne : k ≠ n := by
        rintro rfl
        omega
      obtain ⟨j, hkj, hj, hxj⟩ := h k (by omega) hpos
      exact ⟨j, hkj, by omega, hxj⟩

/-- What has been delivered is followed by a zero-length read. -/
theorem Idle.exists_halt {k : Nat} (h : Idle x k) (hpos : 0 < delivered x k) :
    ∃ i < k, x i = .ok [] ∧ delivered x i = delivered x k := by
  induction k with
  | zero => exact absurd hpos (Nat.lt_irrefl 0)
  | succ k ih =>
    rcases idle_succ.mp h with hn | ⟨hidle, hgot⟩
    · exact ⟨k, Nat.lt_succ_self k, hn, by rw [delivered, hn]; rfl⟩
    · rw [delivered, hgot, Nat.add_zero] at hpos ⊢
      obtain ⟨i, hik, hxi⟩ := ih hidle hpos
      exact ⟨i, by omega, hxi⟩

theorem delivered_mono {m n : Nat} (h : m ≤ n) : delivered x m ≤ delivered x n := by
  induction n with
  | zero =>
    obtain rfl := Nat.le_zero.mp h
    exact Nat.le_refl _
  | succ n ih =>
    by_cases hm : m = n + 1
    · rw [hm]
    · have := ih (by omega)
      rw [delivered]
      omega

/-- Until a call ends it, reading to memory goes on. -/
theorem phaseAt_memory (hlimit : ramLimit tune ≤ isizeMax) {n : Nat}
    (hstay : ∀ i < n, ¬ Leaves tune x i) (hle : delivered x n ≤ ramLimit tune) :
    ∃ sink buffered, phaseAt tune x n = .memory sink buffered ∧ sink + buffered = delivered x n ∧
      sink ≤ tune.maxBodyRam ∧ (buffered = 0 ↔ Idle x n) := by
  have husize : usizeMax = 2 ^ 64 - 1 := rfl
  have hisize : isizeMax = 2 ^ 63 - 1 := rfl
  induction n with
  | zero =>
    exact ⟨0, 0, rfl, rfl, Nat.zero_le _, fun _ k hk => absurd hk (Nat.not_lt_zero k), fun _ => rfl⟩
  | succ n ih =>
    have hbefore : delivered x n ≤ ramLimit tune :=
      Nat.le_trans (delivered_mono (Nat.le_succ n)) hle
    obtain ⟨sink, buffered, hph, hsum, hsink, hidle⟩ := ih (fun i hi => hstay i (by omega)) hbefore
    have hnot := hstay n (Nat.lt_succ_self n)
    have hmax := tune.ram_le_max
    rw [phaseAt, hph, idle_succ]
    rw [delivered] at hle ⊢
    rcases hx : x n with e | bs
    · cases e with
      | interrupted =>
        refine ⟨sink, buffered, rfl, hsum, hsink, fun hz => .inr ⟨hidle.mp hz, rfl⟩, ?_⟩
        rintro (hnil | ⟨hi, -⟩)
        · cases hnil
        · exact hidle.mpr hi
      | _ => exact absurd (.inl ⟨_, hx, by simp⟩) hnot
    · cases bs with
      | nil =>
        -- More has come since the last zero-length read, and not too much for memory.
        have hbuf : buffered ≠ 0 := fun hz => hnot (.inr ⟨hx, .inl (hidle.mp hz)⟩)
        have hback : ¬ tune.maxBodyRam < delivered x n := fun hlt => hnot (.inr ⟨hx, .inr hlt⟩)
        refine ⟨sink + buffered, 0, ?_, hsum, by omega, fun _ => .inl rfl, fun _ => rfl⟩
        simp only [Phase.next, Phase.close, if_neg hbuf]
        rw [if_neg (by omega), if_neg (by omega)]
      | cons b bs =>
        rw [hx] at hle
        simp only [Answer.got] at hle ⊢
        refine ⟨sink, buffered + (b :: bs).length, ?_, by omega, hsink, fun hz => ?_, ?_⟩
        · simp only [Phase.next]
          rw [if_neg (by omega)]
        · rw [List.length_cons] at hz
          omega
        · rintro (hnil | ⟨-, hz⟩)
          · cases hnil
          · rw [List.length_cons] at hz
            omega

theorem fails_next {ph : Phase} {k : Nat} (h : Fails x k) : ph.next tune (x k) = .ended := by
  obtain ⟨e, hx, hint⟩ := h
  rw [hx]
  cases ph <;> cases e <;> first | rfl | exact absurd rfl hint

/-- The call that ends reading to memory hands over to a file, or is the last one. -/
theorem phaseAt_leaves (hlimit : ramLimit tune ≤ isizeMax) {k : Nat}
    (hfirst : ∀ i < k, ¬ Leaves tune x i) (hle : delivered x k ≤ ramLimit tune)
    (h : Leaves tune x k) :
    Handover tune x k ∧ phaseAt tune x (k + 1) = .file (delivered x k) 0 ∨
      ¬ Handover tune x k ∧ phaseAt tune x (k + 1) = .ended := by
  obtain ⟨sink, buffered, hph, hsum, -, hidle⟩ := phaseAt_memory hlimit hfirst hle
  rcases h with hfails | ⟨hx, hwhy⟩
  · refine .inr ⟨fun hover => ?_, fails_next hfails⟩
    obtain ⟨e, hx, -⟩ := hfails
    rw [hover.halts] at hx
    cases hx
  · rw [phaseAt, hph, hx]
    simp only [Phase.next, Phase.close, hsum]
    have hpos : tune.maxBodyRam < delivered x k → buffered ≠ 0 := by
      rintro hback rfl
      -- The zero-length read before would have ended it.
      obtain ⟨i, hik, hxi, hdi⟩ := (hidle.mp rfl).exists_halt (by omega)
      exact hfirst i hik (.inr ⟨hxi, .inr (by rw [hdi]; exact hback)⟩)
    by_cases hback : tune.maxBodyRam < delivered x k
    · rw [if_neg (hpos hback), if_pos hback]
      by_cases hlong : tune.maxBody < delivered x k
      · rw [if_pos hlong]
        exact .inr ⟨fun hover => absurd hover.within (Nat.not_le.mpr hlong), rfl⟩
      · rw [if_neg hlong]
        cases hdir : tune.tempDir with
        | ok env => exact .inl ⟨⟨hfirst, hx, hback, Nat.not_lt.mp hlong, env, hdir⟩, rfl⟩
        | error e =>
          refine .inr ⟨fun hover => ?_, rfl⟩
          obtain ⟨env, henv⟩ := hover.temp
          rw [hdir] at henv
          cases henv
    · have hzero : buffered = 0 := hidle.mpr (hwhy.resolve_right hback)
      rw [if_pos hzero]
      exact .inr ⟨fun hover => hback hover.beyond, rfl⟩

theorem Handover.leaves {k : Nat} (h : Handover tune x k) : Leaves tune x k :=
  .inr ⟨h.halts, .inr h.beyond⟩

/-- One call of the file part: it ends the part, or what it delivers is counted. -/
theorem file_next {k n : Nat} (hmono : delivered x k ≤ delivered x n)
    (hsince : delivered x n - delivered x k ≤ tune.maxBody) :
    (¬ FileEnds tune x k n ∧ delivered x (n + 1) - delivered x k ≤ tune.maxBody ∧
      Phase.next tune (.file (delivered x k) (delivered x n - delivered x k)) (x n) =
        .file (delivered x k) (delivered x (n + 1) - delivered x k)) ∨
    FileEnds tune x k n ∧
      Phase.next tune (.file (delivered x k) (delivered x n - delivered x k)) (x n) = .ended := by
  rcases hx : x n with e | bs
  · have hkept : delivered x (n + 1) = delivered x n := by
      rw [delivered, hx]
      rfl
    by_cases hint : e = .interrupted
    · subst hint
      rw [hkept]
      refine .inl ⟨?_, hsince, rfl⟩
      rintro (hnil | ⟨e, he, hint⟩ | hlong)
      · rw [hx] at hnil
        cases hnil
      · rw [hx] at he
        cases he
        exact hint rfl
      · rw [hkept] at hlong
        exact absurd hlong (Nat.not_lt.mpr hsince)
    · have hfails : Fails x n := ⟨e, hx, hint⟩
      exact .inr ⟨.inr (.inl hfails), by rw [← hx]; exact fails_next hfails⟩
  · cases bs with
    | nil => exact .inr ⟨.inl hx, rfl⟩
    | cons b bs =>
      have hadd : delivered x (n + 1) - delivered x k =
          delivered x n - delivered x k + (b :: bs).length := by
        rw [delivered, hx, Answer.got]
        omega
      rw [hadd]
      by_cases hlong : tune.maxBody < delivered x n - delivered x k + (b :: bs).length
      · refine .inr ⟨.inr (.inr ?_), ?_⟩
        · rw [hadd]
          exact hlong
        · simp only [Phase.next, if_pos hlong]
      · refine .inl ⟨?_, Nat.not_lt.mp hlong, ?_⟩
        · rintro (hnil | ⟨e, he, -⟩ | hlong')
          · rw [hx] at hnil
            cases hnil
          · rw [hx] at he
            cases he
          · rw [hadd] at hlong'
            exact hlong hlong'
        · simp only [Phase.next, if_neg hlong]

/-- Until a call ends it, the file part goes on. -/
theorem phaseAt_file (hlimit : ramLimit tune ≤ isizeMax) {k : Nat} (h : Handover tune x k)
    (hle : delivered x k ≤ ramLimit tune) {n : Nat} (hn : k < n) :
    ((∀ j, k < j → j < n → ¬ FileEnds tune x k j) ∧ delivered x n - delivered x k ≤ tune.maxBody ∧
        phaseAt tune x n = .file (delivered x k) (delivered x n - delivered x k)) ∨
      (∃ j, k < j ∧ j < n ∧ FileEnds tune x k j) ∧ phaseAt tune x n = .ended := by
  induction n with
  | zero => exact absurd hn (Nat.not_lt_zero k)
  | succ n ih =>
    by_cases hkn : k = n
    · subst hkn
      have hzero : delivered x (k + 1) - delivered x k = 0 := by
        rw [delivered, h.halts]
        exact Nat.sub_self _
      rcases phaseAt_leaves hlimit h.first hle h.leaves with ⟨-, hph⟩ | ⟨hnot, -⟩
      · exact .inl ⟨fun j hkj hj => by omega, by omega, by rw [hph, hzero]⟩
      · exact absurd h hnot
    rcases ih (by omega) with ⟨hnone, hsince, hph⟩ | ⟨⟨j, hkj, hj, hends⟩, hph⟩
    · rw [phaseAt, hph]
      rcases file_next (delivered_mono (by omega)) hsince with ⟨hnot, hsince', hnext⟩ | ⟨hends, hnext⟩
      · refine .inl ⟨fun j hkj hj => ?_, hsince', hnext⟩
        by_cases hjn : j = n
        · rwa [hjn]
        · exact hnone j hkj (by omega)
      · exact .inr ⟨⟨n, by omega, Nat.lt_succ_self n, hends⟩, hnext⟩
    · exact .inr ⟨⟨j, hkj, by omega, hends⟩, by rw [phaseAt, hph, next_ended]⟩

theorem phaseAt_ended {m n : Nat} (hmn : m ≤ n) (h : phaseAt tune x m = .ended) :
    phaseAt tune x n = .ended := by
  induction n with
  | zero =>
    obtain rfl := Nat.le_zero.mp hmn
    exact h
  | succ n ih =>
    by_cases hm : m = n + 1
    · rwa [hm] at h
    · rw [phaseAt, ih (by omega), next_ended]

/-- **What is counted is bounded** exactly when the reader stops in time. -/
theorem phasesBounded_iff (hlimit : ramLimit tune ≤ isizeMax) :
    PhasesBounded tune x ↔ InTime tune x := by
  constructor
  · intro h
    have hmem (n : Nat) (hstay : ∀ i < n, ¬ Leaves tune x i) :
        delivered x (n + 1) ≤ ramLimit tune := by
      induction n with
      | zero => exact h.memory 0 0 0 rfl
      | succ n ih =>
        have hle := ih fun i hi => hstay i (by omega)
        obtain ⟨sink, buffered, hph, -⟩ := phaseAt_memory hlimit hstay hle
        exact h.memory _ _ _ hph
    refine ⟨fun n hlong => ?_, fun k hk n hn hlong => ?_⟩
    · by_contra hnone
      have := hmem n fun i hi hleaves => hnone ⟨i, hi, hleaves⟩
      omega
    · have hle : delivered x k ≤ ramLimit tune := by
        have := hmem k hk.first
        rw [delivered] at this
        omega
      rcases phaseAt_file hlimit hk hle hn with ⟨-, -, hph⟩ | ⟨hends, -⟩
      · have := h.file n _ _ hph
        omega
      · exact hends
  · intro h
    have hle (n : Nat) (hstay : ∀ i < n, ¬ Leaves tune x i) : delivered x n ≤ ramLimit tune := by
      cases n with
      | zero => exact Nat.zero_le _
      | succ n =>
        by_contra hlong
        obtain ⟨k, hk, hleaves⟩ := h.memory n (by omega)
        exact hstay k (by omega) hleaves
    -- Where a call has ended reading to memory, the first that does decides.
    have hleft (n : Nat) (hex : ∃ k < n, Leaves tune x k) : phaseAt tune x n = .ended ∨
        ∃ k < n, Handover tune x k ∧ (∀ j, k < j → j < n → ¬ FileEnds tune x k j) ∧
          phaseAt tune x n = .file (delivered x k) (delivered x n - delivered x k) := by
      classical
      obtain ⟨hk, hleaves⟩ := Nat.find_spec hex
      have hfirst (i : Nat) (hi : i < Nat.find hex) : ¬ Leaves tune x i := fun hl =>
        Nat.find_min hex hi ⟨by omega, hl⟩
      rcases phaseAt_leaves hlimit hfirst (hle _ hfirst) hleaves with ⟨hover, -⟩ | ⟨-, hended⟩
      · rcases phaseAt_file hlimit hover (hle _ hfirst) hk with ⟨hnone, -, hph⟩ | ⟨-, hended⟩
        · exact .inr ⟨_, hk, hover, hnone, hph⟩
        · exact .inl hended
      · exact .inl (phaseAt_ended hk hended)
    refine ⟨fun n sink buffered hph => ?_, fun n before since hph => ?_⟩
    · by_contra hlong
      rcases hleft n (h.memory n (by omega)) with hended | ⟨k, -, -, -, hfile⟩
      · rw [hph] at hended
        cases hended
      · rw [hph] at hfile
        cases hfile
    · by_cases hex : ∃ k < n, Leaves tune x k
      · rcases hleft n hex with hended | ⟨k, hk, hover, hnone, -⟩
        · rw [hph] at hended
          cases hended
        · by_contra hlong
          obtain ⟨j, hkj, hj, hends⟩ := h.file k hover n hk (by omega)
          exact hnone j hkj hj hends
      · have hstay (i : Nat) (hi : i < n) : ¬ Leaves tune x i := fun hl => hex ⟨i, hi, hl⟩
        obtain ⟨sink, buffered, hmem, -⟩ := phaseAt_memory hlimit hstay (hle n hstay)
        rw [hph] at hmem
        cases hmem

/-- **What `read_from` takes in is bounded** exactly when the reader stops in time, for limits
that a `Vec` can hold. -/
theorem bounded_iff (hest : lenEstimate ≤ tune.maxBodyRam) (hlimit : ramLimit tune ≤ isizeMax) :
    Bounded tune lenEstimate x ↔ InTime tune x :=
  (bounded_iff_phases hest).trans (phasesBounded_iff hlimit)

/-- **A stream of single bytes that never ends** is held in RAM without a bound. -/
theorem endless_unbounded (hest : lenEstimate ≤ tune.maxBodyRam)
    (hlimit : ramLimit tune ≤ isizeMax) : ¬ Bounded tune lenEstimate fun _ => .ok [0] := by
  intro h
  have hall (n : Nat) : delivered (fun _ => .ok [0]) n = n := by
    induction n with
    | zero => rfl
    | succ n ih =>
      rw [delivered, ih]
      rfl
  have hintime := (phasesBounded_iff hlimit).mp ((bounded_iff_phases hest).mp h)
  obtain ⟨k, -, hleaves⟩ := hintime.memory (ramLimit tune) (by rw [hall]; omega)
  rcases hleaves with ⟨e, he, -⟩ | ⟨hnil, -⟩
  · cases he
  · cases hnil

end Endless

theorem default_limit : ramLimit (Tunables.new Tunables.calmDir) ≤ isizeMax := by decide

theorem default_unbounded : ¬ Bounded (Tunables.new Tunables.calmDir) 0 fun _ => .ok [0] :=
  endless_unbounded (Nat.zero_le _) default_limit

/-! A body of three bytes, with a pause after the first, goes to a file and is within the limits,
although the reader would go on without end. -/

def pausingAnswers : Nat → Answer
  | 0 => .ok [1]
  | 1 => .ok []
  | 2 => .ok [2]
  | 3 => .ok [3]
  | 4 => .ok []
  | _ => .ok (List.replicate 2000 0)

/-- The second call hands over to a file. -/
theorem pausingAnswers_handover : Handover .fileOnly pausingAnswers 1 := by
  refine ⟨fun i hi => ?_, rfl, by decide, by decide, ⟨_, rfl⟩⟩
  obtain rfl : i = 0 := by omega
  rintro (⟨e, he, -⟩ | ⟨hnil, -⟩)
  · cases he
  · cases hnil

theorem pausingAnswers_inTime : InTime .fileOnly pausingAnswers := by
  have hthree : delivered pausingAnswers 5 = 3 := rfl
  have hram : ramLimit .fileOnly = 1024 := rfl
  have htaken : takenLimit .fileOnly = 65540 := rfl
  -- Up to the second zero-length read only the three bytes have come.
  have hfew {n : Nat} (hn : n ≤ 4) : delivered pausingAnswers (n + 1) ≤ 3 := by
    rw [← hthree]
    exact delivered_mono (by omega)
  refine ⟨fun n hlong => ⟨1, ?_, pausingAnswers_handover.leaves⟩, fun k hk n hn hlong => ?_⟩
  · by_contra hle
    have := @hfew n (by omega)
    omega
  · have hkone : k ≤ 1 := by
      by_contra hlt
      exact hk.first 1 (by omega) pausingAnswers_handover.leaves
    refine ⟨4, by omega, ?_, .inl rfl⟩
    by_contra hle
    have hsum := @hfew n (by omega)
    have hgot : (pausingAnswers n).got ≤ delivered pausingAnswers (n + 1) := by
      rw [delivered]
      omega
    omega

theorem pausingAnswers_bounded : Handover .fileOnly pausingAnswers 1 ∧
    Bounded .fileOnly 0 pausingAnswers :=
  ⟨pausingAnswers_handover,
    (bounded_iff (Nat.zero_le _) (by decide)).mpr pausingAnswers_inTime⟩

end BodyImage

end BodyArchive
