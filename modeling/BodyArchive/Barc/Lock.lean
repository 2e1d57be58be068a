import BodyArchive.Barc.Ops
import BodyArchive.Barc.Snapshot
import BodyArchive.Io.Mutex

/-!
# The write lock

A `BarcFile` is shared by threads. `BarcFile::writer` takes the lock, opens the file the first time, and
returns a `BarcWriter` that has the lock until it is dropped. A thread that panics with it poisons the lock.

A call of `BarcWriter::write` is not one step here: each of its writes to the file is, and the steps of
other threads come between. `writers_serial` says what holds in every order: one thread at a time
has a writer; the calls that have ended are those of whole turns, one turn after the other, each call on the
content that the ones before have left; and a call that is running has only added behind that.
-/

namespace BodyArchive

/-! ## Calls of `write` -/

namespace Attempt

variable {cr : Crates} (a : Attempt cr)

/-- What a dropped encoder writes. -/
def dropOps : List FileOp := if a.dropped = [] then [] else [⟨a.file.content.length, a.dropped⟩]

/-- The writes of a call. -/
def ops : List FileOp := a.file.log.drop a.before.log.length ++ a.dropOps

/-- The file as the next call finds it. -/
def handle : OutFile := { a.file with content := a.after, log := a.file.log ++ a.dropOps }

theorem dropOps_apply : a.dropOps.foldl FileOp.apply a.file.content = a.after := by
  unfold dropOps after
  split
  · next h =>
    rw [h, List.append_nil]
    rfl
  · exact FileOp.apply_end _ _

theorem file_ops : ∃ ops, a.file.log = a.before.log ++ ops ∧
    a.file.content = ops.foldl FileOp.apply a.before.content ∧
    ∀ op ∈ ops, a.before.content.length ≤ op.pos := by
  have h := @write_ops cr a.job.record a.job.enc a.before
  rwa [a.ran] at h

theorem ops_apply : a.ops.foldl FileOp.apply a.before.content = a.after := by
  obtain ⟨ops, hlog, hcontent, -⟩ := a.file_ops
  rw [Attempt.ops, hlog, List.drop_left, List.foldl_append, ← hcontent, a.dropOps_apply]

/-- The writes are behind what was there. -/
theorem ops_behind : ∀ op ∈ a.ops, a.before.content.length ≤ op.pos := by
  obtain ⟨ops, hlog, hcontent, hops⟩ := a.file_ops
  intro op hop
  rw [Attempt.ops, hlog, List.drop_left] at hop
  rcases List.mem_append.mp hop with hop | hop
  · exact hops op hop
  · unfold dropOps at hop
    split at hop
    · cases hop
    · rw [List.mem_singleton.mp hop, hcontent]
      exact (prefix_foldl List.prefix_rfl hops).length_le

/-- A call that returned its offset returned that of its record. -/
theorem start_of_ok {a : Attempt cr} {o : Nat} (hd : Drained cr a.job.enc) (h : a.result = .ok o) :
    o = a.start := by
  have hran := a.ran
  rw [h] at hran
  exact (write_ok_whole hd a.job.holds hran).1

end Attempt

/-- The calls of a chain, and the writes of all of them. -/
theorem chain_ops {cr : Crates} {c c' : Bytes} {as : List (Attempt cr)} (h : Chain c as c') :
    (as.flatMap Attempt.ops).foldl FileOp.apply c = c' := by
  induction as generalizing c with
  | nil => exact Eq.symm h
  | cons a as ih =>
    obtain ⟨rfl, hrest⟩ := h
    rw [List.flatMap_cons, List.foldl_append, a.ops_apply]
    exact ih hrest

/-! ## The lock -/

/-- What the mutex of a `BarcFile` guards, and what has been done with it. -/
structure Locked (cr : Crates) (T : Type) where
  /-- The `Option<File>`. -/
  file : Option OutFile
  /-- The writes that have reached the file, in order. -/
  ops : List FileOp
  /-- The calls of `write` that have ended, and whose they were. -/
  done : List (T × Attempt cr)

/-- What a thread has that holds the lock. -/
inductive Holding (cr : Crates) where
  /-- The file could not be opened. -/
  | refused (e : BarcError)
  | writer
  /-- A writer with a call of `write`, of which some writes are left. -/
  | writing (a : Attempt cr) (left : List FileOp)

namespace Locked

variable {cr : Crates} {T : Type}

/-- The content of the file, which was `base` at first. -/
def disk (base : Bytes) (g : Locked cr T) : Bytes := g.ops.foldl FileOp.apply base

/-- `BarcFile::writer`, with the lock. `opened` is how opening the file goes, and then how its coming
operations go. -/
def writer (base : Bytes) (opened : Except IoError (List OpResult)) :
    Prog (Locked cr T) BarcError Unit := fun g =>
  match g.file with
  | some _ => (.ok (), g)
  | none =>
    match opened with
    | .error e => (.err (.io e), g)
    | .ok script => (.ok (), { g with file := some ⟨g.disk base, 0, script, []⟩ })

/-- A call of `write` has ended. -/
def ended (g : Locked cr T) (t : T) (a : Attempt cr) : Locked cr T :=
  { g with file := some a.handle, done := g.done ++ [(t, a)] }

end Locked

section Protocol

variable {cr : Crates} {T : Type}

/-- A thread calls `BarcFile::writer` and gets the lock. -/
inductive GetsWriter (base : Bytes) : Locked cr T → Holding cr → Locked cr T → Prop
  | ok {g g' : Locked cr T} (opened : Except IoError (List OpResult))
      (h : Locked.writer base opened g = (.ok (), g')) : GetsWriter base g .writer g'
  | refused {g g' : Locked cr T} (opened : Except IoError (List OpResult)) (e : BarcError)
      (h : Locked.writer base opened g = (.err e, g')) : GetsWriter base g (.refused e) g'

/-- The steps of a thread with a writer. -/
inductive WriterStep (t : T) : Holding cr → Locked cr T → Holding cr → Locked cr T → Prop
  | call {g : Locked cr T} (a : Attempt cr) (file : g.file = some a.before) :
      WriterStep t .writer g (.writing a a.ops) g
  | op {g : Locked cr T} (a : Attempt cr) (op : FileOp) (left : List FileOp) :
      WriterStep t (.writing a (op :: left)) g (.writing a left) { g with ops := g.ops ++ [op] }
  | returns {g : Locked cr T} (a : Attempt cr) (safe : a.result.Safe) :
      WriterStep t (.writing a []) g .writer (g.ended t a)

/-- A thread with a writer panics, in a call of `write` or between them. -/
inductive WriterPanics : Holding cr → Prop
  | call (a : Attempt cr) (panicked : ¬ a.result.Safe) : WriterPanics (.writing a [])
  | between : WriterPanics .writer

/-- A thread that is in no call of `write` can give the lock back. -/
def MayLeave : Holding cr → Prop
  | .writing _ _ => False
  | _ => True

/-- Threads that share a `BarcFile`. -/
def barcFile (cr : Crates) (T : Type) (base : Bytes) : Protocol T (Locked cr T) (Holding cr) where
  enter _ g l g' := GetsWriter base g l g'
  work t l g l' g' := WriterStep t l g l' g'
  leave _ l _ := MayLeave l
  panics _ l g g' := WriterPanics l ∧ g' = g

/-- `BarcFile::new`: nobody has opened the file. -/
def newBarcFile : Threads T (Locked cr T) (Holding cr) := .start ⟨none, [], []⟩

/-! ## Turns -/

/-- The calls that have ended leave `c`, and the writes `running` of one more have been done. -/
structure Sound (base : Bytes) (g : Locked cr T) (c : Bytes) (running : List FileOp) : Prop where
  chain : Chain base (g.done.map Prod.snd) c
  ops_eq : g.ops = (g.done.map Prod.snd).flatMap Attempt.ops ++ running
  file_eq : ∀ f, g.file = some f → f.content = c

variable {base : Bytes} {g g' : Locked cr T} {c : Bytes}

theorem Sound.disk_eq {running : List FileOp} (h : Sound base g c running) :
    g.disk base = running.foldl FileOp.apply c := by
  rw [Locked.disk, h.ops_eq, List.foldl_append, chain_ops h.chain]

theorem Sound.ended {a : Attempt cr} (h : Sound base g a.before.content a.ops) (t : T) :
    Sound base (g.ended t a) a.after [] where
  chain := by
    rw [Locked.ended, List.map_append]
    exact chain_append.mpr ⟨_, h.chain, rfl, rfl⟩
  ops_eq := by
    rw [List.append_nil, Locked.ended, List.map_append, List.flatMap_append, h.ops_eq]
    simp
  file_eq := by
    intro f hf
    cases hf
    rfl

/-- What a thread has done in its turn so far. -/
def TurnDone (base : Bytes) (t : T) (g : Locked cr T) (l : Holding cr) (g' : Locked cr T) : Prop :=
  ∃ as, g'.done = g.done ++ as.map (t, ·) ∧
    match l with
    | .refused _ => as = [] ∧ g' = g
    | .writer => ∃ c, Sound base g' c []
    | .writing a left => ∃ running, a.ops = running ++ left ∧ Sound base g' a.before.content running

/-- **A turn**, step by step. -/
theorem turn_done (hg : Sound base g c []) {t : T} {l : Holding cr}
    (h : Turn (barcFile cr T base) t g l g') : TurnDone base t g l g' := by
  induction h with
  | enter hv =>
    refine ⟨[], ?_⟩
    cases hv with
    | ok opened hw =>
      unfold Locked.writer at hw
      split at hw
      · cases hw
        exact ⟨(List.append_nil _).symm, c, hg⟩
      · split at hw <;> cases hw
        refine ⟨(List.append_nil _).symm, c, hg.chain, hg.ops_eq, ?_⟩
        intro f hf
        cases hf
        exact hg.disk_eq
    | refused opened e hw =>
      unfold Locked.writer at hw
      split at hw
      · cases hw
      · split at hw <;> cases hw
        exact ⟨(List.append_nil _).symm, rfl, rfl⟩
  | work _ hv ih =>
    obtain ⟨as, hdone, hsofar⟩ := ih
    cases hv with
    | call a file =>
      obtain ⟨c', hsound⟩ := hsofar
      obtain rfl := hsound.file_eq _ file
      exact ⟨as, hdone, [], rfl, hsound⟩
    | op a op left =>
      obtain ⟨running, hops, hsound⟩ := hsofar
      refine ⟨as, hdone, running ++ [op], ?_, hsound.chain, ?_, hsound.file_eq⟩
      · rw [hops, List.append_assoc]
        rfl
      · rw [hsound.ops_eq, List.append_assoc]
    | returns a safe =>
      obtain ⟨running, hops, hsound⟩ := hsofar
      rw [List.append_nil] at hops
      refine ⟨as ++ [a], ?_, a.after, ?_⟩
      · rw [Locked.ended, hdone, List.map_append, List.append_assoc]
        rfl
      · exact (hops ▸ hsound).ended t

/-- The calls of some turns. -/
def callsOf (turns : List (T × List (Attempt cr))) : List (T × Attempt cr) :=
  turns.flatMap fun x => x.2.map (x.1, ·)

theorem callsOf_append (turns : List (T × List (Attempt cr))) (t : T) (as : List (Attempt cr)) :
    callsOf (turns ++ [(t, as)]) = callsOf turns ++ as.map (t, ·) := by
  simp [callsOf]

/-- **Whole turns**, one after the other. -/
theorem turns_done {ts : List T} (h : Serial (barcFile cr T base) ⟨none, [], []⟩ ts g) :
    (∃ c, Sound base g c []) ∧
      ∃ turns : List (T × List (Attempt cr)), turns.map Prod.fst = ts ∧ g.done = callsOf turns := by
  induction h with
  | start => exact ⟨⟨base, rfl, rfl, fun f hf => by cases hf⟩, [], rfl, rfl⟩
  | @next ts t l g g' _ turn hl ih =>
    obtain ⟨⟨c, hsound⟩, turns, hts, hdone⟩ := ih
    obtain ⟨as, hdone', hturn⟩ := turn_done hsound turn
    refine ⟨?_, turns ++ [(t, as)], ?_, ?_⟩
    · cases l with
      | refused e =>
        obtain ⟨-, rfl⟩ := hturn
        exact ⟨c, hsound⟩
      | writer => exact hturn
      | writing a left => exact hl.elim
    · rw [List.map_append, hts]
      rfl
    · rw [hdone', hdone, callsOf_append]

/-- The writes of a call, one after the other. -/
theorem leads_ops [DecidableEq T] {held poisoned : Bool} {file : Option OutFile}
    {done : List (T × Attempt cr)} {place : T → Place (Holding cr)} {turns : List T} {t : T}
    (a : Attempt cr) (left ops : List FileOp) :
    Threads.Leads (barcFile cr T base)
      ⟨held, poisoned, ⟨file, ops, done⟩, Function.update place t (.inside (.writing a left)), turns⟩
      ⟨held, poisoned, ⟨file, ops ++ left, done⟩, Function.update place t (.inside (.writing a [])),
        turns⟩ := by
  induction left generalizing ops with
  | nil =>
    rw [List.append_nil]
    exact .refl
  | cons op left ih =>
    have hstep := @Threads.Step.work _ _ _ _ (barcFile cr T base) ⟨held, poisoned, ⟨file, ops, done⟩,
      Function.update place t (.inside (.writing a (op :: left))), turns⟩ t _ _ _
      (Function.update_self ..) (WriterStep.op a op left)
    rw [Threads.move, Function.update_idem] at hstep
    have hrest := ih (ops ++ [op])
    rw [List.append_assoc] at hrest
    exact .head hstep hrest

/-- A thread has had a turn with one call, which found `g`. -/
def turnTaken [DecidableEq T] (s : Threads T (Locked cr T) (Holding cr)) (t : T) (g : Locked cr T)
    (a : Attempt cr) : Threads T (Locked cr T) (Holding cr) :=
  ⟨false, false, ⟨some a.handle, g.ops ++ a.ops, g.done ++ [(t, a)]⟩, s.move t .outside,
    s.turns ++ [t]⟩

/-- **A turn with one call**: a thread that wants a writer gets one while the lock is free. -/
theorem leads_turn [DecidableEq T] {s : Threads T (Locked cr T) (Holding cr)} {t : T}
    (hout : s.place t = .outside) (hfree : s.held = false) (hsound : s.poisoned = false)
    {opened : Except IoError (List OpResult)}
    (hwriter : Locked.writer base opened s.value = (.ok (), g)) {a : Attempt cr}
    (hfile : g.file = some a.before) (hsafe : a.result.Safe) :
    Threads.Leads (barcFile cr T base) s (turnTaken s t g a) := by
  obtain ⟨file, ops, done⟩ := g
  have hask := Threads.Step.ask (p := barcFile cr T base) hout
  have henter := @Threads.Step.enter _ _ _ _ (barcFile cr T base)
    { s with place := s.move t .waiting } t .writer _ (Threads.move_self s t _) hfree hsound
    (.ok opened hwriter)
  rw [Threads.move, Threads.move, Function.update_idem] at henter
  have hcall := @Threads.Step.work _ _ _ _ (barcFile cr T base)
    ⟨true, false, ⟨file, ops, done⟩, Function.update s.place t (.inside .writer), s.turns ++ [t]⟩ t
    _ _ _ (Function.update_self ..) (.call a hfile)
  rw [Threads.move, Function.update_idem] at hcall
  have hreturns := @Threads.Step.work _ _ _ _ (barcFile cr T base)
    ⟨true, false, ⟨file, ops ++ a.ops, done⟩, Function.update s.place t (.inside (.writing a [])),
      s.turns ++ [t]⟩ t _ _ _ (Function.update_self ..) (.returns a hsafe)
  rw [Threads.move, Function.update_idem] at hreturns
  have hleave := @Threads.Step.leave _ _ _ _ (barcFile cr T base)
    ⟨true, false, ⟨some a.handle, ops ++ a.ops, done ++ [(t, a)]⟩,
      Function.update s.place t (.inside .writer), s.turns ++ [t]⟩ t .writer
    (Function.update_self ..) trivial
  rw [Threads.move, Function.update_idem] at hleave
  exact .head hask (.head henter (.head hcall ((leads_ops a a.ops ops).trans
    (.head hreturns (.single hleave)))))

/-! ## Every order of steps -/

/-- What calls have left behind `base`: a whole record for each that returned its offset, where that
offset says, and for some of the others. -/
def Stored (base : Bytes) (as : List (Attempt cr)) (c : Bytes) : Prop :=
  ∃ kept frames, kept.Sublist as ∧ (as.filter Attempt.ok).Sublist kept ∧
    List.Forall₂ (fun (fr : Frame) (a : Attempt cr) => fr.Holds cr a.job.contents) frames kept ∧
    c = base ++ archive frames ∧ kept.map Attempt.start = starts base.length frames ∧
    ∀ a ∈ kept, ∀ o, a.result = .ok o → Drained cr a.job.enc → o = a.start

/-- What a call has added to `c` that has not returned. -/
inductive Unreturned (s : Threads T (Locked cr T) (Holding cr)) (c : Bytes) : List FileOp → Prop
  | none : Unreturned s c []
  | running {t : T} {a : Attempt cr} {ops left : List FileOp}
      (place : s.place t = .inside (.writing a left)) (before : a.before.content = c)
      (split : a.ops = ops ++ left) : Unreturned s c ops
  | panicked (a : Attempt cr) (poisoned : s.poisoned = true) (before : a.before.content = c)
      (panicked : ¬ a.result.Safe) : Unreturned s c a.ops

theorem Unreturned.keeps {s : Threads T (Locked cr T) (Holding cr)} {ops : List FileOp}
    (h : Unreturned s c ops) : c <+: ops.foldl FileOp.apply c := by
  cases h with
  | none => exact List.prefix_rfl
  | @running t a ops left place before split =>
    subst before
    refine prefix_foldl List.prefix_rfl fun op hop => a.ops_behind op ?_
    rw [split]
    exact List.mem_append_left left hop
  | panicked a poisoned before panicked =>
    subst before
    exact prefix_foldl List.prefix_rfl a.ops_behind

/-- Where the threads are, the calls are. -/
theorem asSerial_sound [DecidableEq T] {s : Threads T (Locked cr T) (Holding cr)}
    (h : Threads.AsSerial (barcFile cr T base) ⟨none, [], []⟩ s) :
    (∃ turns : List (T × List (Attempt cr)), turns.map Prod.fst = s.turns ∧
      s.value.done = callsOf turns) ∧
    ∃ c ops, Sound base s.value c ops ∧ Unreturned s c ops := by
  have hturn {ts : List T} {t : T} {g : Locked cr T} {l : Holding cr} {g' : Locked cr T}
      (serial : Serial (barcFile cr T base) ⟨none, [], []⟩ ts g)
      (turn : Turn (barcFile cr T base) t g l g') :
      (∃ turns : List (T × List (Attempt cr)), turns.map Prod.fst = ts ++ [t] ∧
        g'.done = callsOf turns) ∧
      ∃ c ops, Sound base g' c ops ∧ match l with
        | .writing a left => a.before.content = c ∧ a.ops = ops ++ left
        | _ => ops = [] := by
    obtain ⟨⟨c, hsound⟩, turns, rfl, hdone⟩ := turns_done serial
    obtain ⟨as, hdone', hturn⟩ := turn_done hsound turn
    refine ⟨⟨turns ++ [(t, as)], by simp, by rw [hdone', hdone, callsOf_append]⟩, ?_⟩
    cases l with
    | refused e =>
      obtain ⟨-, rfl⟩ := hturn
      exact ⟨c, [], hsound, rfl⟩
    | writer =>
      obtain ⟨c', hsound'⟩ := hturn
      exact ⟨c', [], hsound', rfl⟩
    | writing a left =>
      obtain ⟨ops, hops, hsound'⟩ := hturn
      exact ⟨_, ops, hsound', rfl, hops⟩
  cases h with
  | free serial held sound empty =>
    obtain ⟨⟨c, hsound⟩, hturns⟩ := turns_done serial
    exact ⟨hturns, c, [], hsound, .none⟩
  | busy ts t l g serial turns turn held sound only =>
    obtain ⟨hturns, c, ops, hsound, hl⟩ := hturn serial turn
    rw [turns]
    refine ⟨hturns, c, ops, hsound, ?_⟩
    cases l with
    | refused e => exact hl ▸ .none
    | writer => exact hl ▸ .none
    | writing a left => exact .running only.1 hl.1 hl.2
  | broken ts t l g g' serial turns turn panicked held poisoned empty =>
    obtain ⟨hturns, c, ops, hsound, hl⟩ := hturn serial turn
    obtain ⟨hpanics, hvalue⟩ := panicked
    rw [turns, hvalue]
    refine ⟨hturns, c, ops, hsound, ?_⟩
    cases hpanics with
    | between => exact hl ▸ .none
    | call a hunsafe =>
      obtain ⟨hbefore, hops⟩ := hl
      rw [List.append_nil] at hops
      exact hops ▸ .panicked a poisoned hbefore hunsafe

theorem stored_of_clean {as : List (Attempt cr)} (h : Chain base as c)
    (hclean : ∀ a ∈ as, a.Clean) : Stored base as c := by
  obtain ⟨kept, frames, hsub, hoks, -, hall, hc, hstarts⟩ := chain_clean h hclean
  exact ⟨kept, frames, hsub, hoks, hall, hc, hstarts, fun a _ o ho hd => a.start_of_ok hd ho⟩

/-- **Threads that share a `BarcFile`**, whatever order their steps come in. At most one has a writer. The
calls of `write` that have returned are those of the turns, one turn after the other; each has found
what the ones before it left, and a call that has not returned has only added behind that. If the
calls that failed have left nothing, or a whole record, the file holds behind what it held a whole
record for each call that returned its offset, at that offset, in this order. Once a thread has panicked
with a writer, nobody gets one again, and the file stays as it is. -/
theorem writers_serial [DecidableEq T] {s : Threads T (Locked cr T) (Holding cr)}
    (h : Threads.Leads (barcFile cr T base) newBarcFile s) :
    (∀ t u l l', s.place t = .inside l → s.place u = .inside l' → t = u) ∧
    (∃ turns : List (T × List (Attempt cr)), turns.map Prod.fst = s.turns ∧
      s.value.done = callsOf turns) ∧
    (∃ c ops, Chain base (s.value.done.map Prod.snd) c ∧ Unreturned s c ops ∧
      s.value.disk base = ops.foldl FileOp.apply c ∧ c <+: s.value.disk base ∧
      ((∀ d ∈ s.value.done, d.2.Clean) → Stored base (s.value.done.map Prod.snd) c)) ∧
    (s.poisoned = true → ∀ s', Threads.Leads (barcFile cr T base) s s' →
      s'.Empty ∧ s'.value.disk base = s.value.disk base) := by
  have hserial := Threads.reached_serial h
  obtain ⟨hturns, c, ops, hsound, hunreturned⟩ := asSerial_sound hserial
  refine ⟨fun t u l l' ht hu => hserial.exclusive ht hu, hturns, ⟨c, ops, hsound.chain, hunreturned,
    hsound.disk_eq, ?_, fun hclean => stored_of_clean hsound.chain ?_⟩, fun hpoisoned s' hs' => ?_⟩
  · rw [hsound.disk_eq]
    exact hunreturned.keeps
  · intro a ha
    obtain ⟨d, hd, rfl⟩ := List.mem_map.mp ha
    exact hclean d hd
  · obtain ⟨-, hempty, hvalue, -⟩ := hserial.stays hpoisoned hs'
    exact ⟨hempty, by rw [hvalue]⟩

/-- Two calls, each on the file as it is then. -/
def sampleCalls : List (Bool × Attempt sampleCrates) :=
  let first := Attempt.of ⟨Sample.record, Sample.contents, .plain, Sample.record_holds⟩ OutFile.empty
  [(true, first),
    (false, .of ⟨Sample.record, Sample.contents, .gzip 6, Sample.record_holds⟩ first.handle)]

/-- Two threads have had their turns with a new file. -/
theorem sampleCalls_lead : ∃ s : Threads Bool (Locked sampleCrates Bool) (Holding sampleCrates),
    Threads.Leads (barcFile sampleCrates Bool (archive [])) newBarcFile s ∧
    s.value.done = sampleCalls ∧ s.poisoned = false ∧
    ∀ t a left, s.place t ≠ .inside (.writing a left) := by
  let first : Attempt sampleCrates :=
    .of ⟨Sample.record, Sample.contents, .plain, Sample.record_holds⟩ OutFile.empty
  let g : Locked sampleCrates Bool := ⟨some OutFile.empty, [], []⟩
  have hfirst := @leads_turn sampleCrates Bool (archive []) g _ newBarcFile true rfl rfl rfl (.ok [])
    rfl first rfl (by decide +kernel)
  -- The second finds the file open, as the first has left it.
  have hsecond := @leads_turn sampleCrates Bool (archive []) (turnTaken newBarcFile true g first).value
    _ (turnTaken newBarcFile true g first) false rfl rfl rfl (.ok []) rfl
    (.of ⟨Sample.record, Sample.contents, .gzip 6, Sample.record_holds⟩ first.handle) rfl
    (by decide +kernel)
  refine ⟨_, hfirst.trans hsecond, rfl, rfl, fun t a left => ?_⟩
  cases t <;> exact nofun

theorem sampleCalls_ok : ∀ d ∈ sampleCalls, d.2.ok = true := by decide +kernel

/-- Both records are in the file. -/
theorem sampleCalls_stored :
    ∃ c, Chain [] (sampleCalls.map Prod.snd) c ∧ Stored [] (sampleCalls.map Prod.snd) c := by
  obtain ⟨s, hleads, hdone, -⟩ := sampleCalls_lead
  obtain ⟨-, -, ⟨c, -, hchain, -, -, -, hstored⟩, -⟩ := writers_serial hleads
  rw [hdone] at hchain hstored
  refine ⟨c, hchain, hstored fun d hd => .inr (.inl ⟨sampleCalls_ok d hd, ?_⟩)⟩
  rcases List.mem_cons.mp hd with rfl | hd
  · exact .inl rfl
  · rw [List.mem_singleton.mp hd]
    exact .inr fun _ => rfl

/-! ## Readers -/

variable {tune : Tunables}

/-- A call that returned its offset, of a record that can be read. -/
structure Returned (cr : Crates) (tune : Tunables) (a : Attempt cr) : Prop where
  ok : a.ok = true
  drained : Drained cr a.job.enc
  valid : a.job.Valid cr tune

/-- The writes of such a call are those of one record. -/
theorem Returned.entry (hcr : cr.HeadersLawful) (htemp : tune.TempOk) {a : Attempt cr}
    (h : Returned cr tune a) : ∃ e : Entry, Frame.Reads cr tune e.frame a.job.contents ∧
      a.ops = e.ops a.before.content.length ∧ a.after = a.before.content ++ e.frame.bytes := by
  obtain ⟨o, ho⟩ : ∃ o, a.result = .ok o := by
    have hok := h.ok
    unfold Attempt.ok at hok
    split at hok
    · next o ho => exact ⟨o, ho⟩
    · cases hok
  have hran := a.ran
  rw [ho] at hran
  obtain ⟨e, hholds, hmode, hlog⟩ := write_ok_ops h.drained a.job.holds hran
  have hops : a.ops = e.ops a.before.content.length := by
    rw [Attempt.ops, hlog, List.drop_left, Attempt.dropOps, if_pos (a.dropped_nil o ho),
      List.append_nil]
  refine ⟨e, ⟨hholds, ?_⟩, hops, ?_⟩
  · show Readable cr tune e.head.compress a.job.contents
    rw [hmode]
    exact h.valid.readable hcr htemp
  · rw [← a.ops_apply, hops, foldl_ops _ hholds.fits]

/-- The writes of calls that returned are a journal. -/
theorem chain_journal (hcr : cr.HeadersLawful) (htemp : tune.TempOk) {c' : Bytes}
    {as : List (Attempt cr)} (h : Chain c as c') (hreturned : ∀ a ∈ as, Returned cr tune a) :
    ∃ es : List Entry, List.Forall₂ (fun e (a : Attempt cr) =>
        Frame.Reads cr tune (Entry.frame e) a.job.contents) es as ∧
      as.map Attempt.start = starts c.length (es.map Entry.frame) ∧
      ∀ k, (as.take k).flatMap Attempt.ops = journal c.length (es.take k) := by
  induction as generalizing c with
  | nil => exact ⟨[], .nil, rfl, fun k => by simp [journal]⟩
  | cons a as ih =>
    obtain ⟨rfl, hrest⟩ := h
    obtain ⟨e, hreads, hops, hafter⟩ := (hreturned a List.mem_cons_self).entry hcr htemp
    obtain ⟨es, hall, hstarts, hes⟩ := ih hrest fun b hb => hreturned b (List.mem_cons_of_mem a hb)
    rw [hafter, List.length_append] at hstarts hes
    refine ⟨e :: es, .cons hreads hall, ?_, fun k => ?_⟩
    · rw [List.map_cons, hstarts]
      rfl
    · cases k with
      | zero => rfl
      | succ k =>
        rw [List.take_succ_cons, List.take_succ_cons, List.flatMap_cons, journal, hes k, hops]

/-- **Readers of a shared `BarcFile`.** Let threads append records to an archive, in any order, until no
call of `write` is running, and let all calls have returned their offsets. Let their writes come between
the reads of a reader in any way. What it gets from the start until nothing more is there is a
snapshot: the records that were there, and those of the calls that are done at one later moment, in the
order of the turns. -/
theorem readers_snapshot [DecidableEq T] (hcodec : cr.CodecLawful) (hcr : cr.HeadersLawful)
    (htemp : tune.TempOk) {fs : List Frame} {cs : List Contents}
    (hfs : List.Forall₂ (Frame.Reads cr tune) fs cs) {s : Threads T (Locked cr T) (Holding cr)}
    (h : Threads.Leads (barcFile cr T (archive fs)) newBarcFile s) (hsound : s.poisoned = false)
    (hidle : ∀ t a left, s.place t ≠ .inside (.writing a left))
    (hreturned : ∀ d ∈ s.value.done, Returned cr tune d.2) {env : List Event}
    (hfair : ∀ e ∈ env, e.delivery.Fair) (hwhole : HeadsWhole env)
    (henv : env.flatMap Event.ops <+: s.value.ops) (m : Nat) :
    ∃ m' n rs rp rp', m ≤ m' ∧
      Reads cr tune ⟨(⟨archive fs, env⟩ : File).skip m, 0⟩
        ((starts 0 fs ++ (s.value.done.take n).map fun d => d.2.start).zip rs) rp ∧
      List.Forall₂ Record.Holds rs (cs ++ (s.value.done.take n).map fun d => d.2.job.contents) ∧
      read cr tune rp = (.ok none, rp') ∧
      ∀ k ≤ s.value.done.length, (s.value.done.take k).flatMap (fun d => d.2.ops) <+:
        (env.take m').flatMap Event.ops ↔ k ≤ n := by
  obtain ⟨-, c, ops, hall, hunreturned⟩ := asSerial_sound (Threads.reached_serial h)
  obtain rfl : ops = [] := by
    cases hunreturned with
    | none => rfl
    | running place _ _ => exact absurd place (hidle _ _ _)
    | panicked a poisoned _ _ =>
      rw [hsound] at poisoned
      cases poisoned
  obtain ⟨es, hes, hstarts, hjournal⟩ := chain_journal hcr htemp hall.chain fun a ha => by
    obtain ⟨d, hd, rfl⟩ := List.mem_map.mp ha
    exact hreturned d hd
  have hops (k : Nat) : (s.value.done.take k).flatMap (fun d => d.2.ops) =
      journal (archive fs).length (es.take k) := by
    rw [← hjournal k, ← List.map_take, List.flatMap_map]
  have hlen : s.value.done.length = es.length := by
    rw [hes.length_eq, List.length_map]
  have hcontents : List.Forall₂ (fun e c => Frame.Reads cr tune (Entry.frame e) c) es
      (s.value.done.map fun d => d.2.job.contents) := by
    rw [List.forall₂_map_right_iff] at hes ⊢
    exact hes
  have hjournaled : env.flatMap Event.ops <+: journal (archive fs).length es := by
    have hall' := hops es.length
    rw [← hlen, List.take_length, hlen, List.take_length] at hall'
    rwa [hall.ops_eq, List.append_nil, List.flatMap_map, hall'] at henv
  obtain ⟨m', n, rs, rp, rp', hm, hreads, hholds, hend, hlast⟩ :=
    appended_reads hfs hcontents hfair hwhole hjournaled hcodec m
  have hoffsets : starts 0 (fs ++ (es.map Entry.frame).take n) =
      starts 0 fs ++ (s.value.done.take n).map fun d => d.2.start := by
    rw [starts_append, Nat.zero_add, starts_take, ← hstarts, ← List.map_take, ← List.map_take,
      List.map_map]
    rfl
  rw [hoffsets] at hreads
  rw [← List.map_take] at hholds
  refine ⟨m', n, rs, rp, rp', hm, hreads, hholds, hend, fun k hk => ?_⟩
  rw [hops k]
  exact hlast k (hlen ▸ hk)

/-- A reader that looks at the file before the last write: none of the two records, or one. -/
theorem sampleCalls_read : ∃ env n rs rp rp',
    Reads sampleCrates (Sample.tunables 2 3 (by decide)) ⟨⟨[], env⟩, 0⟩
      (((sampleCalls.take n).map fun d => d.2.start).zip rs) rp ∧
    List.Forall₂ Record.Holds rs ((sampleCalls.take n).map fun d => d.2.job.contents) ∧
    read sampleCrates (Sample.tunables 2 3 (by decide)) rp = (.ok none, rp') := by
  obtain ⟨s, hleads, hdone, hsound, hidle⟩ := sampleCalls_lead
  have hreturned : ∀ d ∈ s.value.done,
      Returned sampleCrates (Sample.tunables 2 3 (by decide)) d.2 := by
    rw [hdone]
    intro d hd
    refine ⟨sampleCalls_ok d hd, ?_, sampleJobs_valid _ ?_⟩ <;>
      rcases List.mem_cons.mp hd with rfl | hd
    · exact .inl rfl
    · rw [List.mem_singleton.mp hd]
      exact .inr fun _ => rfl
    · exact List.mem_cons_self
    · rw [List.mem_singleton.mp hd]
      exact List.mem_cons_of_mem _ List.mem_cons_self
  have hfull : ∀ e ∈ [(⟨s.value.ops.dropLast, .full⟩ : Event)], e.delivery = .full := by simp
  obtain ⟨-, n, rs, rp, rp', -, hreads, hall, hend, -⟩ := readers_snapshot sampleCrates_codecLawful
    sampleCrates_headersLawful (Sample.tunables_tempOk (by decide)) .nil hleads hsound hidle hreturned
    (fun e he => by rw [hfull e he]; trivial) (headsWhole_of_full hfull)
    (by rw [List.flatMap_cons, List.flatMap_nil, List.append_nil]; exact List.dropLast_prefix _) 0
  rw [hdone] at hreads hall
  exact ⟨_, n, rs, rp, rp', hreads, hall, hend⟩

end Protocol

end BodyArchive
