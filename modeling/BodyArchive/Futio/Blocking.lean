import BodyArchive.Futio.Tune

/-!
# Blocking on a permit, or on another thread

The sinks and streams share how they block. A poll routine asks an arbiter before it blocks, and
returns `Pending` if it may not. Over it there are two wrappers: one waits for a permit and runs the
routine again under it (`Permitted`), the other sends the routine to a pool of threads and waits for
its result (`Dispatching`). Here both are written once, over any routine; what the routine does once
it may block is its `Service`.

`Permitted.step` and `Dispatching.step` say that either wrapper makes the steps of the service and
no others. The marks that are left by blocking operations, and by the permits and the dispatches
around them, are no part of the source; they are there to be spoken about.
-/

namespace BodyArchive

/-! ## Polling -/

/-- `std::task::Poll`. -/
inductive Poll (α : Type) where
  | ready (a : α)
  | pending
  deriving DecidableEq, Repr

/-- What the future that a call polls has come to. -/
inductive Answer where
  | pending
  | ready
  | canceled
  deriving DecidableEq, Repr

/-- One call of a poll function: the waker of its `Context`, and the world around it. -/
structure Context where
  waker : Nat
  answer : Answer
  /-- A `DispatchPool` is registered with the thread. -/
  pool : Bool
  deriving DecidableEq, Repr

/-- What is taken for granted: no future is canceled, and there is a pool. -/
def Context.Allowed (cx : Context) : Prop := cx.answer ≠ .canceled ∧ cx.pool = true

instance (cx : Context) : Decidable cx.Allowed :=
  inferInstanceAs (Decidable (cx.answer ≠ .canceled ∧ cx.pool = true))

/-! ## Arbiters -/

/-- All possible states of an arbiter. -/
inductive Blocking where
  /-- Not requested nor allowed. -/
  | void
  /-- Requested once. -/
  | pending
  /-- One blocking operation granted. -/
  | once
  /-- Any blocking operations granted. -/
  | always
  deriving DecidableEq, Repr

class BlockingArbiter (BA : Type) where
  default : BA
  canBlock : BA → Bool × BA
  state : BA → Blocking

/-- An arbiter that always allows blocking. -/
structure LenientArbiter where
  deriving DecidableEq, Repr

instance : BlockingArbiter LenientArbiter where
  default := ⟨⟩
  canBlock a := (true, a)
  state _ := .always

/-- An arbiter that records the need to block, and grants it once. -/
structure StatefulArbiter where
  state : Blocking
  deriving DecidableEq, Repr

namespace StatefulArbiter

def set (_ : StatefulArbiter) (state : Blocking) : StatefulArbiter := ⟨state⟩

def canBlock (a : StatefulArbiter) : Bool × StatefulArbiter :=
  match a.state with
  | .void => (false, ⟨.pending⟩)
  | .pending => (false, a)
  | .once => (true, ⟨.void⟩)
  | .always => (true, a)

end StatefulArbiter

instance : BlockingArbiter StatefulArbiter where
  default := ⟨.void⟩
  canBlock := StatefulArbiter.canBlock
  state := StatefulArbiter.state

/-! ## Adaptors -/

/-- What blocks. -/
inductive Operation where
  | writeBack
  | write
  | read
  | mapAccess
  deriving DecidableEq, Repr

inductive Mark where
  /-- A granted permit, or a dispatched closure, is entered. -/
  | enter
  | operation (op : Operation)
  | leave
  deriving DecidableEq, Repr

/-- An adaptor of a `BodySink` or a `BodyImage`: the fields that hold it, the arbiter, and the marks
left so far. -/
structure Adaptor (C BA : Type) where
  core : C
  arbiter : BA
  marks : List Mark
  deriving DecidableEq, Repr

namespace Adaptor

variable {C BA ε α : Type}

/-- An adaptor as it is built. -/
def new [BlockingArbiter BA] (core : C) : Adaptor C BA := ⟨core, BlockingArbiter.default, []⟩

/-- `arbiter.can_block()`. -/
def canBlock [BlockingArbiter BA] : Prog (Adaptor C BA) ε Bool := fun s =>
  (.ok (BlockingArbiter.canBlock s.arbiter).1,
    { s with arbiter := (BlockingArbiter.canBlock s.arbiter).2 })

/-- Leave a mark. -/
def mark (m : Mark) : Prog (Adaptor C BA) ε Unit := fun s =>
  (.ok (), { s with marks := s.marks ++ [m] })

/-- A program on the fields that hold the body. -/
def onCore (m : Prog C ε α) : Prog (Adaptor C BA) ε α := fun s =>
  ((m s.core).1, { s with core := (m s.core).2 })

/-- `arbiter.set`. -/
def setArbiter (state : Blocking) (s : Adaptor C StatefulArbiter) : Adaptor C StatefulArbiter :=
  { s with arbiter := s.arbiter.set state }

end Adaptor

/-- A poll routine over any arbiter, with what its wrappers take from their types: the value they
return when a future is canceled, and whether the tunables have a semaphore. -/
structure Routine (C α : Type) : Type 1 where
  poll : {BA : Type} → [BlockingArbiter BA] → Prog (Adaptor C BA) Empty (Poll α)
  opCanceled : α
  semaphore : C → Bool

/-! ## The wrappers -/

section Wrappers

variable {C α : Type} (r : Routine C α)

/-- The message of the assertion that a grant has been used. -/
def arbiterAssertion : String := "assertion failed: arbiter.state() == Blocking::Void"

/-- The routine, run under a permit or in a dispatched closure. -/
def Routine.run : Prog (Adaptor C StatefulArbiter) Empty (Poll α) := do
  Adaptor.mark .enter
  let res ← r.poll
  Adaptor.mark .leave
  pure res

/-- A `BlockingPermitFuture`, with the waker it will call. -/
structure PermitFuture where
  waker : Option Nat
  deriving DecidableEq, Repr

/-- A wrapper that waits for permits. -/
structure Permitted (C : Type) where
  inner : Adaptor C StatefulArbiter
  permit : Option PermitFuture

namespace Permitted

def onInner {β : Type} (m : Prog (Adaptor C StatefulArbiter) Empty β) : Prog (Permitted C) Empty β :=
  fun w => ((m w.inner).1, { w with inner := (m w.inner).2 })

/-- Poll with a permit outstanding: once it is granted, it is used up by a run of the routine. -/
def pollPermit (cx : Context) : Prog (Permitted C) Empty (Poll α) := do
  let this ← Prog.get
  match cx.answer with
  | .pending => do
    Prog.set { this with permit := some ⟨some cx.waker⟩ }
    pure .pending
  | .canceled => pure (.ready r.opCanceled)
  | .ready => do
    Prog.set { this with inner := this.inner.setArbiter .once, permit := none }
    let res ← onInner r.run
    let this ← Prog.get
    Prog.assert (this.inner.arbiter.state == .void) arbiterAssertion
    pure res

def poll (cx : Context) : Prog (Permitted C) Empty (Poll α) := do
  let this ← Prog.get
  match this.permit with
  | some _ => pollPermit r cx
  | none => do
    let res ← onInner r.poll
    let this ← Prog.get
    match res with
    | .ready a => pure (.ready a)
    | .pending =>
      if this.inner.arbiter.state = .pending then do
        Prog.assert (r.semaphore this.inner.core) "blocking semaphore required!"
        Prog.set { this with permit := some ⟨none⟩ }
        -- Recurse for correct waking.
        pollPermit r cx
      else pure .pending

end Permitted

/-- A closure that was dispatched: still to be run, run, or unwound by a panic. -/
inductive Closure (C α : Type) where
  | queued (ob : Adaptor C StatefulArbiter)
  | done (res : Poll α) (ob : Adaptor C StatefulArbiter)
  | lost

/-- A thread of the pool runs the closure. -/
def Closure.work : Closure C α → Closure C α
  | .queued ob =>
    match r.run ob with
    | (.ok res, ob) => .done res ob
    | (.err e, _) => e.elim
    | (.panic _, _) => .lost
  | closure => closure

/-- A `Dispatched` future, with the waker it will call. -/
structure Dispatched (C α : Type) where
  closure : Closure C α
  waker : Option Nat

/-- A wrapper that dispatches. -/
inductive Dispatching (C α : Type) where
  | inner (obo : Option (Adaptor C StatefulArbiter))
  | dispatch (db : Dispatched C α)

namespace Dispatching

/-- Poll with a closure dispatched: once it has been run, its result is the result. -/
def pollDispatched (cx : Context) : Prog (Dispatching C α) Empty (Poll α) := do
  match ← Prog.get with
  | .inner _ => Prog.panic "internal error: entered unreachable code"
  | .dispatch db =>
    match cx.answer with
    | .pending => do
      Prog.set (.dispatch { db with waker := some cx.waker })
      pure .pending
    | .canceled => pure (.ready r.opCanceled)
    | .ready =>
      match db.closure.work r with
      | .done res ob => do
        Prog.assert (ob.arbiter.state == .void) arbiterAssertion
        Prog.set (.inner (some ob))
        pure res
      | closure => do
        -- The closure panicked, so its future is canceled.
        Prog.set (.dispatch { db with closure := closure })
        pure (.ready r.opCanceled)

def poll (cx : Context) : Prog (Dispatching C α) Empty (Poll α) := do
  match ← Prog.get with
  | .dispatch _ => pollDispatched r cx
  | .inner none => Prog.panic "called `Option::unwrap()` on a `None` value"
  | .inner (some ob) => do
    let res ← Prog.onOwn r.poll ob
    let ob := (r.poll ob).2
    Prog.set (.inner (some ob))
    match res with
    | .ready a => pure (.ready a)
    | .pending =>
      if ob.arbiter.state = .pending then do
        let ob := ob.setArbiter .once
        Prog.set (.inner none)
        Prog.assert cx.pool "called `Result::unwrap()` on an `Err` value"
        Prog.set (.dispatch ⟨.queued ob, none⟩)
        -- Recurse for correct waking.
        pollDispatched r cx
      else pure .pending

/-- A thread of the pool gets to the closure. -/
def work : Dispatching C α → Dispatching C α
  | .inner obo => .inner obo
  | .dispatch db => .dispatch { db with closure := db.closure.work r }

end Dispatching

end Wrappers

/-! ## What a routine does -/

/-- What a poll comes to, apart from the arbiter: whether it has to block, the value it returns once
it may, what becomes of the body, and what it does while it blocks. -/
structure Service (C α : Type) where
  wants : C → Bool
  serve : C → Res Empty α × C
  operations : C → List Operation

/-- A result as that of a poll. -/
def Res.polled {α : Type} : Res Empty α → Res Empty (Poll α)
  | .ok a => .ok (.ready a)
  | .err e => e.elim
  | .panic msg => .panic msg

/-- The marks of a permit, or a dispatched closure, under which some operations were performed. -/
def span (ops : List Operation) : List Mark := .enter :: ops.map .operation ++ [.leave]

/-- The routine asks its arbiter exactly when the service wants to block, and then does what the
service does. `good` is about the body and the marks so far. -/
structure Routine.Meets {C α : Type} (r : Routine C α) (sv : Service C α)
    (good : C → List Mark → Prop) : Prop where
  now : ∀ {BA : Type} [BlockingArbiter BA] {s : Adaptor C BA} {ms : List Mark}, good s.core ms →
    sv.wants s.core = false →
    r.poll s = ((sv.serve s.core).1.polled, { s with core := (sv.serve s.core).2 })
  wait : ∀ {BA : Type} [BlockingArbiter BA] {s : Adaptor C BA} {a : BA}, sv.wants s.core = true →
    BlockingArbiter.canBlock s.arbiter = (false, a) → r.poll s = (.ok .pending, { s with arbiter := a })
  block : ∀ {BA : Type} [BlockingArbiter BA] {s : Adaptor C BA} {a : BA} {ms : List Mark},
    good s.core ms → sv.wants s.core = true → BlockingArbiter.canBlock s.arbiter = (true, a) →
    r.poll s = ((sv.serve s.core).1.polled,
      ⟨(sv.serve s.core).2, a, s.marks ++ (sv.operations s.core).map .operation⟩)
  good_now : ∀ {c : C} {ms : List Mark}, good c ms → sv.wants c = false → good (sv.serve c).2 ms
  good_block : ∀ {c : C} {ms : List Mark}, good c ms → sv.wants c = true →
    good (sv.serve c).2 (ms ++ span (sv.operations c))

/-- A step that a wrapper makes in a call of its poll function, on a service that stands at `c`:
* `Pending`, as the future of this call is, with one outstanding that will call this call's waker;
* the value of the service; or
* a panic, where the service panics, or a canceled future instead of it, for good. -/
inductive Step {W C α : Type} (sv : Service C α) (stands : W → C → Prop) (waits : W → Nat → Prop)
    (canceled : α) (cx : Context) (c : C) : Res Empty (Poll α) × W → Prop
  | pending {w : W} (hwants : sv.wants c = true) (hanswer : cx.answer = .pending)
      (hstands : stands w c) (hwaits : waits w cx.waker) :
      Step sv stands waits canceled cx c (.ok .pending, w)
  | ready {a : α} {c' : C} {w : W} (hserve : sv.serve c = (.ok a, c')) (hstands : stands w c') :
      Step sv stands waits canceled cx c (.ok (.ready a), w)
  | panic {msg : String} {c' : C} {w : W} {x : Res Empty (Poll α)}
      (hserve : sv.serve c = (.panic msg, c'))
      (hx : x = .panic msg ∨ (x = .ok (.ready canceled) ∧ stands w c)) :
      Step sv stands waits canceled cx c (x, w)

section Steps

variable {C α : Type} {r : Routine C α} {sv : Service C α} {good : C → List Mark → Prop}

/-- A run of the routine under a grant. -/
theorem Routine.Meets.run (h : r.Meets sv good) {s : Adaptor C StatefulArbiter}
    (harb : s.arbiter = ⟨.once⟩) {ms : List Mark} (hgood : good s.core ms)
    (hwants : sv.wants s.core = true) :
    (∃ a c', sv.serve s.core = (.ok a, c') ∧
      r.run s = (.ok (.ready a), ⟨c', ⟨.void⟩, s.marks ++ span (sv.operations s.core)⟩)) ∨
    ∃ msg c' s', sv.serve s.core = (.panic msg, c') ∧ r.run s = (.panic msg, s') := by
  obtain ⟨core, arbiter, marks⟩ := s
  subst harb
  have hblock := @Routine.Meets.block C α r sv good h StatefulArbiter _
    ⟨core, ⟨.once⟩, marks ++ [.enter]⟩ ⟨.void⟩ ms hgood hwants rfl
  have henter : (Adaptor.mark .enter : Prog (Adaptor C StatefulArbiter) Empty Unit)
      ⟨core, ⟨.once⟩, marks⟩ = (.ok (), ⟨core, ⟨.once⟩, marks ++ [.enter]⟩) := rfl
  rcases hserve : sv.serve core with ⟨a | e | msg, c'⟩ <;> rw [hserve] at hblock
  · refine .inl ⟨a, c', rfl, ?_⟩
    rw [Routine.run, Prog.bind_of_ok henter, Prog.bind_of_ok hblock]
    show (Res.ok (Poll.ready a), _) = _
    simp only [span, List.append_assoc, List.cons_append, List.nil_append]
  · exact e.elim
  · exact .inr ⟨msg, c', _, rfl, (Prog.bind_of_ok henter).trans (Prog.bind_of_panic hblock)⟩

namespace Permitted

/-- The wrapper stands for a service at `c`: with a permit outstanding, it has asked its arbiter. -/
structure Stands (sv : Service C α) (good : C → List Mark → Prop) (w : Permitted C) (c : C) :
    Prop where
  core_eq : w.inner.core = c
  idle : w.permit = none → w.inner.arbiter = ⟨.void⟩
  asked : w.permit ≠ none → sv.wants c = true
  is_good : good c w.inner.marks

/-- A permit is outstanding, and will call the waker. -/
def Waits (w : Permitted C) (waker : Nat) : Prop := w.permit = some ⟨some waker⟩

theorem pollPermit_step (h : r.Meets sv good) {w : Permitted C} {c : C} {cx : Context}
    (hcx : cx.Allowed) (hcore : w.inner.core = c) (hpermit : w.permit ≠ none)
    (hwants : sv.wants c = true) (hgood : good c w.inner.marks) :
    Step sv (Stands sv good) Waits r.opCanceled cx c (pollPermit r cx w) := by
  obtain ⟨inner, permit⟩ := w
  simp only at hcore hpermit hgood
  subst hcore
  obtain ⟨waker, answer, pool⟩ := cx
  unfold pollPermit
  rw [Prog.get_bind]
  cases answer with
  | pending =>
    refine .pending hwants rfl ⟨rfl, ?_, fun _ => hwants, hgood⟩ rfl
    intro hnone
    cases hnone
  | canceled => exact absurd rfl hcx.1
  | ready =>
    have hrun := h.run (s := inner.setArbiter .once) rfl hgood hwants
    rcases hrun with ⟨a, c', hserve, hrun⟩ | ⟨msg, c', s', hserve, hrun⟩
    · have hinner : onInner r.run (⟨inner.setArbiter .once, none⟩ : Permitted C) =
          (.ok (.ready a), ⟨⟨c', ⟨.void⟩, inner.marks ++ span (sv.operations inner.core)⟩, none⟩) := by
        rw [onInner, hrun]
        rfl
      simp only [Prog.set_bind]
      rw [Prog.bind_of_ok hinner, Prog.get_bind]
      show Step _ _ _ _ _ _ ((Prog.assert true _ >>= _) _)
      rw [Prog.bind_of_ok (Prog.assert_true rfl _ _)]
      refine .ready hserve ⟨rfl, fun _ => rfl, fun hne => absurd rfl hne, ?_⟩
      have hnext := h.good_block hgood hwants
      rw [show sv.serve inner.core = _ from hserve] at hnext
      exact hnext
    · have hinner : onInner r.run (⟨inner.setArbiter .once, none⟩ : Permitted C) =
          (.panic msg, ⟨s', none⟩) := by
        rw [onInner, hrun]
      simp only [Prog.set_bind]
      rw [Prog.bind_of_panic hinner]
      exact .panic hserve (.inl rfl)

/-- **A call of a wrapper that waits for permits** is a step of the service: nothing else happens,
in whatever order permits are granted. -/
theorem step (h : r.Meets sv good) {w : Permitted C} {c : C} (hw : Stands sv good w c)
    (hsemaphore : r.semaphore c = true) {cx : Context} (hcx : cx.Allowed) :
    Step sv (Stands sv good) Waits r.opCanceled cx c (poll r cx w) := by
  obtain ⟨⟨core, arbiter, marks⟩, permit⟩ := w
  obtain ⟨hcore, hidle, hasked, hgood⟩ := hw
  simp only at hcore hidle hgood
  subst hcore
  unfold poll
  rw [Prog.get_bind]
  cases permit with
  | some pf =>
    exact pollPermit_step h hcx rfl (Option.some_ne_none _) (hasked (Option.some_ne_none _))
      hgood
  | none =>
    obtain rfl : arbiter = ⟨.void⟩ := hidle rfl
    cases hwants : sv.wants core with
    | false =>
      have hnow := @Routine.Meets.now C α r sv good h StatefulArbiter _ ⟨core, ⟨.void⟩, marks⟩ marks
        hgood hwants
      have hnext := h.good_now hgood hwants
      have hinner : onInner r.poll (⟨⟨core, ⟨.void⟩, marks⟩, none⟩ : Permitted C) =
          ((sv.serve core).1.polled, ⟨⟨(sv.serve core).2, ⟨.void⟩, marks⟩, none⟩) := by
        rw [onInner, hnow]
      rcases hserve : sv.serve core with ⟨a | e | msg, c'⟩ <;> rw [hserve] at hinner hnext
      · simp only [Res.polled] at hinner
        dsimp only
        rw [Prog.bind_of_ok hinner]
        exact .ready hserve ⟨rfl, fun _ => rfl, fun hne => absurd rfl hne, hnext⟩
      · exact e.elim
      · simp only [Res.polled] at hinner
        dsimp only
        rw [Prog.bind_of_panic hinner]
        exact .panic hserve (.inl rfl)
    | true =>
      -- The arbiter is asked, and then a permit is.
      have hwait := @Routine.Meets.wait C α r sv good h StatefulArbiter _ ⟨core, ⟨.void⟩, marks⟩
        ⟨.pending⟩ hwants rfl
      have hinner : onInner r.poll (⟨⟨core, ⟨.void⟩, marks⟩, none⟩ : Permitted C) =
          (.ok .pending, ⟨⟨core, ⟨.pending⟩, marks⟩, none⟩) := by
        rw [onInner, hwait]
      dsimp only
      rw [Prog.bind_of_ok hinner, Prog.get_bind]
      show Step _ _ _ _ _ _ ((Prog.assert (r.semaphore core) _ >>= _) _)
      rw [Prog.bind_of_ok (Prog.assert_true hsemaphore _ _), Prog.set_bind]
      exact pollPermit_step h hcx rfl (Option.some_ne_none _) hwants hgood

end Permitted

namespace Dispatching

/-- The wrapper stands for a service at `c`: while a closure is dispatched, at what the service was
at before it, whether it has been run or not. -/
inductive Stands (sv : Service C α) (good : C → List Mark → Prop) : Dispatching C α → C → Prop
  | inner {ob : Adaptor C StatefulArbiter} (harb : ob.arbiter = ⟨.void⟩) (hgood : good ob.core ob.marks) :
      Stands sv good (.inner (some ob)) ob.core
  | queued {ob : Adaptor C StatefulArbiter} {waker : Option Nat} (harb : ob.arbiter = ⟨.once⟩)
      (hwants : sv.wants ob.core = true) (hgood : good ob.core ob.marks) :
      Stands sv good (.dispatch ⟨.queued ob, waker⟩) ob.core
  | done {ob : Adaptor C StatefulArbiter} {waker : Option Nat} {c : C} {a : α}
      (harb : ob.arbiter = ⟨.void⟩) (hwants : sv.wants c = true)
      (hserve : sv.serve c = (.ok a, ob.core)) (hgood : good ob.core ob.marks) :
      Stands sv good (.dispatch ⟨.done (.ready a) ob, waker⟩) c
  | lost {waker : Option Nat} {c c' : C} {msg : String} (hwants : sv.wants c = true)
      (hserve : sv.serve c = (.panic msg, c')) : Stands sv good (.dispatch ⟨.lost, waker⟩) c

/-- A closure is dispatched, and its future will call the waker. -/
def Waits (w : Dispatching C α) (waker : Nat) : Prop := ∃ closure, w = .dispatch ⟨closure, some waker⟩

/-- Running a closure changes nothing that can be seen. -/
theorem work_step (h : r.Meets sv good) {w : Dispatching C α} {c : C} (hw : Stands sv good w c) :
    Stands sv good (w.work r) c := by
  cases hw with
  | inner harb hgood => exact .inner harb hgood
  | @queued ob waker harb hwants hgood =>
    rcases h.run harb hgood hwants with ⟨a, c', hserve, hrun⟩ | ⟨msg, c', s', hserve, hrun⟩
    · have hdone : Closure.work r (.queued ob) =
          .done (.ready a) ⟨c', ⟨.void⟩, ob.marks ++ span (sv.operations ob.core)⟩ := by
        rw [Closure.work, hrun]
      have hnext := h.good_block hgood hwants
      rw [hserve] at hnext
      show Stands sv good (.dispatch ⟨Closure.work r (.queued ob), waker⟩) ob.core
      rw [hdone]
      exact .done rfl hwants hserve hnext
    · have hlost : Closure.work r (.queued ob) = .lost := by
        rw [Closure.work, hrun]
      show Stands sv good (.dispatch ⟨Closure.work r (.queued ob), waker⟩) ob.core
      rw [hlost]
      exact .lost hwants hserve
  | done harb hwants hserve hgood => exact .done harb hwants hserve hgood
  | lost hwants hserve => exact .lost hwants hserve

theorem pollDispatched_step (h : r.Meets sv good) {db : Dispatched C α} {c : C} {cx : Context}
    (hcx : cx.Allowed) (hw : Stands sv good (.dispatch db) c) :
    Step sv (Stands sv good) Waits r.opCanceled cx c (pollDispatched r cx (.dispatch db)) := by
  obtain ⟨closure, waker⟩ := db
  obtain ⟨waker', answer, pool⟩ := cx
  unfold pollDispatched
  rw [Prog.get_bind]
  cases answer with
  | pending =>
    have hwants : sv.wants c = true := by
      cases hw with
      | queued _ hwants _ => exact hwants
      | done _ hwants _ _ => exact hwants
      | lost hwants _ => exact hwants
    refine .pending hwants rfl ?_ ⟨closure, rfl⟩
    cases hw with
    | queued harb hwants hgood => exact .queued harb hwants hgood
    | done harb hwants hserve hgood => exact .done harb hwants hserve hgood
    | lost hwants hserve => exact .lost hwants hserve
  | canceled => exact absurd rfl hcx.1
  | ready =>
    have hworked : Stands sv good (.dispatch ⟨closure.work r, waker⟩) c := work_step h hw
    dsimp only
    cases hclosure : closure.work r with
    | queued ob =>
      -- A closure that has been run is not waiting to be.
      cases closure with
      | queued ob' =>
        rcases hrun : r.run ob' with ⟨res | e | msg, s'⟩
        · rw [Closure.work, hrun] at hclosure
          cases hclosure
        · exact e.elim
        · rw [Closure.work, hrun] at hclosure
          cases hclosure
      | done res ob' => cases hclosure
      | lost => cases hclosure
    | done res ob =>
      rw [hclosure] at hworked
      cases hworked with
      | done harb hwants hserve hgood =>
        dsimp only
        rw [harb]
        exact .ready hserve (.inner harb hgood)
    | lost =>
      rw [hclosure] at hworked
      cases hworked with
      | lost hwants hserve => exact .panic hserve (.inr ⟨rfl, .lost hwants hserve⟩)

/-- **A call of a wrapper that dispatches** is a step of the service, whenever its closures are
run. -/
theorem step (h : r.Meets sv good) {w : Dispatching C α} {c : C} (hw : Stands sv good w c)
    {cx : Context} (hcx : cx.Allowed) :
    Step sv (Stands sv good) Waits r.opCanceled cx c (poll r cx w) := by
  cases hw with
  | @inner ob harb hgood =>
    obtain ⟨core, arbiter, marks⟩ := ob
    simp only at harb hgood
    subst harb
    unfold poll
    rw [Prog.get_bind]
    dsimp only
    cases hwants : sv.wants core with
    | false =>
      have hnow := @Routine.Meets.now C α r sv good h StatefulArbiter _ ⟨core, ⟨.void⟩, marks⟩ marks
        hgood hwants
      have hnext := h.good_now hgood hwants
      rcases hserve : sv.serve core with ⟨a | e | msg, c'⟩ <;> simp only [hserve, Res.polled] at hnow hnext
      · have hown : (Prog.onOwn r.poll (⟨core, ⟨.void⟩, marks⟩ : Adaptor C StatefulArbiter) :
          Prog (Dispatching C α) Empty (Poll α))
            (.inner (some ⟨core, ⟨.void⟩, marks⟩)) =
              (.ok (.ready a), .inner (some ⟨core, ⟨.void⟩, marks⟩)) := by
          rw [Prog.onOwn_run, hnow]
        rw [Prog.bind_of_ok hown, hnow]
        exact .ready hserve (@Stands.inner C α sv good ⟨c', ⟨.void⟩, marks⟩ rfl hnext)
      · exact e.elim
      · have hown : (Prog.onOwn r.poll (⟨core, ⟨.void⟩, marks⟩ : Adaptor C StatefulArbiter) :
          Prog (Dispatching C α) Empty (Poll α))
            (.inner (some ⟨core, ⟨.void⟩, marks⟩)) =
              (.panic msg, .inner (some ⟨core, ⟨.void⟩, marks⟩)) := by
          rw [Prog.onOwn_run, hnow]
        rw [Prog.bind_of_panic hown]
        exact .panic hserve (.inl rfl)
    | true =>
      have hwait := @Routine.Meets.wait C α r sv good h StatefulArbiter _ ⟨core, ⟨.void⟩, marks⟩
        ⟨.pending⟩ hwants rfl
      have hown : (Prog.onOwn r.poll (⟨core, ⟨.void⟩, marks⟩ : Adaptor C StatefulArbiter) :
          Prog (Dispatching C α) Empty (Poll α))
          (.inner (some ⟨core, ⟨.void⟩, marks⟩)) =
            (.ok .pending, .inner (some ⟨core, ⟨.void⟩, marks⟩)) := by
        rw [Prog.onOwn_run, hwait]
      rw [Prog.bind_of_ok hown, hwait, Prog.set_bind]
      show Step _ _ _ _ _ _ ((Prog.set _ >>= fun _ => Prog.assert cx.pool _ >>= _) _)
      rw [Prog.set_bind, Prog.bind_of_ok (Prog.assert_true hcx.2 _ _), Prog.set_bind]
      exact pollDispatched_step h hcx
        (@Stands.queued C α sv good ⟨core, ⟨.once⟩, marks⟩ none rfl hwants hgood)
  | queued harb hwants hgood => exact pollDispatched_step h hcx (.queued harb hwants hgood)
  | done harb hwants hserve hgood => exact pollDispatched_step h hcx (.done harb hwants hserve hgood)
  | lost hwants hserve => exact pollDispatched_step h hcx (.lost hwants hserve)

end Dispatching

namespace Adaptor

/-- An adaptor that may always block stands for its service. -/
structure Stands (good : C → List Mark → Prop) (s : Adaptor C LenientArbiter) (c : C) : Prop where
  core_eq : s.core = c
  is_good : ∃ ms, good c ms

/-- **A call of an adaptor that may always block** is a step of the service. -/
theorem step (h : r.Meets sv good) {s : Adaptor C LenientArbiter} {c : C} (hs : s.Stands good c)
    (cx : Context) : Step sv (Stands good) (fun _ _ => False) r.opCanceled cx c (r.poll s) := by
  obtain ⟨core, arbiter, marks⟩ := s
  obtain ⟨hcore, ms, hgood⟩ := hs
  simp only at hcore
  subst hcore
  have hpoll : ∃ ms' marks', good (sv.serve core).2 ms' ∧
      r.poll (⟨core, arbiter, marks⟩ : Adaptor C LenientArbiter) =
        ((sv.serve core).1.polled, ⟨(sv.serve core).2, arbiter, marks'⟩) := by
    cases hwants : sv.wants core with
    | false => exact ⟨ms, marks, h.good_now hgood hwants, h.now hgood hwants⟩
    | true => exact ⟨_, _, h.good_block hgood hwants, h.block hgood hwants rfl⟩
  obtain ⟨ms', marks', hnext, hpoll⟩ := hpoll
  rcases hserve : sv.serve core with ⟨a | e | msg, c'⟩ <;> rw [hserve] at hpoll hnext <;> rw [hpoll]
  · exact .ready hserve ⟨rfl, ms', hnext⟩
  · exact e.elim
  · exact .panic hserve (.inl rfl)

end Adaptor

end Steps

end BodyArchive
