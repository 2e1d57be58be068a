import Mathlib.Logic.Relation
import Mathlib.Logic.Function.Basic

/-!
# A mutex

Threads around a `Mutex`, as it is used by callers that unwrap the result of `lock`: a thread that panics
while it holds the lock poisons it, and whoever gets the lock after that panics too.

What a thread does while it holds the lock is a `Protocol`, in steps that the steps of the other threads
may come between. `reached_serial` says that it is all the same as if the threads had their turns one after
the other, each from its beginning to its end.
-/

namespace BodyArchive

/-- Where a thread is. While it holds the lock, it has an `L` of its own. -/
inductive Place (L : Type) where
  | outside
  /-- In the call of `lock`. -/
  | waiting
  | inside (l : L)
  | panicked

/-- What threads do with the guarded value while they hold the lock. -/
structure Protocol (T σ L : Type) where
  /-- It has got the lock. -/
  enter : T → σ → L → σ → Prop
  work : T → L → σ → L → σ → Prop
  /-- It can give the lock back. -/
  leave : T → L → σ → Prop
  panics : T → L → σ → σ → Prop

/-- Threads around one mutex. -/
structure Threads (T σ L : Type) where
  held : Bool
  poisoned : Bool
  /-- The guarded value. -/
  value : σ
  place : T → Place L
  /-- Who has had the lock, in order. -/
  turns : List T

namespace Threads

variable {T σ L : Type} [DecidableEq T]

/-- A new mutex. -/
def start (v : σ) : Threads T σ L := ⟨false, false, v, fun _ => .outside, []⟩

def move (s : Threads T σ L) (t : T) (a : Place L) : T → Place L := Function.update s.place t a

/-- One step of one thread. -/
inductive Step (p : Protocol T σ L) : Threads T σ L → Threads T σ L → Prop
  | ask {s : Threads T σ L} {t : T} (h : s.place t = .outside) :
      Step p s { s with place := s.move t .waiting }
  | enter {s : Threads T σ L} {t : T} {l : L} {v : σ} (h : s.place t = .waiting)
      (free : s.held = false) (sound : s.poisoned = false) (hv : p.enter t s.value l v) :
      Step p s ⟨true, false, v, s.move t (.inside l), s.turns ++ [t]⟩
  /-- The lock is poisoned: `unwrap` panics, and gives it back. -/
  | poisoned {s : Threads T σ L} {t : T} (h : s.place t = .waiting) (free : s.held = false)
      (hpoisoned : s.poisoned = true) : Step p s { s with place := s.move t .panicked }
  | work {s : Threads T σ L} {t : T} {l l' : L} {v : σ} (h : s.place t = .inside l)
      (hv : p.work t l s.value l' v) :
      Step p s { s with value := v, place := s.move t (.inside l') }
  | leave {s : Threads T σ L} {t : T} {l : L} (h : s.place t = .inside l)
      (hl : p.leave t l s.value) :
      Step p s { s with held := false, place := s.move t .outside }
  | panics {s : Threads T σ L} {t : T} {l : L} {v : σ} (h : s.place t = .inside l)
      (hv : p.panics t l s.value v) :
      Step p s ⟨false, true, v, s.move t .panicked, s.turns⟩

/-- What steps lead to, in any number. -/
def Leads (p : Protocol T σ L) : Threads T σ L → Threads T σ L → Prop :=
  Relation.ReflTransGen (Step p)

/-- Nobody holds the lock. -/
def Empty (s : Threads T σ L) : Prop := ∀ t l, s.place t ≠ .inside l

/-- The thread holds the lock, and no other does. -/
def Only (s : Threads T σ L) (t : T) (l : L) : Prop :=
  s.place t = .inside l ∧ ∀ u l', s.place u = .inside l' → u = t

end Threads

/-! ## Turns one after the other -/

section Serial

variable {T σ L : Type} (p : Protocol T σ L)

/-- A turn of the thread so far, with no other thread's steps between. -/
inductive Turn (t : T) : σ → L → σ → Prop
  | enter {v v' : σ} {l : L} (hv : p.enter t v l v') : Turn t v l v'
  | work {v v' v'' : σ} {l l' : L} (sofar : Turn t v l v') (hv : p.work t l v' l' v'') : Turn t v l' v''

/-- Whole turns, one after the other. -/
inductive Serial (v₀ : σ) : List T → σ → Prop
  | start : Serial v₀ [] v₀
  | next {ts : List T} {t : T} {l : L} {v v' : σ} (sofar : Serial v₀ ts v) (turn : Turn p t v l v')
      (hl : p.leave t l v') : Serial v₀ (ts ++ [t]) v'

end Serial

namespace Threads

variable {T σ L : Type} [DecidableEq T] {p : Protocol T σ L}

/-- The threads are where serial turns would have them. -/
inductive AsSerial (p : Protocol T σ L) (v₀ : σ) (s : Threads T σ L) : Prop
  | free (serial : Serial p v₀ s.turns s.value) (held : s.held = false)
      (sound : s.poisoned = false) (empty : s.Empty)
  | busy (ts : List T) (t : T) (l : L) (v : σ) (serial : Serial p v₀ ts v)
      (turns : s.turns = ts ++ [t]) (turn : Turn p t v l s.value) (held : s.held = true)
      (sound : s.poisoned = false) (only : s.Only t l)
  | broken (ts : List T) (t : T) (l : L) (v v' : σ) (serial : Serial p v₀ ts v)
      (turns : s.turns = ts ++ [t]) (turn : Turn p t v l v') (panicked : p.panics t l v' s.value)
      (held : s.held = false) (poisoned : s.poisoned = true) (empty : s.Empty)

@[simp] theorem move_self (s : Threads T σ L) (t : T) (a : Place L) : s.move t a t = a :=
  Function.update_self ..

theorem move_ne (s : Threads T σ L) {t u : T} (a : Place L) (h : u ≠ t) :
    s.move t a u = s.place u := Function.update_of_ne h ..

/-- A thread that was not inside and does not get there changes nothing for those that are. -/
theorem move_inside {s : Threads T σ L} {t : T} {a : Place L} (hs : ∀ l, s.place t ≠ .inside l)
    (ha : ∀ l, a ≠ .inside l) {u : T} {l : L} :
    s.move t a u = .inside l ↔ s.place u = .inside l := by
  by_cases hu : u = t
  · subst hu
    rw [move_self]
    exact ⟨fun h => absurd h (ha l), fun h => absurd h (hs l)⟩
  · rw [move_ne s a hu]

/-- The one thread inside is no longer there. -/
theorem Only.out {s : Threads T σ L} {t : T} {l : L} (h : s.Only t l) {a : Place L}
    (ha : ∀ l, a ≠ .inside l) (u : T) (l' : L) : s.move t a u ≠ .inside l' := by
  by_cases hu : u = t
  · subst hu
    rw [move_self]
    exact ha l'
  · rw [move_ne s a hu]
    exact fun h' => hu (h.2 u l' h')

/-- A thread gets inside, or stays there. -/
theorem move_only {s : Threads T σ L} {t : T} (h : ∀ u l, s.place u = .inside l → u = t) (l : L)
    (u : T) (l' : L) (hu : s.move t (.inside l) u = .inside l') : u = t := by
  by_contra hne
  rw [move_ne s _ hne] at hu
  exact hne (h u l' hu)

/-- The steps of threads that do not hold the lock. -/
theorem AsSerial.aside {v₀ : σ} {s : Threads T σ L} (h : AsSerial p v₀ s) {t : T} {a : Place L}
    (hs : ∀ l, s.place t ≠ .inside l) (ha : ∀ l, a ≠ .inside l) :
    AsSerial p v₀ { s with place := s.move t a } := by
  have hsame {u : T} {l : L} : s.move t a u = .inside l ↔ s.place u = .inside l := move_inside hs ha
  cases h with
  | free serial held sound empty =>
    exact .free serial held sound fun u l h => empty u l (hsame.mp h)
  | busy ts t' l v serial turns turn held sound only =>
    exact .busy ts t' l v serial turns turn held sound
      ⟨hsame.mpr only.1, fun u l' h => only.2 u l' (hsame.mp h)⟩
  | broken ts t' l v v' serial turns turn panicked held poisoned empty =>
    exact .broken ts t' l v v' serial turns turn panicked held poisoned
      fun u l h => empty u l (hsame.mp h)

omit [DecidableEq T] in
/-- A thread inside is the one that has its turn. -/
theorem AsSerial.turn {v₀ : σ} {s : Threads T σ L} (h : AsSerial p v₀ s) {t : T} {l : L}
    (hl : s.place t = .inside l) :
    ∃ ts v, Serial p v₀ ts v ∧ s.turns = ts ++ [t] ∧ Turn p t v l s.value ∧ s.held = true ∧
      s.poisoned = false ∧ s.Only t l := by
  cases h with
  | free _ _ _ empty => exact absurd hl (empty t l)
  | busy ts u l' v serial turns turn held sound only =>
    obtain rfl := only.2 t l hl
    obtain rfl : l = l' := by
      have hsame := hl.symm.trans only.1
      cases hsame
      rfl
    exact ⟨ts, v, serial, turns, turn, held, sound, only⟩
  | broken _ _ _ _ _ _ _ _ _ _ _ empty => exact absurd hl (empty t l)

/-- **Every step keeps it so.** -/
theorem AsSerial.step {v₀ : σ} {s s' : Threads T σ L} (h : AsSerial p v₀ s) (hstep : Step p s s') :
    AsSerial p v₀ s' := by
  cases hstep with
  | @ask t ht =>
    refine h.aside (fun l hl => ?_) fun l hl => by cases hl
    rw [ht] at hl
    cases hl
  | @poisoned t ht _ _ =>
    refine h.aside (fun l hl => ?_) fun l hl => by cases hl
    rw [ht] at hl
    cases hl
  | @enter t l v ht hfree hsound hv =>
    -- The lock is free and not poisoned, so all turns before are whole ones.
    cases h with
    | free serial _ _ empty =>
      have hnone (u : T) (l' : L) (hu : s.place u = .inside l') : u = t := absurd hu (empty u l')
      exact .busy s.turns t l s.value serial rfl (.enter hv) rfl rfl
        ⟨move_self s t _, move_only hnone l⟩
    | busy _ _ _ _ _ _ _ held =>
      rw [held] at hfree
      cases hfree
    | broken _ _ _ _ _ _ _ _ _ _ poisoned =>
      rw [poisoned] at hsound
      cases hsound
  | @work t l l' v ht hv =>
    obtain ⟨ts, v₁, serial, turns, turn, held, sound, only⟩ := h.turn ht
    exact .busy ts t l' v₁ serial turns (.work turn hv) held sound
      ⟨move_self s t _, move_only only.2 l'⟩
  | @leave t l ht hl =>
    obtain ⟨ts, v, serial, turns, turn, -, sound, only⟩ := h.turn ht
    refine .free ?_ rfl sound (only.out fun l hl => by cases hl)
    show Serial p v₀ s.turns s.value
    rw [turns]
    exact .next serial turn hl
  | @panics t l v ht hv =>
    obtain ⟨ts, v₁, serial, turns, turn, -, -, only⟩ := h.turn ht
    exact .broken ts t l v₁ s.value serial turns turn hv rfl rfl (only.out fun l hl => by cases hl)

/-- **A lock makes turns**: whatever order the steps come in, all is as if the threads had their turns
one after the other. -/
theorem reached_serial {v₀ : σ} {s : Threads T σ L} (h : Leads p (start v₀) s) :
    AsSerial p v₀ s := by
  induction h with
  | refl => exact .free .start rfl rfl fun t l h => by cases h
  | tail _ hstep ih => exact ih.step hstep

omit [DecidableEq T] in
/-- At most one thread holds the lock. -/
theorem AsSerial.exclusive {v₀ : σ} {s : Threads T σ L} (h : AsSerial p v₀ s) {t u : T} {l l' : L}
    (ht : s.place t = .inside l) (hu : s.place u = .inside l') : t = u := by
  obtain ⟨-, -, -, -, -, -, -, only⟩ := h.turn hu
  exact only.2 t l ht

/-- **A poisoned lock is never held again**, and what it guards stays. -/
theorem AsSerial.stays {v₀ : σ} {s s' : Threads T σ L} (h : AsSerial p v₀ s)
    (hpoisoned : s.poisoned = true) (hleads : Leads p s s') :
    s'.poisoned = true ∧ s'.Empty ∧ s'.value = s.value ∧ s'.turns = s.turns := by
  have hempty {s : Threads T σ L} (h : AsSerial p v₀ s) (hpoisoned : s.poisoned = true) : s.Empty := by
    cases h with
    | free _ _ sound _ =>
      rw [sound] at hpoisoned
      cases hpoisoned
    | busy _ _ _ _ _ _ _ _ sound _ =>
      rw [sound] at hpoisoned
      cases hpoisoned
    | broken _ _ _ _ _ _ _ _ _ _ _ empty => exact empty
  have hrun : AsSerial p v₀ s' ∧ s'.poisoned = true ∧ s'.value = s.value ∧ s'.turns = s.turns := by
    induction hleads with
    | refl => exact ⟨h, hpoisoned, rfl, rfl⟩
    | tail _ hstep ih =>
      obtain ⟨hserial, hpoisoned', hvalue, hturns⟩ := ih
      refine ⟨hserial.step hstep, ?_⟩
      cases hstep with
      | ask _ => exact ⟨hpoisoned', hvalue, hturns⟩
      | enter _ _ sound _ =>
        rw [sound] at hpoisoned'
        cases hpoisoned'
      | poisoned _ _ _ => exact ⟨hpoisoned', hvalue, hturns⟩
      | work hl _ => exact absurd hl (hempty hserial hpoisoned' _ _)
      | leave hl _ => exact absurd hl (hempty hserial hpoisoned' _ _)
      | panics hl _ => exact absurd hl (hempty hserial hpoisoned' _ _)
  exact ⟨hrun.2.1, hempty hrun.1 hrun.2.1, hrun.2.2⟩

end Threads

end BodyArchive
