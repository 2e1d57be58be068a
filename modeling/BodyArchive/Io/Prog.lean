import Mathlib.Tactic

/-!
# Programs with state, errors and panics

The shallow embedding's computations. A `Prog σ ε α` runs on a state `σ` and ends in one of
three ways: it returns a value, it returns an error (the `Err` a caller may handle), or it
panics (a failed assertion, an arithmetic underflow). Unlike an exception monad over a pure
result, the state survives every ending: what a failed call leaves behind is part of its
meaning.

`loop` is the only unbounded control structure. It carries a *variant*, a bound on the
remaining iterations read off the state, so that every program is total and evaluates;
`loop_eq` says that under a decreasing variant the bound is never felt.
-/

namespace BodyArchive

/-- How a computation ends. -/
inductive Res (ε α : Type) where
  | ok (a : α)
  | err (e : ε)
  | panic (msg : String)
  deriving DecidableEq, Repr

namespace Res

variable {ε α : Type}

/-- The computation did not panic. -/
def Safe : Res ε α → Prop
  | .panic _ => False
  | _ => True

/-- A result that is no panic. -/
def ofExcept : Except ε α → Res ε α
  | .ok a => .ok a
  | .error e => .err e

instance : (r : Res ε α) → Decidable r.Safe
  | .ok _ => isTrue trivial
  | .err _ => isTrue trivial
  | .panic _ => isFalse id

@[simp] theorem safe_ok (a : α) : (Res.ok a : Res ε α).Safe := trivial

@[simp] theorem safe_err (e : ε) : (Res.err e : Res ε α).Safe := trivial

@[simp] theorem safe_ofExcept (x : Except ε α) : (ofExcept x).Safe := by
  cases x <;> trivial

theorem ofExcept_ok {x : Except ε α} {a : α} (h : ofExcept x = .ok a) : x = .ok a := by
  cases x <;> cases h
  rfl

@[simp] theorem not_safe_panic (m : String) : ¬ (Res.panic m : Res ε α).Safe := id

end Res

theorem except_bind_eq_ok {ε α β : Type} {x : Except ε α} {f : α → Except ε β} {b : β} :
    (x >>= f) = .ok b ↔ ∃ a, x = .ok a ∧ f a = .ok b := by
  cases x with
  | error e =>
    constructor
    · intro h
      cases h
    · rintro ⟨a, h, -⟩
      cases h
  | ok a =>
    constructor
    · intro h
      exact ⟨a, rfl, h⟩
    · rintro ⟨a', ha, h⟩
      cases ha
      exact h

/-- A computation over the state `σ` that may fail with `ε`. -/
def Prog (σ ε α : Type) := σ → Res ε α × σ

namespace Prog

variable {σ τ ε ε' α β : Type}

/-! ## The combinators -/

/-- Sequencing: the first ending that is not a value is the ending of the whole. -/
def bind (m : Prog σ ε α) (f : α → Prog σ ε β) : Prog σ ε β := fun s =>
  match m s with
  | (.ok a, s') => f a s'
  | (.err e, s') => (.err e, s')
  | (.panic p, s') => (.panic p, s')

instance : Monad (Prog σ ε) where
  pure a := fun s => (.ok a, s)
  bind := bind

/-- Return an error. -/
def throw (e : ε) : Prog σ ε α := fun s => (.err e, s)

/-- Panic with a message. -/
def panic (msg : String) : Prog σ ε α := fun s => (.panic msg, s)

/-- An assertion: panics when the condition fails. -/
def assert (b : Bool) (msg : String) : Prog σ ε Unit := if b then pure () else panic msg

/-- Read the state. -/
def get : Prog σ ε σ := fun s => (.ok s, s)

/-- Replace the state. -/
def set (s : σ) : Prog σ ε Unit := fun _ => (.ok (), s)

/-- The `?` operator's conversion of an error into the caller's error type. -/
def mapErr (f : ε → ε') (m : Prog σ ε α) : Prog σ ε' α := fun s =>
  match m s with
  | (.ok a, s') => (.ok a, s')
  | (.err e, s') => (.err (f e), s')
  | (.panic p, s') => (.panic p, s')

/-- A result as a value, to be matched on. -/
def attempt (m : Prog σ ε α) : Prog σ ε' (Except ε α) := fun s =>
  match m s with
  | (.ok a, s') => (.ok (.ok a), s')
  | (.err e, s') => (.ok (.error e), s')
  | (.panic p, s') => (.panic p, s')

/-- `let _ = …`: an error is dropped. -/
def dropErr (m : Prog σ ε Unit) : Prog σ ε' Unit := fun s =>
  match m s with
  | (.ok (), s') => (.ok (), s')
  | (.err _, s') => (.ok (), s')
  | (.panic p, s') => (.panic p, s')

/-- A result already at hand, as a program. -/
def ofRes (r : Res ε α) : Prog σ ε α := fun s => (r, s)

/-- Run a program on a value of its own, keeping the outer state as it is. -/
def onOwn (m : Prog τ ε α) (t : τ) : Prog σ ε α := fun s => ((m t).1, s)

/-- Run a program on a value, and return what becomes of the value. -/
def evolve (m : Prog τ ε Unit) (t : τ) : Prog σ ε τ := fun s =>
  match m t with
  | (.ok (), t') => (.ok t', s)
  | (.err e, _) => (.err e, s)
  | (.panic p, _) => (.panic p, s)

/-- Run a program on the first half of a pair of states. -/
def onFst (m : Prog σ ε α) : Prog (σ × τ) ε α := fun s => ((m s.1).1, (m s.1).2, s.2)

/-- Run a program on the second half of a pair of states. -/
def onSnd (m : Prog τ ε α) : Prog (σ × τ) ε α := fun s => ((m s.2).1, s.1, (m s.2).2)

/-- Run a program on a pair of states whose first half is a local value, dropped at the end. -/
def withLocal (r : σ) (m : Prog (σ × τ) ε α) : Prog τ ε α := fun t =>
  ((m (r, t)).1, (m (r, t)).2.2)

/-! ## Running them -/

@[simp] theorem pure_run (a : α) (s : σ) : (pure a : Prog σ ε α) s = (.ok a, s) := rfl

@[simp] theorem throw_run (e : ε) (s : σ) : (throw e : Prog σ ε α) s = (.err e, s) := rfl

@[simp] theorem panic_run (p : String) (s : σ) : (panic p : Prog σ ε α) s = (.panic p, s) := rfl

@[simp] theorem get_run (s : σ) : (get : Prog σ ε σ) s = (.ok s, s) := rfl

@[simp] theorem set_run (s t : σ) : (set t : Prog σ ε Unit) s = (.ok (), t) := rfl

@[simp] theorem ofRes_run (r : Res ε α) (s : σ) : (ofRes r : Prog σ ε α) s = (r, s) := rfl

@[simp] theorem onOwn_run (m : Prog τ ε α) (t : τ) (s : σ) :
    (onOwn m t : Prog σ ε α) s = ((m t).1, s) := rfl

theorem evolve_of_ok {m : Prog τ ε Unit} {t t' : τ} (h : m t = (.ok (), t')) (s : σ) :
    (evolve m t : Prog σ ε τ) s = (.ok t', s) := by
  rw [evolve, h]

theorem evolve_of_err {m : Prog τ ε Unit} {t t' : τ} {e : ε} (h : m t = (.err e, t')) (s : σ) :
    (evolve m t : Prog σ ε τ) s = (.err e, s) := by
  rw [evolve, h]

theorem evolve_state {m : Prog τ ε Unit} {t t' : τ} {s s' : σ}
    (h : (evolve m t : Prog σ ε τ) s = (.ok t', s')) : s' = s := by
  rw [evolve] at h
  split at h <;> cases h
  rfl

theorem onFst_of {m : Prog σ ε α} {s s' : σ} {x : Res ε α} (h : m s = (x, s')) (t : τ) :
    (onFst m : Prog (σ × τ) ε α) (s, t) = (x, s', t) := by
  simp only [onFst, h]

theorem onSnd_of {m : Prog τ ε α} {t t' : τ} {x : Res ε α} (h : m t = (x, t')) (s : σ) :
    (onSnd m : Prog (σ × τ) ε α) (s, t) = (x, s, t') := by
  simp only [onSnd, h]

theorem withLocal_of {m : Prog (σ × τ) ε α} {r r' : σ} {t t' : τ} {x : Res ε α}
    (h : m (r, t) = (x, r', t')) : (withLocal r m : Prog τ ε α) t = (x, t') := by
  simp only [withLocal, h]

theorem assert_true {b : Bool} (h : b = true) (msg : String) (s : σ) :
    (assert b msg : Prog σ ε Unit) s = (.ok (), s) := by
  subst h; rfl

theorem assert_false {b : Bool} (h : b = false) (msg : String) (s : σ) :
    (assert b msg : Prog σ ε Unit) s = (.panic msg, s) := by
  subst h; rfl

theorem assert_eq_ok {b : Bool} {msg : String} {s s' : σ} {u : Unit}
    (h : (assert b msg : Prog σ ε Unit) s = (.ok u, s')) : b = true ∧ s' = s := by
  cases b <;> cases h
  exact ⟨rfl, rfl⟩

theorem bind_of_ok {m : Prog σ ε α} {f : α → Prog σ ε β} {s s' : σ} {a : α}
    (h : m s = (.ok a, s')) : (m >>= f) s = f a s' := by
  show bind m f s = _
  rw [bind, h]

theorem bind_of_err {m : Prog σ ε α} {f : α → Prog σ ε β} {s s' : σ} {e : ε}
    (h : m s = (.err e, s')) : (m >>= f) s = (.err e, s') := by
  show bind m f s = _
  rw [bind, h]

theorem bind_of_panic {m : Prog σ ε α} {f : α → Prog σ ε β} {s s' : σ} {p : String}
    (h : m s = (.panic p, s')) : (m >>= f) s = (.panic p, s') := by
  show bind m f s = _
  rw [bind, h]

@[simp] theorem pure_bind' (a : α) (f : α → Prog σ ε β) : (pure a >>= f) = f a := rfl

@[simp] theorem get_bind (f : σ → Prog σ ε β) (s : σ) : (get >>= f) s = f s s := rfl

@[simp] theorem set_bind (t : σ) (f : Unit → Prog σ ε β) (s : σ) : (set t >>= f) s = f () t := rfl

/-- **Inversion of a sequence that returned a value**: both halves did. -/
theorem bind_eq_ok {m : Prog σ ε α} {f : α → Prog σ ε β} {s t : σ} {b : β}
    (h : (m >>= f) s = (.ok b, t)) :
    ∃ a s', m s = (.ok a, s') ∧ f a s' = (.ok b, t) := by
  rcases hm : m s with ⟨a | e | p, s'⟩
  · rw [bind_of_ok hm] at h
    exact ⟨a, s', rfl, h⟩
  · rw [bind_of_err hm] at h
    cases h
  · rw [bind_of_panic hm] at h
    cases h

theorem mapErr_of_ok {f : ε → ε'} {m : Prog σ ε α} {s s' : σ} {a : α}
    (h : m s = (.ok a, s')) : mapErr f m s = (.ok a, s') := by
  rw [mapErr, h]

theorem mapErr_of_err {f : ε → ε'} {m : Prog σ ε α} {s s' : σ} {e : ε}
    (h : m s = (.err e, s')) : mapErr f m s = (.err (f e), s') := by
  rw [mapErr, h]

theorem attempt_of_ok {m : Prog σ ε α} {s s' : σ} {a : α} (h : m s = (.ok a, s')) :
    (attempt m : Prog σ ε' _) s = (.ok (.ok a), s') := by
  rw [attempt, h]

theorem attempt_of_err {m : Prog σ ε α} {s s' : σ} {e : ε} (h : m s = (.err e, s')) :
    (attempt m : Prog σ ε' _) s = (.ok (.error e), s') := by
  rw [attempt, h]

theorem dropErr_of_ok {m : Prog σ ε Unit} {s s' : σ} (h : m s = (.ok (), s')) :
    (dropErr m : Prog σ ε' Unit) s = (.ok (), s') := by
  rw [dropErr, h]

theorem mapErr_eq_ok {f : ε → ε'} {m : Prog σ ε α} {s s' : σ} {a : α}
    (h : mapErr f m s = (.ok a, s')) : m s = (.ok a, s') := by
  rcases hm : m s with ⟨b | e | p, t⟩ <;> rw [mapErr, hm] at h <;> cases h
  rfl

theorem mapErr_safe {f : ε → ε'} {m : Prog σ ε α} {s : σ} :
    (mapErr f m s).1.Safe ↔ (m s).1.Safe := by
  rcases hm : m s with ⟨b | e | p, t⟩ <;> rw [mapErr, hm] <;> simp

/-- A sequence is safe when its first half is, and its second half is after every value. -/
theorem bind_safe {m : Prog σ ε α} {f : α → Prog σ ε β} {s : σ} :
    ((m >>= f) s).1.Safe ↔
      (m s).1.Safe ∧ ∀ a s', m s = (.ok a, s') → (f a s').1.Safe := by
  rcases hm : m s with ⟨a | e | p, s'⟩
  · rw [bind_of_ok hm]
    constructor
    · rintro h
      refine ⟨trivial, fun b t hb => ?_⟩
      cases hb
      exact h
    · rintro ⟨-, h⟩
      exact h a s' rfl
  · rw [bind_of_err hm]
    simp
  · rw [bind_of_panic hm]
    simp

/-- The ending `x` is a value with `Q` when `P` holds, and an error otherwise. -/
def OkIff (P : Prop) (Q : α → σ → Prop) (x : Res ε α × σ) : Prop :=
  (P ∧ ∃ a s, x = (.ok a, s) ∧ Q a s) ∨ (¬ P ∧ ∃ e s, x = (.err e, s))

theorem OkIff.ok {P : Prop} {Q : α → σ → Prop} {x : Res ε α × σ} (h : OkIff P Q x) (hp : P) :
    ∃ a s, x = (.ok a, s) ∧ Q a s := by
  rcases h with ⟨-, h⟩ | ⟨hn, -⟩
  · exact h
  · exact absurd hp hn

theorem OkIff.err {P : Prop} {Q : α → σ → Prop} {x : Res ε α × σ} (h : OkIff P Q x) (hp : ¬ P) :
    ∃ e s, x = (.err e, s) := by
  rcases h with ⟨hp', -⟩ | ⟨-, h⟩
  · exact absurd hp' hp
  · exact h

theorem OkIff.of_ok {P : Prop} {Q : α → σ → Prop} {x : Res ε α × σ} {a : α} {s : σ}
    (h : OkIff P Q x) (hx : x = (.ok a, s)) : P ∧ Q a s := by
  rcases h with ⟨hp, b, t, hb, hq⟩ | ⟨-, e, t, he⟩
  · rw [hx] at hb
    cases hb
    exact ⟨hp, hq⟩
  · rw [hx] at he
    cases he

theorem OkIff.congr {P P' : Prop} {Q : α → σ → Prop} {x : Res ε α × σ} (h : OkIff P Q x)
    (hp : P ↔ P') : OkIff P' Q x := by
  rwa [OkIff, ← hp]

theorem OkIff.mapErr {P : Prop} {Q : α → σ → Prop} {m : Prog σ ε α} {s : σ} (h : OkIff P Q (m s))
    (f : ε → ε') : OkIff P Q (mapErr f m s) := by
  rcases h with ⟨hp, a, s', hm, hq⟩ | ⟨hp, e, s', hm⟩
  · exact .inl ⟨hp, a, s', mapErr_of_ok hm, hq⟩
  · exact .inr ⟨hp, f e, s', mapErr_of_err hm⟩

/-- A sequence is a value when both halves are, and otherwise the first error of them. -/
theorem OkIff.bind {P P' : Prop} {Q : α → σ → Prop} {Q' : β → σ → Prop} {m : Prog σ ε α}
    {f : α → Prog σ ε β} {s : σ} (hm : OkIff P Q (m s))
    (hf : P → ∀ a s', Q a s' → OkIff P' Q' (f a s')) : OkIff (P ∧ P') Q' ((m >>= f) s) := by
  rcases hm with ⟨hp, a, s', hm, hq⟩ | ⟨hp, e, s', hm⟩
  · rw [bind_of_ok hm]
    rcases hf hp a s' hq with ⟨hp', h⟩ | ⟨hp', h⟩
    · exact .inl ⟨⟨hp, hp'⟩, h⟩
    · exact .inr ⟨fun h' => hp' h'.2, h⟩
  · rw [bind_of_err hm]
    exact .inr ⟨fun h' => hp h'.1, e, s', rfl⟩

/-- A sequence whose second half is an error is one. -/
theorem OkIff.bind_err {P : Prop} {Q : α → σ → Prop} {m : Prog σ ε α} {f : α → Prog σ ε β} {s : σ}
    (hm : OkIff P Q (m s)) (hf : P → ∀ a s', Q a s' → ∃ e t, f a s' = (.err e, t)) :
    ∃ e t, (m >>= f) s = (.err e, t) := by
  rcases hm with ⟨hp, a, s', hm, hq⟩ | ⟨-, e, s', hm⟩
  · rw [bind_of_ok hm]
    exact hf hp a s' hq
  · exact ⟨e, s', bind_of_err hm⟩

/-- The ending `x` is a value with `Q` when `P` holds, and a panic otherwise. -/
def OkElsePanic (P : Prop) (Q : α → σ → Prop) (x : Res ε α × σ) : Prop :=
  (P ∧ ∃ a s, x = (.ok a, s) ∧ Q a s) ∨ (¬ P ∧ ∃ msg s, x = (.panic msg, s))

theorem OkElsePanic.congr {P P' : Prop} {Q : α → σ → Prop} {x : Res ε α × σ}
    (h : OkElsePanic P Q x) (hp : P ↔ P') : OkElsePanic P' Q x := by
  rwa [OkElsePanic, ← hp]

/-- A sequence is a value when both halves are, and otherwise panics with the first that does. -/
theorem OkElsePanic.bind {P P' : Prop} {Q : α → σ → Prop} {Q' : β → σ → Prop} {m : Prog σ ε α}
    {f : α → Prog σ ε β} {s : σ} (hm : OkElsePanic P Q (m s))
    (hf : P → ∀ a s', Q a s' → OkElsePanic P' Q' (f a s')) :
    OkElsePanic (P ∧ P') Q' ((m >>= f) s) := by
  rcases hm with ⟨hp, a, s', hm, hq⟩ | ⟨hp, msg, s', hm⟩
  · rw [bind_of_ok hm]
    rcases hf hp a s' hq with ⟨hp', h⟩ | ⟨hp', h⟩
    · exact .inl ⟨⟨hp, hp'⟩, h⟩
    · exact .inr ⟨fun h' => hp' h'.2, h⟩
  · rw [bind_of_panic hm]
    exact .inr ⟨fun h' => hp h'.1, msg, s', rfl⟩

/-- A half that always returns a value adds nothing to the condition. -/
theorem OkElsePanic.bind_ok {P : Prop} {Q' : β → σ → Prop} {m : Prog σ ε α} {f : α → Prog σ ε β}
    {s s' : σ} {a : α} (hm : m s = (.ok a, s')) (hf : OkElsePanic P Q' (f a s')) :
    OkElsePanic P Q' ((m >>= f) s) := by
  rwa [bind_of_ok hm]

/-- An assertion is its own condition. -/
theorem OkElsePanic.assert {P : Prop} [Decidable P] (msg : String) (s : σ) :
    OkElsePanic P (fun _ s' => s' = s) ((Prog.assert (decide P) msg : Prog σ ε Unit) s) := by
  by_cases hp : P
  · exact .inl ⟨hp, (), s, assert_true (decide_eq_true hp) msg s, rfl⟩
  · exact .inr ⟨hp, msg, s, assert_false (decide_eq_false hp) msg s⟩

theorem OkElsePanic.assert_bind {P P' : Prop} [Decidable P] {Q' : β → σ → Prop} {msg : String}
    {f : Unit → Prog σ ε β} {s : σ} (hf : P → OkElsePanic P' Q' (f () s)) :
    OkElsePanic (P ∧ P') Q' ((Prog.assert (decide P) msg >>= f) s) :=
  (OkElsePanic.assert msg s).bind fun hp _ s' hs => by rw [hs]; exact hf hp

/-! ## Loops -/

/-- At most `fuel` rounds of `body`: `inl` goes round again, `inr` leaves the loop. -/
def loopFor (body : α → Prog σ ε (α ⊕ β)) : Nat → α → Prog σ ε β
  | 0, _ => panic "loop bound exceeded"
  | fuel + 1, a => do
    match ← body a with
    | .inl a' => loopFor body fuel a'
    | .inr b => pure b

/-- A loop with the variant `v`, a bound on its remaining rounds. -/
def loop (v : σ → Nat) (body : α → Prog σ ε (α ⊕ β)) (a : α) : Prog σ ε β :=
  fun s => loopFor body (v s + 1) a s

/-- Every round that goes on makes the variant smaller. -/
def Decreasing (v : σ → Nat) (body : α → Prog σ ε (α ⊕ β)) : Prop :=
  ∀ a s a' s', body a s = (.ok (.inl a'), s') → v s' < v s

theorem loopFor_enough {v : σ → Nat} {body : α → Prog σ ε (α ⊕ β)} (hv : Decreasing v body)
    {m n : Nat} (a : α) (s : σ) (hm : v s < m) (hn : v s < n) :
    loopFor body m a s = loopFor body n a s := by
  induction m generalizing n a s with
  | zero => omega
  | succ m ih =>
    obtain ⟨n, rfl⟩ : ∃ k, n = k + 1 := ⟨n - 1, by omega⟩
    rcases hb : body a s with ⟨(a' | b) | e | p, s'⟩
    · have hlt := hv a s a' s' hb
      rw [loopFor, loopFor, bind_of_ok hb, bind_of_ok hb]
      exact ih a' s' (by omega) (by omega)
    · rw [loopFor, loopFor, bind_of_ok hb, bind_of_ok hb]
    · rw [loopFor, loopFor, bind_of_err hb, bind_of_err hb]
    · rw [loopFor, loopFor, bind_of_panic hb, bind_of_panic hb]

/-- **A loop is its body followed by the loop**: with a decreasing variant the bound is
never reached. -/
theorem loop_eq {v : σ → Nat} {body : α → Prog σ ε (α ⊕ β)} (hv : Decreasing v body)
    (a : α) (s : σ) :
    loop v body a s =
      (body a >>= fun r => match r with
        | .inl a' => loop v body a'
        | .inr b => pure b) s := by
  rcases hb : body a s with ⟨(a' | b) | e | p, s'⟩
  · have hlt := hv a s a' s' hb
    rw [bind_of_ok hb, loop, loopFor, bind_of_ok hb]
    exact loopFor_enough hv a' s' (by omega) (by omega)
  · rw [bind_of_ok hb, loop, loopFor, bind_of_ok hb]
  · rw [bind_of_err hb, loop, loopFor, bind_of_err hb]
  · rw [bind_of_panic hb, loop, loopFor, bind_of_panic hb]

theorem loop_of_next {v : σ → Nat} {body : α → Prog σ ε (α ⊕ β)} (hv : Decreasing v body)
    {a a' : α} {s s' : σ} (h : body a s = (.ok (.inl a'), s')) :
    loop v body a s = loop v body a' s' := by
  rw [loop_eq hv, bind_of_ok h]

theorem loop_of_done {v : σ → Nat} {body : α → Prog σ ε (α ⊕ β)} (hv : Decreasing v body)
    {a : α} {b : β} {s s' : σ} (h : body a s = (.ok (.inr b), s')) :
    loop v body a s = (.ok b, s') := by
  rw [loop_eq hv, bind_of_ok h]
  rfl

theorem loop_of_err {v : σ → Nat} {body : α → Prog σ ε (α ⊕ β)} (hv : Decreasing v body)
    {a : α} {e : ε} {s s' : σ} (h : body a s = (.err e, s')) :
    loop v body a s = (.err e, s') := by
  rw [loop_eq hv, bind_of_err h]

/-- What a round of a loop establishes: the invariant when it goes on, the postcondition when
it ends the loop. -/
def After (I : α → σ → Prop) (Q : Res ε β × σ → Prop) : Res ε (α ⊕ β) × σ → Prop
  | (.ok (.inl a), s) => I a s
  | (.ok (.inr b), s) => Q (.ok b, s)
  | (.err e, s) => Q (.err e, s)
  | (.panic p, s) => Q (.panic p, s)

/-- **The loop rule**: an invariant under which every round either keeps it or ends the loop
in `Q` gives `Q` of the whole loop. -/
theorem loop_rule {v : σ → Nat} {body : α → Prog σ ε (α ⊕ β)} (hv : Decreasing v body)
    (I : α → σ → Prop) (Q : Res ε β × σ → Prop)
    (round : ∀ a s, I a s → After I Q (body a s))
    (a : α) (s : σ) (h : I a s) : Q (loop v body a s) := by
  induction hn : v s using Nat.strongRecOn generalizing a s with
  | ind n ih =>
    have hround := round a s h
    rcases hb : body a s with ⟨(a' | b) | e | p, s'⟩ <;> rw [hb] at hround
    · rw [loop_of_next hv hb]
      exact ih (v s') (hn ▸ hv a s a' s' hb) a' s' hround rfl
    · rw [loop_of_done hv hb]
      exact hround
    · rw [loop_of_err hv hb]
      exact hround
    · rw [loop_eq hv, bind_of_panic hb]
      exact hround

/-- A loop is safe when its rounds are, under an invariant of theirs. -/
theorem loop_safe {v : σ → Nat} {body : α → Prog σ ε (α ⊕ β)} (hv : Decreasing v body)
    (I : α → σ → Prop) (round : ∀ a s, I a s →
      (body a s).1.Safe ∧ ∀ a' s', body a s = (.ok (.inl a'), s') → I a' s')
    {a : α} {s : σ} (h : I a s) : (loop v body a s).1.Safe := by
  refine loop_rule hv I (fun x => x.1.Safe) (fun a s hI => ?_) a s h
  obtain ⟨hsafe, hnext⟩ := round a s hI
  rcases hb : body a s with ⟨(a' | b) | e | p, s'⟩ <;> rw [hb] at hsafe
  · exact hnext a' s' hb
  · trivial
  · trivial
  · exact hsafe.elim

/-! ## Invariants of the state -/

/-- Whatever its ending, the program keeps `I` of the state. -/
def Preserves (I : σ → Prop) (m : Prog σ ε α) : Prop := ∀ s, I s → I (m s).2

section Preserves

variable {I : σ → Prop}

theorem preserves_pure (a : α) : Preserves I (pure a : Prog σ ε α) := fun _ h => h

theorem preserves_throw (e : ε) : Preserves I (throw e : Prog σ ε α) := fun _ h => h

theorem preserves_panic (msg : String) : Preserves I (panic msg : Prog σ ε α) := fun _ h => h

theorem preserves_get : Preserves I (get : Prog σ ε σ) := fun _ h => h

theorem preserves_ofRes (r : Res ε α) : Preserves I (ofRes r : Prog σ ε α) := fun _ h => h

theorem preserves_onOwn (m : Prog τ ε α) (t : τ) : Preserves I (onOwn m t : Prog σ ε α) :=
  fun _ h => h

theorem preserves_assert (b : Bool) (msg : String) :
    Preserves I (assert b msg : Prog σ ε Unit) := by
  cases b
  · exact preserves_panic msg
  · exact preserves_pure ()

theorem Preserves.bind {m : Prog σ ε α} {f : α → Prog σ ε β} (hm : Preserves I m)
    (hf : ∀ a, Preserves I (f a)) : Preserves I (m >>= f) := by
  intro s hs
  have hs' := hm s hs
  rcases h : m s with ⟨a | e | p, s'⟩ <;> rw [h] at hs'
  · rw [bind_of_ok h]
    exact hf a s' hs'
  · rw [bind_of_err h]
    exact hs'
  · rw [bind_of_panic h]
    exact hs'

theorem Preserves.mapErr {m : Prog σ ε α} (hm : Preserves I m) (f : ε → ε') :
    Preserves I (mapErr f m) := by
  intro s hs
  have hs' := hm s hs
  rcases h : m s with ⟨a | e | p, s'⟩ <;> rw [h] at hs' <;> rw [Prog.mapErr, h] <;> exact hs'

theorem Preserves.dropErr {m : Prog σ ε Unit} (hm : Preserves I m) :
    Preserves I (dropErr m : Prog σ ε' Unit) := by
  intro s hs
  have hs' := hm s hs
  rcases h : m s with ⟨⟨⟩ | e | p, s'⟩ <;> rw [h] at hs' <;> rw [Prog.dropErr, h] <;> exact hs'

theorem preserves_loop {body : α → Prog σ ε (α ⊕ β)} (hb : ∀ a, Preserves I (body a))
    (v : σ → Nat) (a : α) : Preserves I (loop v body a) := by
  have hfor : ∀ n a, Preserves I (loopFor body n a) := by
    intro n
    induction n with
    | zero => exact fun _ => preserves_panic _
    | succ n ih =>
      intro a
      refine (hb a).bind fun r => ?_
      cases r with
      | inl a' => exact ih a'
      | inr b => exact preserves_pure b
  exact fun s hs => hfor _ a s hs

end Preserves

/-! ## Values carried over to another state

A program that returned a value, although steps of it could have failed, took none of the ways
that failing would have opened. So it returns the value from a state without those ways, too. -/

/-- Whatever its ending, the program keeps `I` of the state; and whenever it returns a value, it
returns it from `h` of the state as well. -/
def Carries (I : σ → Prop) (h : σ → σ) (m : Prog σ ε α) : Prop :=
  ∀ s, I s → I (m s).2 ∧ ∀ a s', m s = (.ok a, s') → m (h s) = (.ok a, h s')

section Carries

variable {I : σ → Prop} {h : σ → σ}

theorem Carries.preserves {m : Prog σ ε α} (hm : Carries I h m) : Preserves I m :=
  fun s hI => (hm s hI).1

theorem Preserves.carries {m : Prog σ ε α} (hm : Preserves I m) : Carries I id m :=
  fun s hI => ⟨hm s hI, fun _ _ hrun => hrun⟩

theorem carries_pure (a : α) : Carries I h (pure a : Prog σ ε α) := by
  intro s hI
  refine ⟨hI, fun b s' hm => ?_⟩
  cases hm
  rfl

theorem carries_throw (e : ε) : Carries I h (throw e : Prog σ ε α) := by
  intro s hI
  refine ⟨hI, fun b s' hm => ?_⟩
  cases hm

theorem carries_panic (msg : String) : Carries I h (panic msg : Prog σ ε α) := by
  intro s hI
  refine ⟨hI, fun b s' hm => ?_⟩
  cases hm

theorem carries_assert (b : Bool) (msg : String) :
    Carries I h (assert b msg : Prog σ ε Unit) := by
  cases b
  · exact carries_panic msg
  · exact carries_pure ()

/-- A sequence, where something is known of the values of its first half. -/
theorem Carries.bind_of {Q : α → Prop} {m : Prog σ ε α} {f : α → Prog σ ε β} (hm : Carries I h m)
    (hq : ∀ s a s', I s → m s = (.ok a, s') → Q a) (hf : ∀ a, Q a → Carries I h (f a)) :
    Carries I h (m >>= f) := by
  intro s hI
  obtain ⟨hI₁, hcarry⟩ := hm s hI
  rcases hx : m s with ⟨a | e | p, s₁⟩ <;> rw [hx] at hI₁
  · obtain ⟨hI₂, hcarry₂⟩ := hf a (hq s a s₁ hI hx) s₁ hI₁
    rw [bind_of_ok hx, bind_of_ok (hcarry a s₁ hx)]
    exact ⟨hI₂, hcarry₂⟩
  · rw [bind_of_err hx]
    exact ⟨hI₁, fun b s' hrun => by cases hrun⟩
  · rw [bind_of_panic hx]
    exact ⟨hI₁, fun b s' hrun => by cases hrun⟩

theorem Carries.bind {m : Prog σ ε α} {f : α → Prog σ ε β} (hm : Carries I h m)
    (hf : ∀ a, Carries I h (f a)) : Carries I h (m >>= f) :=
  hm.bind_of (Q := fun _ => True) (fun _ _ _ _ _ => trivial) fun a _ => hf a

/-- Reading the state for something that `h` does not change. -/
theorem carries_get {f : σ → Prog σ ε α} (hf : ∀ s, Carries I h (f s))
    (hsame : ∀ s, f (h s) = f s) : Carries I h (get >>= f) := by
  intro s hI
  rw [get_bind, get_bind, hsame]
  exact hf s s hI

theorem Carries.mapErr {m : Prog σ ε α} (hm : Carries I h m) (f : ε → ε') :
    Carries I h (mapErr f m) := by
  intro s hI
  refine ⟨hm.preserves.mapErr f s hI, fun a s' hrun => ?_⟩
  exact mapErr_of_ok ((hm s hI).2 a s' (mapErr_eq_ok hrun))

theorem carries_loop {v : σ → Nat} {body : α → Prog σ ε (α ⊕ β)}
    (hb : ∀ a, Carries I h (body a)) (hv : ∀ s, v (h s) = v s) (a : α) :
    Carries I h (loop v body a) := by
  have hfor : ∀ n a, Carries I h (loopFor body n a) := by
    intro n
    induction n with
    | zero => exact fun _ => carries_panic _
    | succ n ih =>
      intro a
      refine (hb a).bind fun r => ?_
      cases r with
      | inl a' => exact ih a'
      | inr b => exact carries_pure b
  intro s hI
  rw [loop, loop, hv]
  exact hfor _ a s hI

/-! On a pair of states, the second half is what is carried over. -/

theorem carries_onFst (m : Prog τ ε α) :
    Carries (fun s : τ × σ => I s.2) (fun s => (s.1, h s.2)) (onFst m) := by
  rintro ⟨t, s⟩ hI
  refine ⟨hI, fun a s' hrun => ?_⟩
  rcases hm : m t with ⟨x, t₁⟩
  rw [onFst_of hm] at hrun
  cases hrun
  exact onFst_of hm (h s)

theorem Carries.onSnd {m : Prog σ ε α} (hm : Carries I h m) :
    Carries (fun s : τ × σ => I s.2) (fun s => (s.1, h s.2)) (onSnd m) := by
  rintro ⟨t, s⟩ hI
  refine ⟨(hm s hI).1, fun a s' hrun => ?_⟩
  rcases hx : m s with ⟨x, s₁⟩
  rw [onSnd_of hx] at hrun
  cases hrun
  exact onSnd_of ((hm s hI).2 a _ hx) t

theorem Carries.withLocal {m : Prog (τ × σ) ε α}
    (hm : Carries (fun s : τ × σ => I s.2) (fun s => (s.1, h s.2)) m) (t : τ) :
    Carries I h (withLocal t m) := by
  intro s hI
  refine ⟨(hm (t, s) hI).1, fun a s' hrun => ?_⟩
  rcases hx : m (t, s) with ⟨x, t₁, s₁⟩
  rw [withLocal_of hx] at hrun
  cases hrun
  exact withLocal_of ((hm (t, s) hI).2 a _ hx)

end Carries

end Prog

end BodyArchive
