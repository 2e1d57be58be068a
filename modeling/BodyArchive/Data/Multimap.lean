import Mathlib.Data.List.Nodup

/-!
# Ordered multimaps

A map from keys to non-empty lists of values, as a list of entries with distinct keys. Iterating
yields every key once per value, the values of one key together and in their order; inserting
what an iteration yields, one pair after the other, rebuilds the map (`ofList_iter`).
-/

namespace BodyArchive

structure Multimap (K V : Type) where
  entries : List (K × List V)
  keys_nodup : (entries.map Prod.fst).Nodup
  values_ne_nil : ∀ e ∈ entries, e.2 ≠ []

namespace Multimap

variable {K V : Type}

@[ext] theorem ext {m m' : Multimap K V} (h : m.entries = m'.entries) : m = m' := by
  cases m; cases m'; cases h; rfl

instance [DecidableEq K] [DecidableEq V] : DecidableEq (Multimap K V) := fun _ _ =>
  decidable_of_iff _ ⟨Multimap.ext, congrArg Multimap.entries⟩

/-- The map without entries. -/
def empty : Multimap K V := ⟨[], List.nodup_nil, by simp⟩

/-- All pairs, grouped by key. -/
def iter (m : Multimap K V) : List (K × V) := m.entries.flatMap fun e => e.2.map (Prod.mk e.1)

/-- The number of values. -/
def len (m : Multimap K V) : Nat := m.iter.length

theorem iter_eq_nil {m : Multimap K V} : m.iter = [] ↔ m = empty := by
  constructor
  · intro h
    apply ext
    show m.entries = []
    cases he : m.entries with
    | nil => rfl
    | cons e es =>
      have hmem : e ∈ m.entries := by rw [he]; simp
      rw [iter, List.flatMap_eq_nil_iff] at h
      exact absurd (List.map_eq_nil_iff.mp (h e hmem)) (m.values_ne_nil e hmem)
  · rintro rfl
    rfl

variable [DecidableEq K]

/-- Add a value at the end of its key's values, and a new key at the end of the entries. -/
def addEntry (k : K) (v : V) : List (K × List V) → List (K × List V)
  | [] => [(k, [v])]
  | (k', vs) :: es => if k' = k then (k', vs ++ [v]) :: es else (k', vs) :: addEntry k v es

theorem mem_keys_addEntry {k x : K} {v : V} {es : List (K × List V)} :
    x ∈ (addEntry k v es).map Prod.fst ↔ x = k ∨ x ∈ es.map Prod.fst := by
  induction es with
  | nil => simp [addEntry]
  | cons e es ih =>
    obtain ⟨k', vs⟩ := e
    rw [addEntry]
    split
    · next h => subst h; simp
    · simp only [List.map_cons, List.mem_cons, ih]
      constructor
      · rintro (h | h | h)
        · exact .inr (.inl h)
        · exact .inl h
        · exact .inr (.inr h)
      · rintro (h | h | h)
        · exact .inr (.inl h)
        · exact .inl h
        · exact .inr (.inr h)

theorem nodup_addEntry {k : K} {v : V} {es : List (K × List V)}
    (h : (es.map Prod.fst).Nodup) : ((addEntry k v es).map Prod.fst).Nodup := by
  induction es with
  | nil => simp [addEntry]
  | cons e es ih =>
    obtain ⟨k', vs⟩ := e
    rw [List.map_cons, List.nodup_cons] at h
    rw [addEntry]
    split
    · rw [List.map_cons, List.nodup_cons]; exact h
    · next hne =>
      rw [List.map_cons, List.nodup_cons, mem_keys_addEntry]
      refine ⟨?_, ih h.2⟩
      rintro (hk | hk)
      · exact hne hk
      · exact h.1 hk

theorem ne_nil_addEntry {k : K} {v : V} {es : List (K × List V)}
    (h : ∀ e ∈ es, e.2 ≠ []) : ∀ e ∈ addEntry k v es, e.2 ≠ [] := by
  induction es with
  | nil => simp [addEntry]
  | cons e es ih =>
    obtain ⟨k', vs⟩ := e
    rw [addEntry]
    split
    · intro e he
      rcases List.mem_cons.mp he with rfl | he
      · simp
      · exact h e (by simp [he])
    · intro e he
      rcases List.mem_cons.mp he with rfl | he
      · exact h _ (by simp)
      · exact ih (fun e he => h e (by simp [he])) e he

/-- Append a value to a key's values. -/
def append (k : K) (v : V) (m : Multimap K V) : Multimap K V :=
  ⟨addEntry k v m.entries, nodup_addEntry m.keys_nodup, ne_nil_addEntry m.values_ne_nil⟩

/-- The values of a key, in order. -/
def getAll (m : Multimap K V) (k : K) : List V :=
  match m.entries.find? (fun e => e.1 = k) with
  | some e => e.2
  | none => []

/-- The first value of a key. -/
def get (m : Multimap K V) (k : K) : Option V := (m.getAll k).head?

/-- The map built by appending pairs in turn. -/
def ofList (l : List (K × V)) : Multimap K V := l.foldl (fun m e => m.append e.1 e.2) empty

/-! ## Looking up what was appended -/

theorem find_addEntry_self (k : K) (v : V) (es : List (K × List V)) :
    (addEntry k v es).find? (fun e => e.1 = k) =
      some (k, (match es.find? (fun e => e.1 = k) with
        | some e => e.2
        | none => []) ++ [v]) := by
  induction es with
  | nil => simp [addEntry]
  | cons e es ih =>
    obtain ⟨k', vs⟩ := e
    rw [addEntry]
    split
    · next h => subst h; simp
    · next h =>
      rw [List.find?_cons_of_neg (by simpa using h), List.find?_cons_of_neg (by simpa using h), ih]

theorem find_addEntry_ne {k x : K} (hne : x ≠ k) (v : V) (es : List (K × List V)) :
    (addEntry k v es).find? (fun e => e.1 = x) = es.find? (fun e => e.1 = x) := by
  induction es with
  | nil => simp [addEntry, Ne.symm hne]
  | cons e es ih =>
    obtain ⟨k', vs⟩ := e
    rw [addEntry]
    split
    · next h =>
      have hk : ¬ k' = x := fun he => hne (he.symm.trans h)
      rw [List.find?_cons_of_neg (by simpa using hk), List.find?_cons_of_neg (by simpa using hk)]
    · by_cases hk : k' = x
      · rw [List.find?_cons_of_pos (by simpa using hk), List.find?_cons_of_pos (by simpa using hk)]
      · rw [List.find?_cons_of_neg (by simpa using hk), List.find?_cons_of_neg (by simpa using hk),
          ih]

@[simp] theorem getAll_empty (k : K) : (empty : Multimap K V).getAll k = [] := rfl

@[simp] theorem getAll_append_self (m : Multimap K V) (k : K) (v : V) :
    (m.append k v).getAll k = m.getAll k ++ [v] := by
  simp only [getAll, append, find_addEntry_self]

theorem getAll_append_ne (m : Multimap K V) {k x : K} (hne : x ≠ k) (v : V) :
    (m.append k v).getAll x = m.getAll x := by
  simp only [getAll, append, find_addEntry_ne hne]

/-! ## Rebuilding a map from its pairs -/

theorem addEntry_fresh {k : K} (v : V) {es : List (K × List V)} (h : k ∉ es.map Prod.fst) :
    addEntry k v es = es ++ [(k, [v])] := by
  induction es with
  | nil => rfl
  | cons e es ih =>
    obtain ⟨k', vs⟩ := e
    simp only [List.map_cons, List.mem_cons, not_or] at h
    rw [addEntry, if_neg (fun he => h.1 he.symm), ih h.2]
    rfl

theorem addEntry_last {k : K} (v : V) (vs : List V) {es : List (K × List V)}
    (h : k ∉ es.map Prod.fst) :
    addEntry k v (es ++ [(k, vs)]) = es ++ [(k, vs ++ [v])] := by
  induction es with
  | nil => simp [addEntry]
  | cons e es ih =>
    obtain ⟨k', vs'⟩ := e
    simp only [List.map_cons, List.mem_cons, not_or] at h
    rw [List.cons_append, addEntry, if_neg (fun he => h.1 he.symm), ih h.2]
    rfl

theorem foldl_values {k : K} (vs : List V) (ws : List V) {es : List (K × List V)}
    (h : k ∉ es.map Prod.fst) :
    (vs.map (Prod.mk k)).foldl (fun es e => addEntry e.1 e.2 es) (es ++ [(k, ws)]) =
      es ++ [(k, ws ++ vs)] := by
  induction vs generalizing ws with
  | nil => simp
  | cons v vs ih =>
    rw [List.map_cons, List.foldl_cons, addEntry_last v ws h, ih, List.append_assoc]
    rfl

theorem foldl_entries (es acc : List (K × List V)) (hd : ((acc ++ es).map Prod.fst).Nodup)
    (hne : ∀ e ∈ es, e.2 ≠ []) :
    (es.flatMap fun e => e.2.map (Prod.mk e.1)).foldl (fun es e => addEntry e.1 e.2 es) acc =
      acc ++ es := by
  induction es generalizing acc with
  | nil => simp
  | cons e es ih =>
    obtain ⟨k, vs⟩ := e
    have hk : k ∉ acc.map Prod.fst := by
      rw [List.map_append, List.map_cons] at hd
      have hdis := List.disjoint_of_nodup_append hd
      exact fun hmem => hdis hmem (by simp)
    obtain ⟨v, vs', rfl⟩ := List.exists_cons_of_ne_nil (hne (k, vs) (by simp))
    rw [List.flatMap_cons, List.foldl_append, List.map_cons, List.foldl_cons, addEntry_fresh v hk,
      foldl_values vs' [v] hk, ih]
    · rw [List.append_assoc]
      rfl
    · rw [List.append_assoc]
      exact hd
    · exact fun e he => hne e (by simp [he])

theorem entries_foldl (l : List (K × V)) (m : Multimap K V) :
    (l.foldl (fun m e => m.append e.1 e.2) m).entries =
      l.foldl (fun es e => addEntry e.1 e.2 es) m.entries := by
  induction l generalizing m with
  | nil => rfl
  | cons e l ih => rw [List.foldl_cons, List.foldl_cons, ih]; rfl

/-- **Appending a map's own pairs rebuilds it.** -/
theorem ofList_iter (m : Multimap K V) : ofList m.iter = m := by
  apply ext
  rw [ofList, entries_foldl, iter, foldl_entries]
  · rfl
  · exact m.keys_nodup
  · exact m.values_ne_nil

/-! ## What is in a map -/

theorem perm_addEntry (k : K) (v : V) (es : List (K × List V)) :
    ((addEntry k v es).flatMap fun e => e.2.map (Prod.mk e.1)).Perm
      ((k, v) :: es.flatMap fun e => e.2.map (Prod.mk e.1)) := by
  induction es with
  | nil => exact List.Perm.refl _
  | cons e es ih =>
    obtain ⟨k', vs⟩ := e
    rw [addEntry]
    split
    · next heq =>
      subst heq
      simp only [List.flatMap_cons, List.map_append, List.append_assoc]
      exact List.perm_middle
    · simp only [List.flatMap_cons]
      exact (ih.append_left _).trans List.perm_middle

/-- Appending adds one pair. -/
theorem iter_append (m : Multimap K V) (k : K) (v : V) :
    (m.append k v).iter.Perm ((k, v) :: m.iter) :=
  perm_addEntry k v m.entries

theorem iter_foldl (l : List (K × V)) (m : Multimap K V) :
    (l.foldl (fun m e => m.append e.1 e.2) m).iter.Perm (l ++ m.iter) := by
  induction l generalizing m with
  | nil => exact List.Perm.refl _
  | cons e l ih =>
    have hstep := (ih (m.append e.1 e.2)).trans ((m.iter_append e.1 e.2).append_left l)
    exact hstep.trans List.perm_middle

/-- The pairs of a map are those it was built from. -/
theorem iter_ofList (l : List (K × V)) : (ofList l).iter.Perm l := by
  have h := iter_foldl l (empty : Multimap K V)
  rwa [show (empty : Multimap K V).iter = [] from rfl, List.append_nil] at h

end Multimap

end BodyArchive
