import Mathlib.Data.List.Induction
import BodyArchive.Io.Read

/-!
# Zero-padded lowercase hexadecimal

The number format `{:0wx}` and its parser. `hexFixed w n` are the low `w` hex digits of `n`,
most significant first; the formatter widens `w` to the digits `n` needs. On numbers that fit
the width, parser and formatter are inverse: `parseHex_hexPad`, `hexFixed_of_parseHex`.
-/

namespace BodyArchive

/-- The digit for a value below 16. -/
def hexDigit (d : Nat) : UInt8 := if d < 10 then UInt8.ofNat (48 + d) else UInt8.ofNat (87 + d)

/-- The value of a digit, `none` for any other byte. -/
def hexVal (b : UInt8) : Option Nat :=
  if 48 ≤ b.toNat ∧ b.toNat ≤ 57 then some (b.toNat - 48)
  else if 97 ≤ b.toNat ∧ b.toNat ≤ 102 then some (10 + (b.toNat - 97))
  else none

/-- The low `w` digits of `n`. -/
def hexFixed : Nat → Nat → Bytes
  | 0, _ => []
  | w + 1, n => hexFixed w (n / 16) ++ [hexDigit (n % 16)]

/-- `format!("{:0wx}", n)`: at least `w` digits, and as many as `n` needs. -/
def hexPad (w n : Nat) : Bytes := hexFixed (max w (n.log2 / 4 + 1)) n

/-- Read digits onto a value; the first byte that is none is the error. -/
def parseHexFrom : Nat → Bytes → Except UInt8 Nat
  | v, [] => .ok v
  | v, d :: ds =>
    match hexVal d with
    | some x => parseHexFrom (v * 16 + x) ds
    | none => .error d

/-- `parse_hex`. -/
def parseHex (buf : Bytes) : Except UInt8 Nat := parseHexFrom 0 buf

/-! ## Formatting and parsing back -/

theorem hexVal_hexDigit : ∀ {d : Nat}, d < 16 → hexVal (hexDigit d) = some d := by
  decide

theorem hexDigit_hexVal {b : UInt8} {x : Nat} (h : hexVal b = some x) :
    hexDigit x = b ∧ x < 16 := by
  have hb := b.toNat_lt
  have back (k : Nat) (hk : k = b.toNat) : UInt8.ofNat k = b := by
    rw [hk]
    exact UInt8.ofNat_toNat
  rw [hexVal] at h
  split at h
  · cases h
    refine ⟨?_, by omega⟩
    rw [hexDigit, if_pos (by omega)]
    exact back _ (by omega)
  · split at h
    · cases h
      refine ⟨?_, by omega⟩
      rw [hexDigit, if_neg (by omega)]
      exact back _ (by omega)
    · cases h

@[simp] theorem hexFixed_length (w n : Nat) : (hexFixed w n).length = w := by
  induction w generalizing n with
  | zero => rfl
  | succ w ih => rw [hexFixed, List.length_append, ih]; rfl

theorem parseHexFrom_append (v : Nat) (a b : Bytes) :
    parseHexFrom v (a ++ b) =
      match parseHexFrom v a with
      | .ok v' => parseHexFrom v' b
      | .error d => .error d := by
  induction a generalizing v with
  | nil => rfl
  | cons d ds ih =>
    rw [List.cons_append, parseHexFrom, parseHexFrom]
    cases hexVal d with
    | some x => exact ih _
    | none => rfl

theorem parseHexFrom_hexFixed (w n v : Nat) :
    parseHexFrom v (hexFixed w n) = .ok (v * 16 ^ w + n % 16 ^ w) := by
  induction w generalizing n with
  | zero => simp [hexFixed, parseHexFrom, Nat.mod_one]
  | succ w ih =>
    rw [hexFixed, parseHexFrom_append, ih]
    simp only [parseHexFrom, hexVal_hexDigit (Nat.mod_lt n (by omega : 0 < 16))]
    have hsplit : n % 16 ^ (w + 1) = n % 16 + 16 * (n / 16 % 16 ^ w) := by
      rw [Nat.pow_succ', Nat.mod_mul]
    rw [hsplit, Nat.pow_succ, ← Nat.mul_assoc]
    congr 1
    omega

/-- A number that fits is formatted in exactly the width. -/
theorem hexPad_eq {w n : Nat} (hw : 0 < w) (h : n < 16 ^ w) : hexPad w n = hexFixed w n := by
  rw [hexPad, Nat.max_eq_left]
  by_cases hn : n = 0
  · subst hn
    have h0 : Nat.log2 0 = 0 := by simp
    omega
  · have hlog : n.log2 < 4 * w := by
      rw [Nat.log2_lt hn, Nat.pow_mul]
      exact h
    omega

theorem hexPad_length {w n : Nat} (hw : 0 < w) (h : n < 16 ^ w) : (hexPad w n).length = w := by
  rw [hexPad_eq hw h, hexFixed_length]

/-- **Format, then parse.** -/
theorem parseHex_hexPad {w n : Nat} (hw : 0 < w) (h : n < 16 ^ w) :
    parseHex (hexPad w n) = .ok n := by
  rw [hexPad_eq hw h, parseHex, parseHexFrom_hexFixed, Nat.zero_mul, Nat.zero_add,
    Nat.mod_eq_of_lt h]

/-- Padded numbers of any size are told apart. -/
theorem hexPad_injective {w m n : Nat} (h : hexPad w m = hexPad w n) : m = n := by
  have hparse (k : Nat) : parseHex (hexPad w k) = .ok k := by
    have hlt : k < 16 ^ max w (k.log2 / 4 + 1) := by
      calc k < 2 ^ (k.log2 + 1) := Nat.lt_log2_self
        _ ≤ 2 ^ (4 * (k.log2 / 4 + 1)) := Nat.pow_le_pow_right (by decide) (by omega)
        _ = 16 ^ (k.log2 / 4 + 1) := by rw [Nat.pow_mul]
        _ ≤ 16 ^ max w (k.log2 / 4 + 1) :=
          Nat.pow_le_pow_right (by decide) (Nat.le_max_right _ _)
    rw [hexPad, parseHex, parseHexFrom_hexFixed, Nat.zero_mul, Nat.zero_add, Nat.mod_eq_of_lt hlt]
  have hm := hparse m
  rw [h, hparse n] at hm
  cases hm
  rfl

/-- A parsed value is below the power of its digits. -/
theorem parseHexFrom_lt {bs : Bytes} {v n : Nat} (h : parseHexFrom v bs = .ok n) :
    n < (v + 1) * 16 ^ bs.length := by
  induction bs generalizing v with
  | nil =>
    cases h
    simp
  | cons d ds ih =>
    rw [parseHexFrom] at h
    split at h
    · next x hx =>
      have hx16 := (hexDigit_hexVal hx).2
      have hle : (v * 16 + x + 1) * 16 ^ ds.length ≤ ((v + 1) * 16) * 16 ^ ds.length :=
        Nat.mul_le_mul_right _ (by omega)
      have hn := ih h
      rw [List.length_cons, Nat.pow_succ', ← Nat.mul_assoc]
      omega
    · cases h

theorem parseHex_lt {bs : Bytes} {n : Nat} (h : parseHex bs = .ok n) : n < 16 ^ bs.length := by
  have := parseHexFrom_lt h
  simpa using this

/-- **Parse, then format.** -/
theorem hexFixed_of_parseHex {bs : Bytes} {n : Nat} (h : parseHex bs = .ok n) :
    hexFixed bs.length n = bs := by
  induction bs using List.reverseRecOn generalizing n with
  | nil => rfl
  | append_singleton ds d ih =>
    rw [parseHex, parseHexFrom_append] at h
    split at h
    · next v hv =>
      rw [parseHexFrom] at h
      split at h
      · next x hx =>
        obtain ⟨hd, hx16⟩ := hexDigit_hexVal hx
        rw [parseHexFrom] at h
        cases h
        rw [List.length_append, List.length_singleton, hexFixed,
          show (v * 16 + x) / 16 = v by omega, show (v * 16 + x) % 16 = x by omega, hd, ih hv]
      · cases h
    · cases h

end BodyArchive
