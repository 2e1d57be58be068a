import BodyArchive.Data.Multimap
import BodyArchive.Io.Read

/-!
# Header names, values and maps

The types of the *http* crate that carry a validity of their own: a `HeaderName` is a lowercase
token, a `HeaderValue` a string of visible bytes, spaces and tabs. A `HeaderMap` is a multimap
of them.
-/

namespace BodyArchive

/-- The bytes of an ASCII text. -/
def ascii (s : String) : Bytes := s.toList.map fun c => UInt8.ofNat c.toNat

/-- The bytes of a header name: the token characters, letters in lower case. -/
def isNameByte (b : UInt8) : Bool :=
  (97 ≤ b && b ≤ 122) || (48 ≤ b && b ≤ 57) ||
    [33, 35, 36, 37, 38, 39, 42, 43, 45, 46, 94, 95, 96, 124, 126].contains b

/-- The bytes of a header value: anything visible, also above ASCII, and space and tab. -/
def isValueByte (b : UInt8) : Bool := b == 9 || (32 ≤ b && b != 127)

/-- A space or a tab. -/
def isBlank (b : UInt8) : Bool := b == 32 || b == 9

/-- The longest header name. -/
def maxHeaderName : Nat := 0xffff

structure HeaderName where
  bytes : Bytes
  valid : bytes ≠ [] ∧ bytes.length ≤ maxHeaderName ∧ ∀ b ∈ bytes, isNameByte b
  deriving DecidableEq

structure HeaderValue where
  bytes : Bytes
  valid : ∀ b ∈ bytes, isValueByte b
  deriving DecidableEq

abbrev HeaderMap := Multimap HeaderName HeaderValue

/-- A value without blanks at its ends, as an HTTP parser produces. -/
def HeaderValue.Trimmed (v : HeaderValue) : Prop :=
  (∀ b, v.bytes.head? = some b → isBlank b = false) ∧
    ∀ b, v.bytes.getLast? = some b → isBlank b = false

end BodyArchive
