import LoxLex.Text.Basic

/-! # UTF-8

Texts as bytes and back. Bytes are read from left to right into units: a character, or one damaged
place for each longest run of bytes that begins a character and cannot be continued as one (a byte
that begins none is a run by itself). A byte that breaks off a run is read again from the start, so
damage never swallows the byte after it. `decode?` refuses damage, `decodeReplacing` marks it. -/

namespace LoxLex.Utf8

/-- The UTF-8 form of a text. -/
def encode (t : Text) : Bytes := t.flatMap String.utf8EncodeChar

/-! ### Reading bytes -/

/-- A character of which some bytes have been read: the bits so far, the number of bytes still
owed, and the range that the next of them must lie in. -/
structure Pending where
  bits : Nat
  owed : Nat
  low : Nat := 0x80
  high : Nat := 0xBF
  deriving DecidableEq, Repr

/-- The units that a byte completes, and the character that it leaves pending. -/
abbrev Reading := List (Option Char) × Option Pending

/-- A byte that stands where a character begins. The ranges of the second byte keep out longer
forms than needed, surrogates, and values past the last character. -/
def first (b : Nat) : Reading :=
  if b < 0x80 then ([some (Char.ofNat b)], none)
  else if b < 0xC2 then ([none], none)
  else if b < 0xE0 then ([], some ⟨b % 0x20, 1, 0x80, 0xBF⟩)
  else if b < 0xF0 then
    ([], some ⟨b % 0x10, 2, if b = 0xE0 then 0xA0 else 0x80, if b = 0xED then 0x9F else 0xBF⟩)
  else if b < 0xF5 then
    ([], some ⟨b % 0x08, 3, if b = 0xF0 then 0x90 else 0x80, if b = 0xF4 then 0x8F else 0xBF⟩)
  else ([none], none)

/-- A byte that should continue a pending character: one outside the range ends it as damage and
is read as a first byte. -/
def Pending.next (p : Pending) (b : Nat) : Reading :=
  if p.low ≤ b ∧ b ≤ p.high then
    let bits := p.bits * 0x40 + b % 0x40
    if p.owed ≤ 1 then ([some (Char.ofNat bits)], none)
    else ([], some ⟨bits, p.owed - 1, 0x80, 0xBF⟩)
  else
    let (units, pending) := first b
    (none :: units, pending)

/-- One byte, after whatever is pending. -/
def step (pending : Option Pending) (b : UInt8) : Reading :=
  match pending with
  | none => first b.toNat
  | some p => p.next b.toNat

/-- The units of the bytes, put after those already read; a character that the end cuts short is
one damaged place. -/
def unitsFrom (done : Array (Option Char)) (pending : Option Pending) :
    Bytes → Array (Option Char)
  | [] => if pending.isSome then done.push none else done
  | b :: bytes =>
    let read := step pending b
    unitsFrom (done ++ read.1) read.2 bytes

/-- The units of a list of bytes: `none` for each damaged place. -/
def units (bytes : Bytes) : List (Option Char) := (unitsFrom #[] none bytes).toList

/-- The units already read only stand in front. -/
theorem toList_unitsFrom (done : Array (Option Char)) (pending : Option Pending) (bytes : Bytes) :
    (unitsFrom done pending bytes).toList =
      done.toList ++ (unitsFrom #[] pending bytes).toList := by
  induction bytes generalizing done pending with
  | nil =>
    unfold unitsFrom
    split <;> simp
  | cons b bytes ih =>
    simp only [unitsFrom]
    rw [ih, ih (#[] ++ _)]
    simp

/-! ### The two ways to decode -/

/-- The text of the bytes, where every damaged place becomes one U+FFFD. -/
def decodeReplacing (bytes : Bytes) : Text :=
  (units bytes).map (·.getD '\uFFFD')

/-- The text whose UTF-8 form the bytes are, if they are one. -/
def decode? (bytes : Bytes) : Option Text :=
  if (units bytes).all Option.isSome then some (decodeReplacing bytes) else none

end LoxLex.Utf8
