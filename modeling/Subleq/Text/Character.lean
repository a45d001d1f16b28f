/-!
# Characters

The classes of characters that texts are read by: blanks, digits, and letters with their case.

White space is that of the Unicode standard, together with the four information separators of ASCII.
The standard also has many sets of ten decimal digits.  Each set takes ten consecutive code points
from its zero on, so that a table of the zeros is enough to find the value of a digit.  Digits of
other bases are the ASCII digits and letters.

Mnemonics and file suffixes are ASCII and are compared with their capital letters made small.  Names
that a person types are compared more freely: characters outside of ASCII that are other forms of
its letters count as those letters.
-/

namespace Subleq.Text

/-! ## Blanks -/

/-- The information separators `0x1c` to `0x1f`. -/
def isSeparator (c : Char) : Bool := 0x1c ≤ c.toNat && c.toNat ≤ 0x1f

/-- White space: the ASCII blanks and controls, and the blanks of Unicode. -/
def isBlank (c : Char) : Bool :=
  let n := c.toNat
  (0x09 ≤ n && n ≤ 0x0d) || isSeparator c || n == 0x20 || n == 0x85 || n == 0xa0 || n == 0x1680 ||
    (0x2000 ≤ n && n ≤ 0x200a) || n == 0x2028 || n == 0x2029 || n == 0x202f || n == 0x205f ||
    n == 0x3000

/-! ## Digits -/

/-- The zeros of all sets of decimal digits, in increasing order. -/
def digitZeros : List Nat :=
  [0x30, 0x660, 0x6f0, 0x7c0, 0x966, 0x9e6, 0xa66, 0xae6, 0xb66, 0xbe6, 0xc66, 0xce6, 0xd66,
   0xde6, 0xe50, 0xed0, 0xf20, 0x1040, 0x1090, 0x17e0, 0x1810, 0x1946, 0x19d0, 0x1a80, 0x1a90,
   0x1b50, 0x1bb0, 0x1c40, 0x1c50, 0xa620, 0xa8d0, 0xa900, 0xa9d0, 0xa9f0, 0xaa50, 0xabf0,
   0xff10, 0x104a0, 0x10d30, 0x11066, 0x110f0, 0x11136, 0x111d0, 0x112f0, 0x11450, 0x114d0,
   0x11650, 0x116c0, 0x11730, 0x118e0, 0x11950, 0x11c50, 0x11d50, 0x11da0, 0x16a60, 0x16ac0,
   0x16b50, 0x1d7ce, 0x1d7d8, 0x1d7e2, 0x1d7ec, 0x1d7f6, 0x1e140, 0x1e2f0, 0x1e950, 0x1fbf0]

/-- The value of a decimal digit of any set. -/
def digitValue? (c : Char) : Option Nat :=
  (digitZeros.find? fun first => first ≤ c.toNat && c.toNat < first + 10).map (c.toNat - ·)

/-- The value of a digit of a base. -/
def digitIn? (base : Nat) (c : Char) : Option Nat :=
  let value :=
    if '0' ≤ c ∧ c ≤ '9' then c.toNat - 0x30
    else if 'a' ≤ c ∧ c ≤ 'f' then c.toNat - 0x57
    else if 'A' ≤ c ∧ c ≤ 'F' then c.toNat - 0x37
    else base
  if value < base then some value else none

def isDigitIn (base : Nat) (c : Char) : Bool := (digitIn? base c).isSome

/-- The number that a run of digits stands for. -/
def digitsValue (base : Nat) (digits : List Char) : Nat :=
  digits.foldl (fun n c => n * base + (digitIn? base c).getD 0) 0

/-! ## Case -/

/-- A text with the capital letters of ASCII made small. -/
def lower (text : String) : String := String.ofList (text.toList.map Char.toLower)

/-- The small letters that a character stands for when case and form are set aside.  Besides the
capital letters of ASCII these are the long and the sharp s, the sign of the kelvin, and the
ligatures of Latin letters; all others stand for nothing in ASCII and are left as they are. -/
def foldChar (c : Char) : List Char :=
  match c.toNat with
  | 0x17f => ['s']
  | 0x212a => ['k']
  | 0xdf | 0x1e9e => ['s', 's']
  | 0xfb00 => ['f', 'f']
  | 0xfb01 => ['f', 'i']
  | 0xfb02 => ['f', 'l']
  | 0xfb03 => ['f', 'f', 'i']
  | 0xfb04 => ['f', 'f', 'l']
  | 0xfb05 | 0xfb06 => ['s', 't']
  | _ => [c.toLower]

/-- A text with case and form set aside. -/
def fold (text : String) : String := String.ofList (text.toList.flatMap foldChar)

end Subleq.Text
