import Subleq.Text.Quoted

/-!
# UTF-8

Characters as bytes, and bytes as characters.  Decoding refuses everything that encoding does not
produce, and says which bytes are at fault and why, by the rule that a sequence is refused at the
first byte that cannot belong to it.
-/

namespace Subleq.Text.Utf8

def encodeCode (n : Nat) : List Nat :=
  if n < 0x80 then [n]
  else if n < 0x800 then [0xc0 + n / 64, 0x80 + n % 64]
  else if n < 0x10000 then [0xe0 + n / 4096, 0x80 + n / 64 % 64, 0x80 + n % 64]
  else [0xf0 + n / 262144, 0x80 + n / 4096 % 64, 0x80 + n / 64 % 64, 0x80 + n % 64]

def encode (text : List Char) : List Nat := text.flatMap fun c => encodeCode c.toNat

/-- Why bytes are no text. -/
inductive Reason
  | badStart
  | badContinuation
  | truncated
deriving DecidableEq, Repr

def Reason.message : Reason → String
  | badStart => "invalid start byte"
  | badContinuation => "invalid continuation byte"
  | truncated => "unexpected end of data"

/-- The bytes that are no text: `count` of them from `position` on, the first being `byte`. -/
structure Fault where
  reason : Reason
  position : Nat
  count : Nat
  byte : Nat
deriving DecidableEq, Repr

def Fault.message (fault : Fault) : String :=
  let place :=
    if fault.count = 1 then
      "byte 0x" ++ String.ofList (hex 2 fault.byte) ++ " in position " ++ toString fault.position
    else
      "bytes in position " ++ toString fault.position ++ "-"
        ++ toString (fault.position + fault.count - 1)
  "'utf-8' codec can't decode " ++ place ++ ": " ++ fault.reason.message

/-- A byte that continues a sequence, given the least and greatest value it may have there. -/
def continues (low high : Nat) (byte : Nat) : Bool := low ≤ byte && byte ≤ high

/-- How many bytes follow a first byte, the bits of the code point in it, and the range of the byte
after it, which keeps out longer forms than needed, surrogates and what lies past the last plane. -/
def sequence? (byte : Nat) : Option (Nat × Nat × Nat × Nat) :=
  if byte < 0x80 then some (0, byte, 0x80, 0xbf)
  else if byte < 0xc2 then none
  else if byte < 0xe0 then some (1, byte - 0xc0, 0x80, 0xbf)
  else if byte < 0xf0 then
    some (2, byte - 0xe0, if byte = 0xe0 then 0xa0 else 0x80, if byte = 0xed then 0x9f else 0xbf)
  else if byte < 0xf5 then
    some (3, byte - 0xf0, if byte = 0xf0 then 0x90 else 0x80, if byte = 0xf4 then 0x8f else 0xbf)
  else none

/-- Bytes read so far of a sequence: where it starts and its first byte, the bits it has, how many
bytes are to come, and the range of the next one. -/
structure Partial where
  position : Nat
  first : Nat
  code : Nat
  missing : Nat
  low : Nat
  high : Nat
deriving DecidableEq, Repr

/-- Decodes the bytes from `position` on, of which the first belong to an unfinished sequence if
there is one.  `chars` are the characters before them, the last one first. -/
def decodeFrom : (position : Nat) → Option Partial → (chars : List Char) → List Nat →
    Except Fault (List Char)
  | _, none, chars, [] => .ok chars.reverse
  | position, some p, _, [] => .error ⟨.truncated, p.position, position - p.position, p.first⟩
  | position, none, chars, byte :: rest =>
      match sequence? byte with
      | none => .error ⟨.badStart, position, 1, byte⟩
      | some (0, code, _, _) => decodeFrom (position + 1) none (Char.ofNat code :: chars) rest
      | some (missing, code, low, high) =>
          decodeFrom (position + 1) (some ⟨position, byte, code, missing, low, high⟩) chars rest
  | position, some p, chars, byte :: rest =>
      if continues p.low p.high byte then
        let code := p.code * 64 + (byte - 0x80)
        if p.missing = 1 then decodeFrom (position + 1) none (Char.ofNat code :: chars) rest
        else
          decodeFrom (position + 1)
            (some { p with code, missing := p.missing - 1, low := 0x80, high := 0xbf }) chars rest
      else .error ⟨.badContinuation, p.position, position - p.position, p.first⟩

def decode (bytes : List Nat) : Except Fault (List Char) := decodeFrom 0 none [] bytes

end Subleq.Text.Utf8
