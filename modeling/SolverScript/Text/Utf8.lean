/-!
# UTF-8

A text is a sequence of bytes. It is kept as a `String` in which every character stands for one byte
and is therefore below `U+0100`; a text that somebody hands over need not be valid UTF-8, and it is
passed on byte by byte. Only string literals look inside, and for them this file holds the strict
reading of the encoding: no overlong form, no surrogate, nothing above `U+10FFFF`, no truncated
sequence. Code points are returned as characters, so that a decoded text has no invalid one by type.

## Main definitions

* `Utf8.decode?` - the characters that a sequence of bytes encodes, if it encodes any
* `Utf8.encode` - the bytes of one character
-/

namespace SolverScript.Utf8

/-- The six bits carried by a continuation byte. -/
def continuation? (byte : Char) : Option Nat :=
  if 0x80 ≤ byte.toNat ∧ byte.toNat < 0xC0 then some (byte.toNat - 0x80) else none

/-- The scalar value `n`, provided that it is not below `least`, the smallest value for which an
encoding of this length is the shortest one. -/
def scalar? (least n : Nat) : Option Char :=
  if h : n.isValidChar then
    if least ≤ n then some (Char.ofNatAux n h) else none
  else none

/-- The character of a two-byte sequence. -/
def pair? (a b : Char) : Option Char := do
  scalar? 0x80 ((a.toNat - 0xC0) * 64 + (← continuation? b))

/-- The character of a three-byte sequence. -/
def triple? (a b c : Char) : Option Char := do
  scalar? 0x800 (((a.toNat - 0xE0) * 64 + (← continuation? b)) * 64 + (← continuation? c))

/-- The character of a four-byte sequence. -/
def quadruple? (a b c d : Char) : Option Char := do
  scalar? 0x10000
    ((((a.toNat - 0xF0) * 64 + (← continuation? b)) * 64 + (← continuation? c)) * 64 +
      (← continuation? d))

/-- The characters encoded by a sequence of bytes; `none` when it is not valid UTF-8. The first byte
of a sequence says how many bytes belong to it. -/
def decode? : List Char → Option (List Char)
  | [] => some []
  | a :: afterA =>
    if a.toNat < 0x80 then (decode? afterA).map (a :: ·)
    else match afterA with
      | [] => none
      | b :: afterB =>
        if a.toNat < 0xC0 then none
        else if a.toNat < 0xE0 then do
          let x ← pair? a b
          (decode? afterB).map (x :: ·)
        else match afterB with
          | [] => none
          | c :: afterC =>
            if a.toNat < 0xF0 then do
              let x ← triple? a b c
              (decode? afterC).map (x :: ·)
            else match afterC with
              | [] => none
              | d :: afterD =>
                if a.toNat < 0xF8 then do
                  let x ← quadruple? a b c d
                  (decode? afterD).map (x :: ·)
                else none

/-- The bytes of one character. -/
def bytes (c : Char) : List Nat :=
  let n := c.toNat
  if n < 0x80 then [n]
  else if n < 0x800 then [0xC0 + n / 64, 0x80 + n % 64]
  else if n < 0x10000 then [0xE0 + n / 4096, 0x80 + n / 64 % 64, 0x80 + n % 64]
  else [0xF0 + n / 262144, 0x80 + n / 4096 % 64, 0x80 + n / 64 % 64, 0x80 + n % 64]

/-- The encoding of one character as a text. -/
def encode (c : Char) : String :=
  String.ofList ((bytes c).map Char.ofNat)

end SolverScript.Utf8
