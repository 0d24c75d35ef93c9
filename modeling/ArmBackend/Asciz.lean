/-!
# String constants as assembler text

The escapes of an `.asciz` directive. A text is written byte by byte in its UTF-8 form, with printable
ASCII as it is, five short escapes, and three octal digits for everything else.
-/

namespace ArmBackend.Asciz

/-- The last octal digit of `n`. -/
def octalDigit (n : Nat) : Char := Char.ofNat (48 + n % 8)

def escapeByte (byte : UInt8) : List Char :=
  let n := byte.toNat
  if n = 34 then ['\\', '"']
  else if n = 92 then ['\\', '\\']
  else if n = 10 then ['\\', 'n']
  else if n = 9 then ['\\', 't']
  else if n = 13 then ['\\', 'r']
  else if 32 ≤ n ∧ n ≤ 126 then [Char.ofNat n]
  else ['\\', octalDigit (n / 64), octalDigit (n / 8), octalDigit n]

/-- The bytes of the UTF-8 form of a text. -/
def utf8 (text : String) : List UInt8 := text.toList.flatMap String.utf8EncodeChar

def escape (text : String) : String := String.ofList ((utf8 text).flatMap escapeByte)

end ArmBackend.Asciz
