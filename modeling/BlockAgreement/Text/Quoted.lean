import BlockAgreement.Text.Printable

/-!
# Quoted text

A text between double quotes. The quote, the backslash and the usual control characters get a
backslash; any other character that does not print is written by its code point in hexadecimal.
-/

set_option autoImplicit false

namespace BlockAgreement.Quoted

def encodeChar (c : Char) : List Char :=
  if c = '"' then ['\\', '"']
  else if c = '\\' then ['\\', '\\']
  else if c = '\n' then ['\\', 'n']
  else if c = '\r' then ['\\', 'r']
  else if c = '\t' then ['\\', 't']
  else if c.toNat = 0 then ['\\', '0']
  else if Printable.isSilent c then
    ['\\', 'u', '\x7b'] ++ Nat.toDigits 16 c.toNat ++ ['\x7d']
  else [c]

def encode (s : String) : String := String.ofList ('"' :: s.toList.flatMap encodeChar ++ ['"'])

end BlockAgreement.Quoted
