/-!
# Hexadecimal numbers

Messages give opcodes and magic numbers in hexadecimal, with a fixed number of digits. Bytes have a
text of two digits each.
-/

namespace Preverification.Hexadecimal

/-- The lower case digit of a number below sixteen. -/
def digit (n : Nat) : Char :=
  let value := n % 16
  Char.ofNat (if value < 10 then 48 + value else 87 + value)

/-- The last `width` hexadecimal digits of a number, the highest one first. -/
def digits : (width n : Nat) → List Char
  | 0, _ => []
  | width + 1, n => digits width (n / 16) ++ [digit n]

/-- The text `0x` and the last `width` digits of a number. -/
def render (width n : Nat) : String := String.ofList ('0' :: 'x' :: digits width n)

/-- The text of bytes, two digits each. -/
def ofBytes (bytes : List UInt8) : String :=
  bytes.foldl (fun text byte =>
    (text.push (digit (byte.toNat / 16))).push (digit byte.toNat)) ""

/-- The number of a digit in either case. -/
def digitValue (c : Char) : Nat := if '9' < c then c.toNat % 32 + 9 else c.toNat - 48

/-- The number of some digits, the highest one first. -/
def value (digits : List Char) : Nat := digits.foldl (fun n c => n * 16 + digitValue c) 0

/-- The bytes of some digits, two each. Those in `found` come earlier. -/
def bytesFrom (found : Array UInt8) : List Char → Array UInt8
  | high :: low :: rest => bytesFrom (found.push (UInt8.ofNat (value [high, low]))) rest
  | _ => found

/-- The bytes of a text, which are two digits each. -/
def toBytes (text : String) : Array UInt8 := bytesFrom #[] text.toList

end Preverification.Hexadecimal
