/-!
# Hexadecimal text

Byte strings are written as two hexadecimal digits a byte: in lower case when written, in either
case when read.

## Main definitions

* `Hex.encode`, `Hex.decode?`: a byte string as text, and back.
* `Hex.digits`, `Hex.padded`: a number in hexadecimal, with as few digits as possible or at least
  eight of them.
-/

namespace HashIndex.Hex

def alphabet : List Char := "0123456789abcdef".toList

def digit (value : Nat) : Char := alphabet.getD value '0'

def value? (char : Char) : Option Nat := alphabet.findIdx? (fun other => other == char.toLower)

def encodeChars : List UInt8 → List Char
  | [] => []
  | byte :: bytes =>
    digit (byte.toNat / 16) :: digit (byte.toNat % 16) :: encodeChars bytes

/-- Read pairs of digits; an odd digit out or any other character has no meaning. -/
def decodeChars? : List Char → Option (List UInt8)
  | [] => some []
  | [_] => none
  | high :: low :: rest =>
    match value? high, value? low, decodeChars? rest with
    | some h, some l, some bytes => some (UInt8.ofNat (16 * h + l) :: bytes)
    | _, _, _ => none

/-- A byte string in lower-case hexadecimal. -/
def encode (bytes : List UInt8) : String := String.ofList (encodeChars bytes)

/-- The byte string that a hexadecimal text stands for. -/
def decode? (text : String) : Option (List UInt8) := decodeChars? text.toList

def digits (value : Nat) : String := String.ofList (Nat.toDigits 16 value)

/-- A number in lower-case hexadecimal, filled up with zeros to eight digits. -/
def padded (value : Nat) : String :=
  String.ofList ((Nat.toDigits 16 value).leftpad 8 '0')

/-- A digit is read back as its value. -/
theorem value?_digit : ∀ n < 16, value? (digit n) = some n := by
  decide

theorem decodeChars?_encodeChars (bytes : List UInt8) :
    decodeChars? (encodeChars bytes) = some bytes := by
  induction bytes with
  | nil => rfl
  | cons byte bytes ih =>
    have hlt : byte.toNat < 256 := byte.toNat_lt
    have hsum : 16 * (byte.toNat / 16) + byte.toNat % 16 = byte.toNat := by omega
    simp [encodeChars, decodeChars?, value?_digit _ (show byte.toNat / 16 < 16 by omega),
      value?_digit _ (show byte.toNat % 16 < 16 by omega), ih, hsum]

/-- What is written is read back. -/
theorem decode?_encode (bytes : List UInt8) : decode? (encode bytes) = some bytes := by
  simp [decode?, encode, decodeChars?_encodeChars]

end HashIndex.Hex
