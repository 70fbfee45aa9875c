import HashIndex.Datum
import HashIndex.Hex
import HashIndex.Script.Answer
import HashIndex.Sdbm

/-!
# Kinds of keys

The elements of a script have keys of one kind: texts, byte strings, or words of 32 or 64 bits. The
kind tells how keys are read and written, and which strategies there are for them.

## Main definitions

* `KeyKind`: how to deal with keys of one type.
* `KeyKind.text`, `KeyKind.bytes`, `KeyKind.word`, `KeyKind.size`: the four kinds.
-/

namespace HashIndex

open Script

/-- How to deal with keys of one type. -/
structure KeyKind (K : Type) where
  read? : Datum → Option K
  write : K → Datum
  /-- The label of an element that is made from its key alone. -/
  label : K → String
  strategies : List (String × Strategy (Item K) K)

namespace KeyKind

def strategy? {K : Type} (kind : KeyKind K) (name : String) : Option (Strategy (Item K) K) :=
  kind.strategies.lookup name

/-- How a strategy shows: its title, and the types of its values and keys. -/
def shown (title value key : String) : Shown :=
  .record ("oracle::" ++ title)
    [("value", .quoted ("oracle::Item<" ++ value ++ ">")), ("key", .quoted key)]

/-- A strategy that announces what is dropped, by its name. -/
def announcing {K : Type} [DecidableEq K] (name : String) (shown : Shown) (hash : K → UInt32) :
    String × Strategy (Item K) K :=
  (name, .usual Item.key hash (.announce name) shown)

/-! ## Texts -/

/-- A text with the letters of ASCII in lower case. -/
def lowered (text : String) : String := text.map Char.toLower

/-- The first byte of a text in UTF-8, or 0 if there is none. -/
def firstByte (text : String) : UInt32 := ((Sdbm.utf8 text).headD 0).toUInt32

def strict (name title : String) (hash : String → UInt32) :
    String × Strategy (Item String) String :=
  announcing name (shown title "alloc::string::String" "str") hash

def relaxed (name title : String) (hash : String → UInt32) (equal : String → String → Bool) :
    String × Strategy (Item String) String :=
  let (name, strategy) := strict name title hash
  (name, { strategy with equal := fun item key => equal item.key key })

def silent (name title : String) (hash : String → UInt32) :
    String × Strategy (Item String) String :=
  let (name, strategy) := strict name title hash
  (name, { strategy with release := .drop })

def text : KeyKind String where
  read? := Datum.text?
  write := .text
  label := id
  strategies := [
    strict "words" "Words" Sdbm.ofString,
    silent "plain" "Plain" Sdbm.ofString,
    strict "colliding" "Colliding" (fun _ => 0),
    strict "length" "Length" (fun key => UInt32.ofNat key.utf8ByteSize),
    strict "first" "First" firstByte,
    relaxed "nocase" "NoCase" (fun key => Sdbm.ofString (lowered key))
      (fun stored key => lowered stored = lowered key),
    relaxed "sloppy" "Sloppy" Sdbm.ofString (fun stored key => lowered stored = lowered key),
    relaxed "prefix" "Prefix" firstByte (fun stored key => key.toList.isPrefixOf stored.toList),
    relaxed "never" "Never" Sdbm.ofString (fun _ _ => false)]

/-! ## Byte strings -/

/-- The hash of the last byte, as of one that follows bytes whose hash is 1. -/
def lastByteHash (bytes : List UInt8) : UInt32 :=
  match bytes.getLast? with
  | none => 0
  | some byte => Sdbm.step byte 1

def bytes : KeyKind (List UInt8) where
  read? d := d.text?.bind Hex.decode?
  write key := .text (Hex.encode key)
  label := Hex.encode
  strategies := [
    announcing "bytes" (shown "Bytes" "alloc::vec::Vec<u8>" "[u8]") Sdbm.ofBytes,
    announcing "last" (shown "Last" "alloc::vec::Vec<u8>" "[u8]") lastByteHash]

/-! ## Words -/

def word : KeyKind UInt32 where
  read? d := (d.natBelow? UInt32.size).map UInt32.ofNat
  write key := .ofNat key.toNat
  label := toString
  strategies := [
    announcing "ids" (shown "Ids" "u32" "u32") Sdbm.ofWord,
    announcing "invert" (shown "Invert" "u32" "u32") (fun key => ~~~key),
    announcing "shift" (shown "Shift" "u32" "u32") (fun key => key <<< 5)]

def size : KeyKind UInt64 where
  read? d := (d.natBelow? UInt64.size).map UInt64.ofNat
  write key := .ofNat key.toNat
  label := toString
  strategies := [
    announcing "mod3" (shown "Mod3" "usize" "usize") (fun key => (key % 3).toUInt32),
    announcing "trunc" (shown "Trunc" "usize" "usize") UInt64.toUInt32]

end KeyKind

end HashIndex
