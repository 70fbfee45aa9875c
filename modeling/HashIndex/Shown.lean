/-!
# Records as text

A record shows as its name and its fields, either on one line or with one field a line. The inner
records of the long form are indented by four more columns, and a comma follows every field.

## Main definitions

* `Shown`: a value that can be shown.
* `Shown.compact`, `Shown.pretty`: its two forms.
-/

namespace HashIndex

/-- A value that can be shown: a plain text, or a record with named fields. -/
inductive Shown where
  | plain (text : String)
  | record (name : String) (fields : List (String × Shown))

namespace Shown

def number (value : Nat) : Shown := .plain (toString value)

def flag (value : Bool) : Shown := .plain (if value then "true" else "false")

def quoted (text : String) : Shown := .plain ("\"" ++ text ++ "\"")

mutual

/-- The form on one line. -/
def compact : Shown → String
  | plain text => text
  | record name [] => name
  | record name (field :: fields) =>
    name ++ " \x7b " ++ compactFields (field :: fields) ++ " \x7d"

def compactFields : List (String × Shown) → String
  | [] => ""
  | [(label, value)] => label ++ ": " ++ value.compact
  | (label, value) :: fields => label ++ ": " ++ value.compact ++ ", " ++ compactFields fields

end

mutual

/-- The form with one field a line, where the lines after the first start with `margin`. -/
def prettyAt (margin : String) : Shown → String
  | plain text => text
  | record name [] => name
  | record name (field :: fields) =>
    name ++ " \x7b\n" ++ prettyFieldsAt (margin ++ "    ") (field :: fields) ++ margin ++ "\x7d"

def prettyFieldsAt (margin : String) : List (String × Shown) → String
  | [] => ""
  | (label, value) :: fields =>
    margin ++ label ++ ": " ++ value.prettyAt margin ++ ",\n" ++ prettyFieldsAt margin fields

end

/-- The form with one field a line. -/
def pretty (shown : Shown) : String := shown.prettyAt ""

def render (shown : Shown) (long : Bool) : String := if long then shown.pretty else shown.compact

end Shown

end HashIndex
