/-
# JSON values

The value type of `serde_json` (built here with `preserve_order` and
`arbitrary_precision`: objects keep their order of insertion and numbers keep their
text) and the canonical text of a value.  Printing and parsing are the library's own
and are a parameter, `SerdeJson`.
-/
import Mathlib
import EideticEngine.RustText

namespace Serde

/-- `serde_json::Value`. -/
inductive Json where
  | null
  | bool (value : Bool)
  | number (text : String)
  | string (text : String)
  | array (items : List Json)
  | object (entries : List (String × Json))

/-- `serde_json::to_string` and `serde_json::from_str`; an error is its message. -/
structure SerdeJson where
  print : Json → Except String String
  parse : String → Except String Json

/-- `serde_json::to_vec` of a value. -/
def SerdeJson.toVec (serde : SerdeJson) (value : Json) : Except String (List UInt8) :=
  (serde.print value).map RustText.asBytes

namespace Json

/-- How an optional text is written. -/
def ofOption : Option String → Json
  | none => .null
  | some text => .string text

/-- A list of texts. -/
def strings (texts : List String) : Json := .array (texts.map .string)

/-- `Value::get` with a key. -/
def get (key : String) : Json → Option Json
  | .object entries => (entries.find? fun entry => entry.1 = key).map Prod.snd
  | _ => none

/-- `Value::as_str`. -/
def asStr : Json → Option String
  | .string text => some text
  | _ => none

/-- `from_str::<Vec<String>>` on a parsed value. -/
def asStrings : Json → Option (List String)
  | .array items => items.mapM asStr
  | _ => none

/-- The entries of an object in the order of their keys. -/
def sortEntries (entries : List (String × Json)) : List (String × Json) :=
  entries.insertionSort fun a b => (compare a.1 b.1).isLE

mutual

/-- The function `sort` of `canonical_json_string`: keys in order, at every depth. -/
def sorted : Json → Json
  | .object entries => .object (sortEntries (sortedEntries entries))
  | .array items => .array (sortedItems items)
  | .null => .null
  | .bool value => .bool value
  | .number text => .number text
  | .string text => .string text

/-- The values of an object, sorted. -/
def sortedEntries : List (String × Json) → List (String × Json)
  | [] => []
  | (key, value) :: entries => (key, value.sorted) :: sortedEntries entries

/-- The items of an array, sorted. -/
def sortedItems : List Json → List Json
  | [] => []
  | item :: items => item.sorted :: sortedItems items

end

mutual

/-- The compact text of a value whose strings need no escapes. -/
def compact : Json → String
  | .null => "null"
  | .bool true => "true"
  | .bool false => "false"
  | .number text => text
  | .string text => "\"" ++ text ++ "\""
  | .array items => "[" ++ ",".intercalate (compactItems items) ++ "]"
  | .object entries => "\x7b" ++ ",".intercalate (compactEntries entries) ++ "\x7d"

/-- The texts of the items of an array. -/
def compactItems : List Json → List String
  | [] => []
  | item :: items => item.compact :: compactItems items

/-- The texts of the entries of an object. -/
def compactEntries : List (String × Json) → List String
  | [] => []
  | (key, value) :: entries => ("\"" ++ key ++ "\":" ++ value.compact) :: compactEntries entries

end

end Json

end Serde
