import PixelKernel.Decimal.Text

/-! # JSON values

Whole numbers written without point or exponent stay integers. The fields of an object
are kept in the order of their names, each name once.
-/

namespace PixelKernel

inductive Json where
  | null
  | bool (b : Bool)
  | int (n : Int)
  | float (x : Float)
  | str (s : String)
  | arr (items : List Json)
  | obj (fields : List (String × Json))
  deriving Repr, BEq, Inhabited

namespace Json

/-- Puts a field in its place; a later one of the same name wins. -/
def insertField (name : String) (v : Json) : List (String × Json) → List (String × Json)
  | [] => [(name, v)]
  | (k, w) :: rest =>
    if name = k then (name, v) :: rest
    else if name < k then (name, v) :: (k, w) :: rest
    else (k, w) :: insertField name v rest

def mkObj (fields : List (String × Json)) : Json :=
  .obj (fields.foldl (fun fs (k, v) => insertField k v fs) [])

def field? (name : String) : Json → Option Json
  | obj fields => fields.lookup name
  | _ => none

def hexDigit (n : Nat) : Char := "0123456789abcdef".toList.getD n '0'

def escape (c : Char) : String :=
  match c with
  | '"' => "\\\""
  | '\\' => "\\\\"
  | '\x08' => "\\b"
  | '\x0c' => "\\f"
  | '\n' => "\\n"
  | '\r' => "\\r"
  | '\t' => "\\t"
  | c =>
    if c.toNat < 32 then
      "\\u00" ++ String.ofList [hexDigit (c.toNat / 16), hexDigit (c.toNat % 16)]
    else String.singleton c

def quote (s : String) : String :=
  "\"" ++ String.join (s.toList.map escape) ++ "\""

/-- A double in data; what JSON cannot write becomes `null`. -/
def floatText (x : Float) : String :=
  if x.isFinite then Decimal.textFloat .data x else "null"

/-- A single-precision number in a record. -/
def float32Text (x : Float32) : String :=
  if x.isFinite then Decimal.textFloat32 .record x else "null"

mutual

/-- Text without blanks. -/
def compact : Json → String
  | null => "null"
  | bool b => if b then "true" else "false"
  | int n => toString n
  | float x => floatText x
  | str s => quote s
  | arr items => "[" ++ ",".intercalate (compactItems items) ++ "]"
  | obj fields => "\x7b" ++ ",".intercalate (compactFields fields) ++ "\x7d"

def compactItems : List Json → List String
  | [] => []
  | v :: rest => v.compact :: compactItems rest

def compactFields : List (String × Json) → List String
  | [] => []
  | (k, v) :: rest => (quote k ++ ":" ++ v.compact) :: compactFields rest

end

def indent (n : Nat) : String := String.ofList (List.replicate (2 * n) ' ')

/-- Lines of a bracketed list whose items are at level `n + 1`. -/
def bracketed (n : Nat) (left right : String) (items : List String) : String :=
  if items.isEmpty then left ++ right
  else
    let lines := items.map fun s => "\n" ++ indent (n + 1) ++ s
    left ++ ",".intercalate lines ++ "\n" ++ indent n ++ right

mutual

/-- Text with one item a line, two blanks to a level. -/
def pretty (n : Nat) : Json → String
  | arr items => bracketed n "[" "]" (prettyItems n items)
  | obj fields => bracketed n "\x7b" "\x7d" (prettyFields n fields)
  | v => v.compact

def prettyItems (n : Nat) : List Json → List String
  | [] => []
  | v :: rest => v.pretty (n + 1) :: prettyItems n rest

def prettyFields (n : Nat) : List (String × Json) → List String
  | [] => []
  | (k, v) :: rest => (quote k ++ ": " ++ v.pretty (n + 1)) :: prettyFields n rest

end

end Json
end PixelKernel
