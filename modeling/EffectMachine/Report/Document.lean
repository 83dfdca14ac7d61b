import EffectMachine.Number.Decimal
import EffectMachine.Number.Hex

namespace EffectMachine

inductive Document where
  | null
  | bool (b : Bool)
  | number (n : Int)
  | scalar (x : Scalar)
  | text (s : String)
  | list (items : List Document)
  | record (fields : List (String × Document))

namespace Document

def natural (n : Nat) : Document := number n

def escape (c : Char) : List Char :=
  if c = '"' then ['\\', '"']
  else if c = '\\' then ['\\', '\\']
  else if c = '\n' then ['\\', 'n']
  else if c = '\r' then ['\\', 'r']
  else if c = '\t' then ['\\', 't']
  else if c = '\x08' then ['\\', 'b']
  else if c = '\x0c' then ['\\', 'f']
  else if c.toNat < 32 then ['\\', 'u', '0', '0'] ++ Hex.pair (UInt8.ofNat c.toNat)
  else [c]

def quoted (s : String) : String := "\"" ++ String.ofList (s.toList.flatMap escape) ++ "\""

private def indent (depth : Nat) : String := String.ofList (List.replicate (2 * depth) ' ')

/-- A number in structured text, which has no place for what is not finite. -/
def scalarText (x : Scalar) : String :=
  match x.reading with
  | .finite d => NumeralStyle.structured.finite .single d
  | _ => "null"

mutual

/-- Each item of a list and each field of a record on a line of its own, two blanks deeper. -/
def render (depth : Nat) : Document → String
  | null => "null"
  | bool b => if b then "true" else "false"
  | number n => toString n
  | scalar x => scalarText x
  | text s => quoted s
  | list [] => "[]"
  | list (d :: ds) =>
    "[\n" ++ indent (depth + 1) ++ render (depth + 1) d ++ renderItems (depth + 1) ds ++ "\n" ++
      indent depth ++ "]"
  | record [] => "\x7b\x7d"
  | record ((key, d) :: fields) =>
    "\x7b\n" ++ indent (depth + 1) ++ quoted key ++ ": " ++ render (depth + 1) d ++
      renderFields (depth + 1) fields ++ "\n" ++ indent depth ++ "\x7d"

def renderItems (depth : Nat) : List Document → String
  | [] => ""
  | d :: ds => ",\n" ++ indent depth ++ render depth d ++ renderItems depth ds

def renderFields (depth : Nat) : List (String × Document) → String
  | [] => ""
  | (key, d) :: fields =>
    ",\n" ++ indent depth ++ quoted key ++ ": " ++ render depth d ++ renderFields depth fields

end

/-- Does a document stand under a heading of its own? Lists do when they hold records only. -/
def isTable : Document → Bool
  | record _ => true
  | list (record _ :: items) => items.all fun | record _ => true | _ => false
  | _ => false

def longestRun (quote : Char) (cs : List Char) : Nat :=
  (cs.foldl (fun (best, run) c => if c = quote then (max best (run + 1), run + 1) else (best, 0))
    (0, 0)).1

/-- A text as a setting: in the first quotes that need no escape, one of a kind before three and
double ones before single ones. Between three quotes no three of the kind may stand. -/
def settingText (s : String) : String :=
  let cs := s.toList
  let singles := longestRun '\'' cs
  let doubles := longestRun '"' cs
  let asItStands := cs.all fun c => 32 ≤ c.toNat && c.toNat ≠ 127
  let unescaped := asItStands && !cs.contains '\\'
  if unescaped && doubles = 0 then "\"" ++ s ++ "\""
  else if asItStands && singles = 0 then "'" ++ s ++ "'"
  else if unescaped && doubles < 3 then "\"\"\"" ++ s ++ "\"\"\""
  else if asItStands && singles < 3 then "'''" ++ s ++ "'''"
  else quoted s

def settingScalar (x : Scalar) : String :=
  match Layout.double.read x.widen.toBits.toNat with
  | .finite d => NumeralStyle.pointed.finite .double d
  | .infinite negative => if negative then "-inf" else "inf"
  | .notANumber => "nan"

mutual

/-- A value after its key; a list of several values has a line for each. -/
def settingValue : Document → String
  | null => "\"\""
  | bool b => if b then "true" else "false"
  | number n => toString n
  | scalar x => settingScalar x
  | text s => settingText s
  | list [] => "[]"
  | list [d] => "[" ++ settingValue d ++ "]"
  | list (d :: ds) => "[" ++ settingItems (d :: ds) ++ "\n]"
  | record [] => "\x7b\x7d"
  | record fields => "\x7b " ++ String.intercalate ", " (settingFields fields) ++ " \x7d"

def settingItems : List Document → String
  | [] => ""
  | d :: ds => "\n    " ++ settingValue d ++ "," ++ settingItems ds

def settingFields : List (String × Document) → List String
  | [] => []
  | (key, d) :: fields => (key ++ " = " ++ settingValue d) :: settingFields fields

end

private def settingLine (key : String) (d : Document) : List String :=
  if d.isTable then [] else [key ++ " = " ++ settingValue d ++ "\n"]

def plainLines (fields : List (String × Document)) : String :=
  String.join (fields.flatMap fun (key, d) => settingLine key d)

/-- A block under a heading; a record of tables only needs none. -/
private def headed (open_ close path : String) (fields : List (String × Document)) (always : Bool) :
    List String :=
  let lines := plainLines fields
  if always || lines ≠ "" || fields.isEmpty then [open_ ++ path ++ close ++ "\n" ++ lines] else []

mutual

def tableBlocks (path : String) : List (String × Document) → List String
  | [] => []
  | (key, d) :: fields =>
    let inner := if path = "" then key else path ++ "." ++ key
    let own := match d with
      | record content => headed "[" "]" inner content false ++ tableBlocks inner content
      | list items => if d.isTable then itemBlocks inner items else []
      | _ => []
    own ++ tableBlocks path fields

def itemBlocks (path : String) : List Document → List String
  | [] => []
  | record content :: items =>
    headed "[[" "]]" path content true ++ tableBlocks path content ++ itemBlocks path items
  | _ :: items => itemBlocks path items

end

/-- A record as settings: plain fields first, then a block for each table. -/
def settings : Document → String
  | record fields =>
    let plain := plainLines fields
    String.intercalate "\n" ((if plain = "" then [] else [plain]) ++ tableBlocks "" fields)
  | other => settingValue other

end Document
end EffectMachine
