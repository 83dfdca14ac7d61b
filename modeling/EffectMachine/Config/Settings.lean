import EffectMachine.Number.Scalar

namespace EffectMachine

/-- How a table came to be, which decides what may be added to it. -/
inductive TableKind where
  /-- A heading of its own. -/
  | headed
  /-- Only part of the path of a heading. -/
  | implied
  /-- Part of a dotted key. -/
  | dotted
  /-- Between braces; nothing may be added. -/
  | closed
deriving DecidableEq

inductive Setting where
  | text (s : String)
  | integer (n : Int)
  | float (v : Float)
  | boolean (b : Bool)
  | moment
  | list (items : List Setting)
  | table (kind : TableKind) (entries : List (String × Setting))
  /-- Tables under repeated headings, latest first. -/
  | tables (items : List (List (String × Setting)))

namespace Setting

abbrev Entries := List (String × Setting)

def put (key : String) (value : Setting) : Entries → Entries
  | [] => [(key, value)]
  | (k, v) :: rest => if k = key then (key, value) :: rest else (k, v) :: put key value rest

/-- Changes the table at the end of a path. Tables on the way come to be as `fresh`; a dotted key
goes through no table that has a heading. -/
def within (fresh : TableKind) (change : TableKind → Entries → Option Entries) :
    List String → TableKind → Entries → Option Entries
  | [], kind, entries => change kind entries
  | key :: path, _, entries =>
    match entries.lookup key with
    | none => do
      let inner ← within fresh change path fresh []
      return put key (table fresh inner) entries
    | some (table kind inner) =>
      if kind = .closed || (fresh = .dotted && kind = .headed) then none
      else do
        let inner ← within fresh change path kind inner
        return put key (table kind inner) entries
    | some (tables (inner :: others)) => do
      let inner ← within fresh change path .headed inner
      return put key (tables (inner :: others)) entries
    | some _ => none

/-- Adds a value under a new key. A dotted key ends in a table that dotted keys made. -/
def define (path : List String) (key : String) (value : Setting) (here : TableKind)
    (entries : Entries) : Option Entries :=
  within .dotted
    (fun kind inner =>
      if (!path.isEmpty && kind ≠ .dotted) || (inner.lookup key).isSome then none
      else some (inner ++ [(key, value)]))
    path here entries

def openTable (path : List String) (key : String) (entries : Entries) : Option Entries :=
  within .implied
    (fun _ inner =>
      match inner.lookup key with
      | none => some (inner ++ [(key, table .headed [])])
      | some (table .implied content) => some (put key (table .headed content) inner)
      | some _ => none)
    path .headed entries

def openItem (path : List String) (key : String) (entries : Entries) : Option Entries :=
  within .implied
    (fun _ inner =>
      match inner.lookup key with
      | none => some (inner ++ [(key, tables [[]])])
      | some (tables items) => some (put key (tables ([] :: items)) inner)
      | some _ => none)
    path .headed entries

def defineUnder (heading path : List String) (key : String) (value : Setting) (entries : Entries) :
    Option Entries :=
  within .implied (fun kind inner => define path key value kind inner) heading .headed entries

/-- How many lists and tables may stand inside one another, and how many names make a key. -/
def mostNested : Nat := 79

/-- Reads from the front of a text, or fails. -/
abbrev Scan := StateT (List Char) Option

namespace Scan

def peek : Scan (Option Char) := fun cs => some (cs.head?, cs)

def failed {α : Type} : Scan α := fun _ => none

def next : Scan Char := fun
  | [] => none
  | c :: cs => some (c, cs)

def expect (s : String) : Scan Unit := fun cs =>
  if s.toList.isPrefixOf cs then some ((), cs.drop s.length) else none

def accept (s : String) : Scan Bool := fun cs =>
  if s.toList.isPrefixOf cs then some (true, cs.drop s.length) else some (false, cs)

def takeWhile (p : Char → Bool) : Scan (List Char) := fun cs =>
  some (cs.takeWhile p, cs.dropWhile p)

def blanks : Scan Unit := do let _ ← takeWhile fun c => c = ' ' || c = '\t'

/-- May a character stand in a comment or a quoted text? -/
def isPlain (c : Char) : Bool := c = '\t' || (32 ≤ c.toNat && c.toNat ≠ 127)

def comment : Scan Unit := do
  if ← accept "#" then let _ ← takeWhile isPlain

def lineEnd? : Scan Bool := do
  if ← accept "\n" then return true
  accept "\r\n"

def space : Nat → Scan Unit
  | 0 => failed
  | n + 1 => do
    blanks
    comment
    if ← lineEnd? then space n

def blankLines : Nat → Scan Unit
  | 0 => failed
  | n + 1 => do
    blanks
    if ← lineEnd? then blankLines n

def isBare (c : Char) : Bool := c.isAlphanum || c = '_' || c = '-'

def hexValue? (c : Char) : Option Nat :=
  if c.isDigit then some (c.toNat - 48)
  else if 'a' ≤ c && c ≤ 'f' then some (c.toNat - 87)
  else if 'A' ≤ c && c ≤ 'F' then some (c.toNat - 55)
  else none

def codePoint : Nat → Nat → Scan Char
  | 0, n => if n.isValidChar then return Char.ofNat n else failed
  | k + 1, n => do
    match hexValue? (← next) with
    | some d => codePoint k (16 * n + d)
    | none => failed

def escaped : Scan Char := do
  match ← next with
  | 'b' => return '\x08'
  | 't' => return '\t'
  | 'n' => return '\n'
  | 'f' => return '\x0c'
  | 'r' => return '\r'
  | '"' => return '"'
  | '\\' => return '\\'
  | 'u' => codePoint 4 0
  | 'U' => codePoint 8 0
  | _ => failed

/-- The rest of a text on one line, up to its quote. -/
def line (quote : Char) (escapes : Bool) : Nat → List Char → Scan (List Char)
  | 0, _ => failed
  | n + 1, done => do
    let c ← next
    if c = quote then return done.reverse
    else if escapes && c = '\\' then line quote escapes n ((← escaped) :: done)
    else if isPlain c then line quote escapes n (c :: done)
    else failed

/-- The rest of a text over several lines, up to three quotes; two more may stand before those. -/
def block (quote : Char) (escapes : Bool) : Nat → List Char → Scan (List Char)
  | 0, _ => failed
  | n + 1, done => do
    if ← accept (String.ofList [quote, quote, quote]) then
      let extra ← takeWhile (· = quote)
      if extra.length ≤ 2 then return (extra ++ done).reverse else failed
    else if ← lineEnd? then block quote escapes n ('\n' :: done)
    else
      let c ← next
      if escapes && c = '\\' then
        let rest ← get
        let blank := rest.dropWhile fun c => c = ' ' || c = '\t'
        if blank.head? = some '\n' || "\r\n".toList.isPrefixOf blank then
          blankLines (rest.length + 1)
          block quote escapes n done
        else block quote escapes n ((← escaped) :: done)
      else if isPlain c then block quote escapes n (c :: done)
      else failed

def quotedLine : Scan String := do
  let n := (← get).length + 1
  match ← next with
  | '"' => return String.ofList (← line '"' true n [])
  | '\'' => return String.ofList (← line '\'' false n [])
  | _ => failed

/-- A quoted text; three quotes open one of several lines. -/
def quoted : Scan String := do
  let n := (← get).length + 1
  if ← accept "\"\"\"" then
    let _ ← lineEnd?
    return String.ofList (← block '"' true n [])
  else if ← accept "'''" then
    let _ ← lineEnd?
    return String.ofList (← block '\'' false n [])
  else quotedLine

def simpleKey : Scan String := do
  match ← peek with
  | some '"' => quotedLine
  | some '\'' => quotedLine
  | _ =>
    let name ← takeWhile isBare
    if name.isEmpty then failed else return String.ofList name

def names : Nat → Scan (List String)
  | 0 => failed
  | n + 1 => do
    blanks
    let key ← simpleKey
    blanks
    if ← accept "." then return key :: (← names n) else return [key]

def dottedKey (n : Nat) : Scan (List String) := do
  let path ← names n
  if path.length ≤ mostNested then return path else failed

end Scan

/-- Digits, with single underscores between them left out. -/
def digits? (isDigit : Char → Bool) (cs : List Char) : Option (List Char) :=
  match cs with
  | [] => none
  | [c] => if isDigit c then some [c] else none
  | c :: '_' :: rest => if isDigit c then (digits? isDigit rest).map (c :: ·) else none
  | c :: rest => if isDigit c then (digits? isDigit rest).map (c :: ·) else none

def valueOf (base : Nat) (cs : List Char) : Nat :=
  cs.foldl (fun n c => base * n + (Scan.hexValue? c).getD 0) 0

def signOf : List Char → Option Bool × List Char
  | '+' :: rest => (some false, rest)
  | '-' :: rest => (some true, rest)
  | rest => (none, rest)

/-- A whole number without needless zeros in front. -/
def decimal? (cs : List Char) : Option (List Char) :=
  match digits? Char.isDigit cs with
  | some ('0' :: _ :: _) => none
  | found => found

/-- Whole numbers have 64 bits. -/
def inRange? (n : Int) : Option Setting :=
  if -0x8000000000000000 ≤ n ∧ n < 0x8000000000000000 then some (integer n) else none

def based? (base : Nat) (isDigit : Char → Bool) (cs : List Char) : Option Setting := do
  inRange? (valueOf base (← digits? isDigit cs))

def integer? (cs : List Char) : Option Setting :=
  match cs with
  | '0' :: 'x' :: rest => based? 16 (fun c => (Scan.hexValue? c).isSome) rest
  | '0' :: 'o' :: rest => based? 8 (fun c => '0' ≤ c && c ≤ '7') rest
  | '0' :: 'b' :: rest => based? 2 (fun c => c = '0' || c = '1') rest
  | _ => do
    let (sign, rest) := signOf cs
    let n : Int := valueOf 10 (← decimal? rest)
    inRange? (if sign = some true then -n else n)

/-- `n · 10 ^ e` in double precision; what is far out of range is settled without computing it. -/
def scaled (n : Nat) (e : Int) : Float :=
  let places := (Nat.toDigits 10 n).length + e
  if n = 0 || places < -400 then 0
  else if 400 < places then 1 / 0
  else if e < 0 then Float.ofScientific n true e.natAbs else Float.ofScientific n false e.natAbs

def exponent? : List Char → Option Int
  | [] => some 0
  | _ :: rest => do
    let (sign, rest) := signOf rest
    let n : Int := valueOf 10 (← digits? Char.isDigit rest)
    return if sign = some true then -n else n

def isExponentMark (c : Char) : Bool := c = 'e' || c = 'E'

/-- A number with a fraction, an exponent or both; one too large for its precision has no value. -/
def float? (cs : List Char) : Option Setting :=
  let (sign, rest) := signOf cs
  let negative := sign = some true
  if rest = "inf".toList then some (float (if negative then -(1 / 0) else 1 / 0))
  else if rest = "nan".toList then some (float (0 / 0))
  else
    let mantissa := rest.takeWhile fun c => !isExponentMark c
    let power := rest.dropWhile fun c => !isExponentMark c
    let whole := mantissa.takeWhile (· ≠ '.')
    let fraction := mantissa.dropWhile (· ≠ '.')
    if fraction.isEmpty && power.isEmpty then none
    else do
      let whole ← decimal? whole
      let fraction ← if fraction.isEmpty then some [] else digits? Char.isDigit (fraction.drop 1)
      let e ← exponent? power
      let v := scaled (valueOf 10 (whole ++ fraction)) (e - fraction.length)
      if negative then return float (-v)
      else if v.isInf then none
      else return float v

private def number? (low high : Nat) (cs : List Char) : Bool :=
  cs.all Char.isDigit && low ≤ valueOf 10 cs && valueOf 10 cs ≤ high

private def daysIn (year month : Nat) : Nat :=
  if month = 2 then
    if year % 4 = 0 && (year % 100 ≠ 0 || year % 400 = 0) then 29 else 28
  else if [4, 6, 9, 11].contains month then 30 else 31

def isDate : List Char → Bool
  | [a, b, c, d, '-', e, f, '-', g, h] =>
    number? 0 9999 [a, b, c, d] && number? 1 12 [e, f] &&
      number? 1 (daysIn (valueOf 10 [a, b, c, d]) (valueOf 10 [e, f])) [g, h]
  | _ => false

def isFraction : List Char → Bool
  | [] => true
  | '.' :: rest => !rest.isEmpty && rest.all Char.isDigit
  | _ => false

/-- A time of day, `hh:mm:ss` with or without a fraction. -/
def isTime : List Char → Bool
  | a :: b :: ':' :: c :: d :: ':' :: e :: f :: rest =>
    number? 0 23 [a, b] && number? 0 59 [c, d] && number? 0 60 [e, f] && isFraction rest
  | _ => false

def isOffsetTime (cs : List Char) : Bool :=
  let time := cs.takeWhile fun c => !(['Z', 'z', '+', '-'].contains c)
  isTime time &&
    match cs.drop time.length with
    | [] => true
    | ['Z'] => true
    | ['z'] => true
    | [sign, a, b, ':', c, d] =>
      ['+', '-'].contains sign && number? 0 23 [a, b] && number? 0 59 [c, d]
    | _ => false

def isMoment (cs : List Char) : Bool :=
  isTime cs || isDate cs ||
    (isDate (cs.take 10) && [some 'T', some 't', some ' '].contains cs[10]? &&
      isOffsetTime (cs.drop 11))

def plain? (cs : List Char) : Option Setting :=
  if cs = "true".toList then some (boolean true)
  else if cs = "false".toList then some (boolean false)
  else ((integer? cs).or (float? cs)).or (if isMoment cs then some moment else none)

/-- The characters of a plain value; a day and a time may have a blank between them. -/
def plainText : Scan (List Char) := do
  let isPart (c : Char) : Bool := c.isAlphanum || ['_', '+', '-', '.', ':'].contains c
  let first ← Scan.takeWhile isPart
  match ← get with
  | ' ' :: c :: _ =>
    if isDate first && c.isDigit then
      let _ ← Scan.next
      return first ++ ' ' :: (← Scan.takeWhile isPart)
    else return first
  | _ => return first

def plain : Scan Setting := do
  match plain? (← plainText) with
  | some v => return v
  | none => Scan.failed

mutual

/-- A value with so many lists and tables inside one another at most. -/
def value : Nat → Nat → Scan Setting
  | 0, _ => Scan.failed
  | n + 1, depth => do
    match ← Scan.peek, depth with
    | some '"', _ => return text (← Scan.quoted)
    | some '\'', _ => return text (← Scan.quoted)
    | some '[', depth + 1 =>
      Scan.expect "["
      return list (← items n depth)
    | some '\x7b', depth + 1 =>
      Scan.expect "\x7b"
      Scan.blanks
      if ← Scan.accept "\x7d" then return table .closed []
      return table .closed (← fields n depth [])
    | _, _ => plain

/-- The rest of a list, whose items have so many lists and tables inside one another at most. -/
def items : Nat → Nat → Scan (List Setting)
  | 0, _ => Scan.failed
  | n + 1, depth => do
    Scan.space (n + 1)
    if ← Scan.accept "]" then return []
    let v ← value n depth
    Scan.space (n + 1)
    if ← Scan.accept "," then return v :: (← items n depth)
    Scan.expect "]"
    return [v]

def fields : Nat → Nat → Entries → Scan Entries
  | 0, _, _ => Scan.failed
  | n + 1, depth, done => do
    let path ← Scan.dottedKey (n + 1)
    Scan.expect "="
    Scan.blanks
    let v ← value n depth
    Scan.blanks
    match define path.dropLast (path.getLast?.getD "") v .closed done with
    | none => Scan.failed
    | some done =>
      if ← Scan.accept "," then fields n depth done
      else
        Scan.expect "\x7d"
        return done

end

def lineOver : Scan Unit := do
  Scan.blanks
  Scan.comment
  if (← Scan.peek).isSome then
    if !(← Scan.lineEnd?) then Scan.failed

def headingKey (n : Nat) (close : String) : Scan (List String) := do
  let path ← Scan.dottedKey n
  Scan.expect close
  return path

/-- The lines of a text, under the latest heading. -/
def lines : Nat → List String → Entries → Scan Entries
  | 0, _, _ => Scan.failed
  | n + 1, heading, entries => do
    Scan.blanks
    match ← Scan.peek with
    | none => return entries
    | some '#' =>
      lineOver
      lines n heading entries
    | some '\n' =>
      lineOver
      lines n heading entries
    | some '\r' =>
      lineOver
      lines n heading entries
    | some '[' =>
      Scan.expect "["
      let several ← Scan.accept "["
      let path ← headingKey (n + 1) (if several then "]]" else "]")
      lineOver
      let change := if several then openItem else openTable
      match change path.dropLast (path.getLast?.getD "") entries with
      | some entries => lines n path entries
      | none => Scan.failed
    | some _ =>
      let path ← Scan.dottedKey (n + 1)
      Scan.expect "="
      Scan.blanks
      let v ← value (n + 1) mostNested
      lineOver
      match defineUnder heading path.dropLast (path.getLast?.getD "") v entries with
      | some entries => lines n heading entries
      | none => Scan.failed

/-- The settings of a text in the format TOML 1.0. A text that is not well formed, or that defines a
key twice, has none. -/
def parse? (s : String) : Option Entries :=
  let cs := s.toList
  let cs := if cs.head? = some '\ufeff' then cs.drop 1 else cs
  ((lines (cs.length + 2) [] []).run cs).map Prod.fst

end Setting
end EffectMachine
