import ProcessModel.Decimal.Reader
import ProcessModel.Toml.Value

/-! The parts of TOML statements: white space, strings, keys, numbers, times.

Every reader returns what it read and the rest of the text, or `none`. -/

namespace ProcessModel.Toml

abbrev Reader (α : Type) := List Char → Option (α × List Char)

def skipBlanks (cs : List Char) : List Char := cs.dropWhile fun c => c == ' ' || c == '\t'

def afterNewline? : List Char → Option (List Char)
  | '\n' :: cs => some cs
  | '\r' :: '\n' :: cs => some cs
  | _ => none

/-- Characters that may stand in comments and literal strings: no control characters but the tab. -/
def isPlain (c : Char) : Bool := c == '\t' || (0x20 ≤ c.toNat && c.toNat != 0x7f)

def skipComment : List Char → List Char
  | '#' :: cs => cs.dropWhile isPlain
  | cs => cs

def skipLines : Nat → List Char → List Char
  | 0, cs => cs
  | n + 1, cs =>
    match afterNewline? (skipComment (skipBlanks cs)) with
    | some rest => skipLines n rest
    | none => skipBlanks cs

def isHex (c : Char) : Bool :=
  c.isDigit || ('a' ≤ c && c ≤ 'f') || ('A' ≤ c && c ≤ 'F')

def hexValue (c : Char) : Nat :=
  if c.isDigit then c.toNat - '0'.toNat
  else if 'a' ≤ c then c.toNat - 'a'.toNat + 10
  else c.toNat - 'A'.toNat + 10

def baseValue (base : Nat) (cs : List Char) : Nat :=
  cs.foldl (fun n c => base * n + hexValue c) 0

def codePoint (n : Nat) : Reader Char := fun cs =>
  let digits := cs.take n
  let code := baseValue 16 digits
  if digits.length = n && digits.all isHex && (code < 0xd800 || (0xdfff < code && code < 0x110000))
  then some (Char.ofNat code, cs.drop n) else none

def escape : Reader Char
  | 'b' :: cs => some ('\x08', cs)
  | 't' :: cs => some ('\t', cs)
  | 'n' :: cs => some ('\n', cs)
  | 'f' :: cs => some ('\x0c', cs)
  | 'r' :: cs => some ('\r', cs)
  | '\x22' :: cs => some ('\x22', cs)
  | '\\' :: cs => some ('\\', cs)
  | 'u' :: cs => codePoint 4 cs
  | 'U' :: cs => codePoint 8 cs
  | _ => none

/-- The rest of a string on one line, behind its quote `q`. -/
def lineString (q : Char) : Nat → Reader (List Char)
  | 0, _ => none
  | _ + 1, [] => none
  | n + 1, c :: cs =>
    if c = q then some ([], cs)
    else if c = '\\' && q = '\x22' then do
      let (e, cs) ← escape cs
      let (text, cs) ← lineString q n cs
      return (e :: text, cs)
    else if isPlain c then do
      let (text, cs) ← lineString q n cs
      return (c :: text, cs)
    else none

/-- Blanks and line ends behind a backslash at the end of a line. -/
def skipJoin (cs : List Char) : Option (List Char) :=
  match afterNewline? (skipBlanks cs) with
  | none => none
  | some rest => some (go rest.length rest)
where
  go : Nat → List Char → List Char
    | 0, cs => cs
    | n + 1, cs =>
      match afterNewline? (skipBlanks cs) with
      | some rest => go n rest
      | none => skipBlanks cs

/-- The rest of a string in triple quotes `q`. Up to two quotes may stand before the closing
ones. -/
def blockString (q : Char) : Nat → Reader (List Char)
  | 0, _ => none
  | _ + 1, [] => none
  | n + 1, c :: cs =>
    if c = q then
      let quotes := 1 + (cs.takeWhile (· = q)).length
      if 3 ≤ quotes then
        let kept := min (quotes - 3) 2
        some (List.replicate kept q, cs.drop (kept + 2))
      else do
        let (text, cs) ← blockString q n (cs.drop (quotes - 1))
        return (List.replicate quotes q ++ text, cs)
    else if c = '\\' && q = '\x22' then
      match skipJoin cs with
      | some cs => blockString q n cs
      | none => do
        let (e, cs) ← escape cs
        let (text, cs) ← blockString q n cs
        return (e :: text, cs)
    else
      match afterNewline? (c :: cs) with
      | some rest => do
        let (text, cs) ← blockString q n rest
        return ('\n' :: text, cs)
      | none =>
        if isPlain c then do
          let (text, cs) ← blockString q n cs
          return (c :: text, cs)
        else none

/-- A string of any form. A line end right behind triple quotes does not count. -/
def stringText : Reader String
  | q :: cs =>
    if q = '\x22' || q = '\x27' then
      match cs with
      | a :: b :: rest =>
        if a = q && b = q then
          let body := (afterNewline? rest).getD rest
          (blockString q (body.length + 1) body).map fun r => (String.ofList r.1, r.2)
        else short q cs
      | _ => short q cs
    else none
  | [] => none
where
  short (q : Char) (cs : List Char) : Option (String × List Char) :=
    (lineString q (cs.length + 1) cs).map fun r => (String.ofList r.1, r.2)

def isBareKey (c : Char) : Bool := c.isAlphanum || c == '_' || c == '-'

def simpleKey : Reader String
  | [] => none
  | c :: cs =>
    if c = '\x22' || c = '\x27' then (lineString c (cs.length + 1) cs).map fun r => (String.ofList r.1, r.2)
    else
      let bare := (c :: cs).takeWhile isBareKey
      if bare.isEmpty then none else some (String.ofList bare, (c :: cs).drop bare.length)

def dottedKey : Nat → Reader (List String)
  | 0, _ => none
  | n + 1, cs => do
    let (part, rest) ← simpleKey cs
    match skipBlanks rest with
    | '.' :: rest =>
      let (parts, rest) ← dottedKey n (skipBlanks rest)
      return (part :: parts, rest)
    | _ => return ([part], rest)

/-- Digits with single underscores between them. -/
def digitRun (isDigit : Char → Bool) : Nat → Reader (List Char)
  | 0, _ => none
  | n + 1, cs =>
    let ds := cs.takeWhile isDigit
    if ds.isEmpty then none
    else
      match cs.drop ds.length with
      | '_' :: rest => do
        let (more, rest) ← digitRun isDigit n rest
        return (ds ++ more, rest)
      | rest => some (ds, rest)

def baseInt (base : Nat) (isDigit : Char → Bool) : Reader Toml := fun cs => do
  let (ds, rest) ← digitRun isDigit cs.length cs
  let n := baseValue base ds
  if n < Nat.pow 2 63 then return (.int (Int64.ofNat n), rest) else none

/-- The digits of a decimal integer: no zero before others. -/
def wholePart (cs : List Char) : Option (List Char × List Char) :=
  match cs with
  | '0' :: rest => some (['0'], rest)
  | _ => digitRun Char.isDigit cs.length cs

def fracPart : Reader (List Char)
  | '.' :: cs => do
    let (ds, rest) ← digitRun Char.isDigit cs.length cs
    return ('.' :: ds, rest)
  | _ => none

def expPart : Reader (List Char)
  | c :: cs =>
    if c = 'e' || c = 'E' then
      let (sign, ds) := match cs with
        | s :: rest => if s = '+' || s = '-' then ([s], rest) else ([], cs)
        | [] => ([], [])
      do
        let (ds, rest) ← digitRun Char.isDigit ds.length ds
        return ('e' :: sign ++ ds, rest)
    else none
  | [] => none

/-- A decimal number: an integer, or a double if it has a fraction or an exponent. Doubles above
the greatest one are refused. -/
def decimal (cs : List Char) : Option (Toml × List Char) := do
  let (sign, unsigned) := match cs with
    | c :: rest => if c = '+' || c = '-' then ([c], rest) else ([], cs)
    | [] => ([], [])
  let (whole, rest) ← wholePart unsigned
  let (frac, rest) := (fracPart rest).getD ([], rest)
  let (exponent, rest) := (expPart rest).getD ([], rest)
  if frac.isEmpty && exponent.isEmpty then
    let n ← Decimal.int64? (String.ofList (sign ++ whole))
    return (.int n, rest)
  else
    let x ← Decimal.float? (String.ofList (sign ++ whole ++ frac ++ exponent))
    if x.isInf && 0.0 < x then none else return (.float x, rest)

def special (cs : List Char) : Option (Toml × List Char) :=
  let (negative, rest) := Decimal.sign cs
  let word := String.ofList (rest.take 3)
  if word = "inf" || word = "nan" then
    (Decimal.float? word).map fun x => (.float (if negative then -x else x), rest.drop 3)
  else none

def fixedDigits (n low high : Nat) : Reader Nat := fun cs =>
  let ds := cs.take n
  let value := Decimal.digitsValue ds
  if ds.length = n && ds.all Char.isDigit && low ≤ value && value ≤ high then
    some (value, cs.drop n) else none

def daysIn (year month : Nat) : Nat :=
  if month = 2 then
    if year % 4 = 0 && (year % 100 ≠ 0 || year % 400 = 0) then 29 else 28
  else if [4, 6, 9, 11].contains month then 30 else 31

def mark (c : Char) : List Char → Option (List Char)
  | d :: cs => if d = c then some cs else none
  | [] => none

/-- What follows a date such as `1979-05-27`. -/
def afterDate (cs : List Char) : Option (List Char) := do
  let (year, cs) ← fixedDigits 4 0 9999 cs
  let (month, cs) ← fixedDigits 2 1 12 (← mark '-' cs)
  let (_, cs) ← fixedDigits 2 1 (daysIn year month) (← mark '-' cs)
  return cs

/-- What follows a time such as `07:32:00.5`. -/
def afterTime (cs : List Char) : Option (List Char) := do
  let (_, cs) ← fixedDigits 2 0 23 cs
  let (_, cs) ← fixedDigits 2 0 59 (← mark ':' cs)
  let (_, cs) ← fixedDigits 2 0 60 (← mark ':' cs)
  match cs with
  | '.' :: rest =>
    let ds := rest.takeWhile Char.isDigit
    if ds.isEmpty then none else return rest.drop ds.length
  | _ => return cs

/-- What follows a time zone, if there is one. -/
def afterZone (cs : List Char) : List Char :=
  match cs with
  | c :: rest =>
    if c = 'Z' || c = 'z' then rest
    else if c = '+' || c = '-' then
      (do
        let (_, cs) ← fixedDigits 2 0 23 rest
        let (_, cs) ← fixedDigits 2 0 59 (← mark ':' cs)
        return cs : Option (List Char)).getD cs
    else cs
  | [] => []

def moment (cs : List Char) : Option (Toml × List Char) := do
  let rest ← match afterDate cs with
    | none => afterTime cs
    | some rest =>
      match rest with
      | c :: clock =>
        if c = 'T' || c = 't' || c = ' ' then some (((afterTime clock).map afterZone).getD rest)
        else some rest
      | [] => some []
  return (.time (String.ofList (cs.take (cs.length - rest.length))), rest)

def number (cs : List Char) : Option (Toml × List Char) :=
  match cs with
  | '0' :: 'x' :: rest => baseInt 16 isHex rest
  | '0' :: 'o' :: rest => baseInt 8 (fun c => '0' ≤ c && c ≤ '7') rest
  | '0' :: 'b' :: rest => baseInt 2 (fun c => c = '0' || c = '1') rest
  | _ => (moment cs).or ((decimal cs).or (special cs))

end ProcessModel.Toml
