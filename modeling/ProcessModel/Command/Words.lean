import ProcessModel.Decimal.Reader
import ProcessModel.Text.Lines

/-! Command lines as words: options with and without values, and operands. -/

namespace ProcessModel.CommandLine

inductive ValueKind
  | text
  | path
  /-- A number of at most 64 bits. -/
  | count
  deriving DecidableEq, Repr

def ValueKind.accepts : ValueKind → String → Bool
  | .text, _ => true
  | .path, s => !s.isEmpty
  | .count, s => (Decimal.nat64? s).isSome

/-- An option. It has a value if `value` names one. -/
structure OptionSpec where
  long : String
  short : Option Char := none
  value : Option (String × ValueKind) := none
  help : String
  fallback : Option String := none
  repeats : Bool := false
  deriving DecidableEq, Repr

/-- The operands of a command: one, or one and more. -/
structure OperandSpec where
  name : String
  kind : ValueKind
  help : String
  many : Bool := false
  canLack : Bool := false
  deriving DecidableEq, Repr

/-- The options that were given, in order, and the operands. A value is empty for options without
values. -/
structure Words where
  options : List (String × String) := []
  operands : List String := []
  /-- The last option if its value was a word of its own. It is checked when the next option or
  operand is taken, so the name of a command may stand before the check. -/
  pending : Option (OptionSpec × String) := none
  deriving DecidableEq, Repr

inductive WordFault
  | help
  | version
  | invalid
  deriving DecidableEq, Repr

def helpOption : OptionSpec := { long := "help", short := some 'h', help := "Print help" }

def versionOption : OptionSpec := { long := "version", short := some 'V', help := "Print version" }

namespace Words

def has (w : Words) (long : String) : Bool := w.options.any fun o => o.1 == long

def values (w : Words) (long : String) : List String :=
  (w.options.filter fun o => o.1 == long).map (·.2)

def value? (w : Words) (long : String) : Option String := (w.values long).getLast?

def checkOption (w : Words) (o : OptionSpec) (value : String) : Except WordFault Words :=
  if o.long = helpOption.long then .error .help
  else if o.long = versionOption.long then .error .version
  else if w.has o.long && !o.repeats then .error .invalid
  else if !(o.value.all fun v => v.2.accepts value) then .error .invalid
  else .ok { w with options := w.options ++ [(o.long, value)] }

def settle (w : Words) : Except WordFault Words :=
  match w.pending with
  | none => .ok w
  | some (o, value) => { w with pending := none }.checkOption o value

def addOption (w : Words) (o : OptionSpec) (value : String) : Except WordFault Words := do
  (← w.settle).checkOption o value

def addPending (w : Words) (o : OptionSpec) (value : String) : Except WordFault Words := do
  return { ← w.settle with pending := some (o, value) }

def addOperand (w : Words) (o : OperandSpec) (value : String) : Except WordFault Words := do
  let w ← w.settle
  if !o.kind.accepts value || (!o.many && !w.operands.isEmpty) then throw .invalid
  return { w with operands := w.operands ++ [value] }

end Words

/-- Whether a word is an option and not a value. A single hyphen is a value. -/
def isOption (word : String) : Bool :=
  match word.toList with
  | '-' :: _ :: _ => true
  | _ => false

def splitLong (cs : List Char) : String × Option String :=
  match Text.splitOnce '=' cs with
  | some (name, value) => (String.ofList name, some (String.ofList value))
  | none => (String.ofList cs, none)

def attached : List Char → String
  | '=' :: cs => String.ofList cs
  | cs => String.ofList cs

/-- Take the short options of one word. An option that lacks its value is returned. -/
def scanShort (specs : List OptionSpec) :
    List Char → Words → Except WordFault (Words × Option OptionSpec)
  | [], w => .ok (w, none)
  | c :: cs, w =>
    match specs.find? fun o => o.short == some c with
    | none => .error .invalid
    | some o =>
      if o.value.isNone then do scanShort specs cs (← w.addOption o "")
      else if cs.isEmpty then .ok (w, some o)
      else do return (← w.addOption o (attached cs), none)

/-- Take the option or options of one word. An option that lacks its value is returned. -/
def scanOption (specs : List OptionSpec) (word : String) (w : Words) :
    Except WordFault (Words × Option OptionSpec) :=
  match word.toList with
  | '-' :: '-' :: cs =>
    let (name, value?) := splitLong cs
    match specs.find? fun o => o.long == name with
    | none => .error .invalid
    | some o =>
      match o.value, value? with
      | none, none => do return (← w.addOption o "", none)
      | none, some _ => .error .invalid
      | some _, some value => do return (← w.addOption o value, none)
      | some _, none => .ok (w, some o)
  | _ :: cs => scanShort specs cs w
  | [] => .error .invalid

/-- Take words from the left. Without operands, the first word that is no option, or two hyphens,
end the scan; the words from there on are returned. -/
def scan (specs : List OptionSpec) (operand : Option OperandSpec) :
    List String → Words → Except WordFault (Words × List String)
  | [], w => .ok (w, [])
  | word :: rest, w =>
    if word = "--" then
      match operand with
      | none => .ok (w, word :: rest)
      | some o => do return (← rest.foldlM (fun w v => w.addOperand o v) w, [])
    else if isOption word then
      match scanOption specs word w, rest with
      | .error fault, _ => .error fault
      | .ok (w, none), rest => scan specs operand rest w
      | .ok (_, some _), [] => .error .invalid
      | .ok (w, some o), value :: rest =>
        if isOption value then .error .invalid
        else
          match w.addPending o value with
          | .error fault => .error fault
          | .ok w => scan specs operand rest w
    else
      match operand with
      | none => .ok (w, word :: rest)
      | some o =>
        match w.addOperand o word with
        | .error fault => .error fault
        | .ok w => scan specs operand rest w

end ProcessModel.CommandLine
