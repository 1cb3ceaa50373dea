import ProcessModel.Command.Invocation

/-! What the program says about itself. -/

namespace ProcessModel.CommandLine

def programName : String := "modelgen"

def versionText : String := programName ++ " 0.1.0"

def programAbout : String := "Model-code generator for declaratively specified process models"

def columns (rows : List (String × String)) : List String :=
  let width := rows.foldr (fun r n => max r.1.length n) 0
  rows.map fun r => "  " ++ r.1 ++ "".pushn ' ' (width - r.1.length + 2) ++ r.2

def tableSection (title : String) (rows : List (String × String)) : List String :=
  if rows.isEmpty then [] else "" :: (title ++ ":") :: columns rows

def OptionSpec.row (o : OptionSpec) : String × String :=
  let short := match o.short with
    | some c => String.ofList ['-', c, ',', ' ']
    | none => "    "
  let value := match o.value with
    | some (name, _) => " <" ++ name ++ ">"
    | none => ""
  let fallback := match o.fallback with
    | some v => " [default: " ++ v ++ "]"
    | none => ""
  (short ++ "--" ++ o.long ++ value, o.help ++ fallback)

def OperandSpec.written (o : OperandSpec) : String :=
  (if o.canLack then "[" ++ o.name ++ "]" else "<" ++ o.name ++ ">") ++ if o.many then "..." else ""

/-- Options in the order of help: by their place among the options of their level, then by name. -/
def sortKey (place : Nat) (o : OptionSpec) : Nat × String :=
  (place, match o.short with
    | some c => String.ofList [c, '0']
    | none => o.long)

def keyLe (a b : Nat × String) : Bool := a.1 < b.1 || (a.1 == b.1 && !(b.2 < a.2))

def sortedOptions (own : List OptionSpec) : List OptionSpec :=
  let keyed := fun (os : List OptionSpec) => os.zipIdx.map fun p => (sortKey p.2 p.1, p.1)
  ((keyed own ++ keyed globalOptions).mergeSort fun a b => keyLe a.1 b.1).map (·.2)

def programHelp : List String :=
  [programAbout, "", "Usage: " ++ programName ++ " [OPTIONS] <COMMAND>"] ++
    tableSection "Commands" (Verb.all.map (fun v => (v.name, v.spec.about)) ++
      [(helpName, helpSpec.about)]) ++
    tableSection "Options" ((globalOptions ++ [helpOption, versionOption]).map OptionSpec.row)

def commandHelp (name : String) (spec : CommandSpec) (options : List OptionSpec) : List String :=
  [spec.about, "", Text.joinWith " " (["Usage:", programName, name] ++
    (if options.isEmpty then [] else ["[OPTIONS]"]) ++
    spec.operand.toList.map OperandSpec.written)] ++
    tableSection "Arguments" (spec.operand.toList.map fun o => (o.written, o.help)) ++
    tableSection "Options" (options.map OptionSpec.row)

def helpLines : Topic → List String
  | .program => programHelp
  | .command verb =>
    commandHelp verb.name verb.spec (sortedOptions verb.spec.options ++ [helpOption])
  | .help => commandHelp helpName helpSpec []

end ProcessModel.CommandLine
