import ProcessModel.Text.Lines

/-! Paths of files as texts. -/

namespace ProcessModel.Path

def nameLimit : Nat := 255

/-- The number of bytes at which a path is too long. -/
def lengthLimit : Nat := 4096

def isTooLong (name : String) : Bool := nameLimit < Text.byteLength name.toList

/-- Whether a text holds a zero character, which no path and no word of a command may. -/
def hasZero (text : String) : Bool := text.toList.contains '\x00'

def isAbsolute (path : String) : Bool := Text.startsWith path.toList ['/']

/-- A path below a directory; an absolute path stands for itself. -/
def join (dir path : String) : String :=
  if isAbsolute path || dir.isEmpty then path
  else if dir.toList.getLast? = some '/' then dir ++ path
  else dir ++ "/" ++ path

/-- The names on the way. Repeated separators and single points count only at the start. -/
def components (path : String) : List String :=
  let parts := Text.fields '/' path
  let names := parts.filter fun p => p != "" && p != "."
  if isAbsolute path then "/" :: names
  else if parts.head? = some "." then "." :: names
  else names

def isIdle (name : String) : Bool := name == "" || name == "."

/-- The names of a way up to the last one that leads on. -/
def trimIdle (names : List String) : List String := (names.reverse.dropWhile isIdle).reverse

theorem trimIdle_length_le (names : List String) : (trimIdle names).length ≤ names.length := by
  have h := (List.dropWhile_suffix (l := names.reverse) isIdle).length_le
  simpa [trimIdle] using h

def parentWay (names : List String) : List String := trimIdle (trimIdle names).dropLast

theorem parentWay_length_lt (names : List String) (h : names ≠ []) :
    (parentWay names).length < names.length := by
  have hpos := List.length_pos_iff.mpr h
  have hle := trimIdle_length_le names
  have hparent := trimIdle_length_le (trimIdle names).dropLast
  rw [List.length_dropLast] at hparent
  unfold parentWay
  omega

/-- The order of components: the root, the point, the two points, names. -/
def rank (component : String) : Nat :=
  if component = "/" then 0
  else if component = "." then 1
  else if component = ".." then 2
  else 3

/-- Whether one list of components comes before another or equals it. -/
def componentsLe : List String → List String → Bool
  | [], _ => true
  | _ :: _, [] => false
  | a :: as, b :: bs =>
    if a = b then componentsLe as bs
    else rank a < rank b || (rank a = rank b && a < b)

def le (a b : String) : Bool := componentsLe (components a) (components b)

def same (a b : String) : Bool := components a == components b

def parent (path : String) : String :=
  match path.toList.reverse.dropWhile (· != '/') with
  | [] => ""
  | ['/'] => "/"
  | _ :: rest => String.ofList rest.reverse

/-- The last name, if the path does not end in `..`. -/
def fileName? (path : String) : Option String :=
  (components path).getLast?.filter fun n => n != "/" && n != "." && n != ".."

/-- A name around its last point. A point at the start does not count. -/
def splitName (name : String) : String × Option String :=
  let rev := name.toList.reverse
  match rev.dropWhile (· != '.') with
  | _ :: (c :: cs) =>
    (String.ofList (c :: cs).reverse, some (String.ofList (rev.takeWhile (· != '.')).reverse))
  | _ => (name, none)

def fileStem? (path : String) : Option String := (fileName? path).map fun n => (splitName n).1

def extension? (path : String) : Option String := (fileName? path).bind fun n => (splitName n).2

def insertNew (paths : List String) (path : String) : List String :=
  if paths.any fun p => same p path then paths else paths ++ [path]

end ProcessModel.Path
