import ProcessModel.Variable

/-! Kinds of methods, the lists that classify them, and the variables a method declares to use. -/

namespace ProcessModel

inductive MethodKind
  | inlet | outlet | receiver | sender | run
  /-- A term of the right-hand side, evaluated at every stage. -/
  | partOde
  /-- The update of the states from the integrated fluxes. -/
  | fullOde
  /-- A helper that other methods call. -/
  | add
  deriving DecidableEq, Repr

namespace MethodKind

def all : List MethodKind :=
  [.inlet, .outlet, .receiver, .sender, .run, .partOde, .fullOde, .add]

def name : MethodKind → String
  | .inlet => "inlet"
  | .outlet => "outlet"
  | .receiver => "receiver"
  | .sender => "sender"
  | .run => "run"
  | .partOde => "part_ode"
  | .fullOde => "full_ode"
  | .add => "add"

def ofName? (s : String) : Option MethodKind := all.find? fun k => k.name == s

end MethodKind

structure MethodLists where
  inlet : List String := []
  outlet : List String := []
  receiver : List String := []
  sender : List String := []
  run : List String := []
  partOde : List String := []
  fullOde : List String := []
  add : List String := []
  deriving DecidableEq, Repr

namespace MethodLists

def get (m : MethodLists) : MethodKind → List String
  | .inlet => m.inlet
  | .outlet => m.outlet
  | .receiver => m.receiver
  | .sender => m.sender
  | .run => m.run
  | .partOde => m.partOde
  | .fullOde => m.fullOde
  | .add => m.add

def entries (m : MethodLists) : List (MethodKind × String) :=
  MethodKind.all.flatMap fun k => (m.get k).map fun name => (k, name)

def kindOf? (m : MethodLists) (name : String) : Option MethodKind :=
  (m.entries.find? fun e => e.2 == name).map (·.1)

def contains (m : MethodLists) (name : String) : Bool := (m.kindOf? name).isSome

end MethodLists

structure DeclaredRef where
  group : String
  name : String
  deriving DecidableEq, Repr

namespace DeclaredRef

def parse? (text : String) : Option DeclaredRef := do
  let (group, name) ← Text.splitOnce '.' (Text.trim text.toList)
  if group.isEmpty || name.isEmpty || name.contains '.' then none
  else some ⟨String.ofList group, String.ofList name⟩

def text (r : DeclaredRef) : String := r.group ++ "." ++ r.name

end DeclaredRef

structure References where
  requires : List DeclaredRef := []
  results : List DeclaredRef := []
  updates : List DeclaredRef := []
  deriving DecidableEq, Repr

namespace References

def all (r : References) : List DeclaredRef := r.requires ++ r.results ++ r.updates

def isEmpty (r : References) : Bool := r.all.isEmpty

end References

end ProcessModel
