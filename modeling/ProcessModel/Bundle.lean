import ProcessModel.Files.Disk
import ProcessModel.Manifest

/-! Models that come with the library. -/

namespace ProcessModel

/-- The files of a model, its manifest first, and the models whose manifests it refers to. -/
structure BundledModel where
  name : String
  files : List (String × String)
  requires : List String := []
  deriving DecidableEq, Repr

namespace Bundle

def decay : BundledModel where
  name := "decay"
  files := [
    ("decay.toml", Text.ofLines
    ["# Linear decay dy/dt = -k y, integrated adaptively.",
      "name = \"decay\"",
      "sources = [\"decay.mdl\"]",
      "",
      "[[groups]]",
      "kind = \"control\"",
      "variables = [\x7b name = \"k\" \x7d]",
      "",
      "[[groups]]",
      "kind = \"fluxes\"",
      "variables = [\x7b name = \"dy\", numeric = true \x7d]",
      "",
      "[[groups]]",
      "kind = \"states\"",
      "variables = [\x7b name = \"y\", numeric = true \x7d]",
      "",
      "[methods]",
      "part_ode = [\"calc_dy\"]",
      "full_ode = [\"update_y\"]",
      "",
      "[references.calc_dy]",
      "requires = [\"con.k\", \"new.y\"]",
      "results = [\"flu.dy\"]",
      "",
      "[references.update_y]",
      "requires = [\"old.y\", \"flu.dy\"]",
      "updates = [\"new.y\"]"]),
    ("decay.mdl", Text.ofLines
    ["def calc_dy(model):",
      "    \"\"\"Decay rate at the current state.",
      "",
      "    Basic equation:",
      "      dy = -k * y",
      "    \"\"\"",
      "    con = model.parameters.control.fastaccess",
      "    flu = model.sequences.fluxes.fastaccess",
      "    new = model.sequences.states.fastaccess",
      "    flu.dy = -con.k * new.y",
      "",
      "",
      "def update_y(model):",
      "    \"\"\"Apply the integrated rate to the previous state.\"\"\"",
      "    flu = model.sequences.fluxes.fastaccess",
      "    old = model.sequences.old_states.fastaccess",
      "    new = model.sequences.states.fastaccess",
      "    new.y = old.y + flu.dy"])]

def counter : BundledModel where
  name := "counter"
  files := [
    ("counter.toml", Text.ofLines
    ["# Adds a fixed increment per step; updated directly without a solver.",
      "name = \"counter\"",
      "sources = [\"counter.mdl\"]",
      "",
      "[[groups]]",
      "kind = \"control\"",
      "variables = [\x7b name = \"increment\" \x7d]",
      "",
      "[[groups]]",
      "kind = \"states\"",
      "variables = [\x7b name = \"n\" \x7d]",
      "",
      "[methods]",
      "full_ode = [\"update_n\"]"]),
    ("counter.mdl", Text.ofLines
    ["def update_n(model):",
      "    \"\"\"Add the increment to the previous count.\"\"\"",
      "    con = model.parameters.control.fastaccess",
      "    old = model.sequences.old_states.fastaccess",
      "    new = model.sequences.states.fastaccess",
      "    new.n = old.n + con.increment"])]

/-- A storage of several zones that loses water through a sub-model. -/
def lstorage : BundledModel where
  name := "lstorage"
  files := [
    ("lstorage.toml", Text.ofLines
    ["# Zoned linear storage releasing part of its content through a loss sub-model.",
      "name = \"lstorage\"",
      "sources = [\"lstorage.mdl\"]",
      "",
      "[[groups]]",
      "kind = \"control\"",
      "variables = [\x7b name = \"nmb\", type = \"int\" \x7d, \x7b name = \"area\", ndim = 1 \x7d]",
      "",
      "[[groups]]",
      "kind = \"inputs\"",
      "variables = [\x7b name = \"p\" \x7d]",
      "",
      "[[groups]]",
      "kind = \"fluxes\"",
      "variables = [\x7b name = \"q\" \x7d, \x7b name = \"qz\", ndim = 1 \x7d]",
      "",
      "[[groups]]",
      "kind = \"states\"",
      "variables = [\x7b name = \"s\", ndim = 1 \x7d]",
      "",
      "[methods]",
      "run = [\"calc_zones\", \"calc_q\"]",
      "",
      "[[submodels]]",
      "name = \"loss\"",
      "manifest = \"../lloss/lloss.toml\""]),
    ("lstorage.mdl", Text.ofLines
    ["def calc_zones(model):",
      "    \"\"\"Fill every zone and release its loss.\"\"\"",
      "    con = model.parameters.control.fastaccess",
      "    inp = model.sequences.inputs.fastaccess",
      "    flu = model.sequences.fluxes.fastaccess",
      "    old = model.sequences.old_states.fastaccess",
      "    new = model.sequences.states.fastaccess",
      "    for idx in range(con.nmb):",
      "        d_content = old.s[idx] + inp.p",
      "        flu.qz[idx] = model.loss.get_loss(d_content)",
      "        new.s[idx] = d_content - flu.qz[idx]",
      "",
      "",
      "def calc_q(model):",
      "    \"\"\"Area-weighted outflow of all zones.\"\"\"",
      "    con = model.parameters.control.fastaccess",
      "    flu = model.sequences.fluxes.fastaccess",
      "    d_total = 0.",
      "    d_area = 0.",
      "    for idx in range(con.nmb):",
      "        d_total += con.area[idx] * flu.qz[idx]",
      "        d_area += con.area[idx]",
      "    if d_area > 0.:",
      "        flu.q = d_total / d_area",
      "    else:",
      "        flu.q = 0."])]
  requires := ["lloss"]

def lloss : BundledModel where
  name := "lloss"
  files := [
    ("lloss.toml", Text.ofLines
    ["# Loss proportional to the smoothed positive part of a storage content.",
      "name = \"lloss\"",
      "sources = [\"lloss.mdl\"]",
      "",
      "[[groups]]",
      "kind = \"control\"",
      "variables = [\x7b name = \"c\" \x7d, \x7b name = \"beta\" \x7d]",
      "",
      "[methods]",
      "add = [\"get_loss\"]"]),
    ("lloss.mdl", Text.ofLines
    ["def get_loss(model, d_content):",
      "    \"\"\"Loss of a storage holding `d_content`.",
      "",
      "    With a smoothing parameter of zero the loss is `c * max(d_content, 0)`.",
      "    \"\"\"",
      "    con = model.parameters.control.fastaccess",
      "    return con.c * modelutils.smooth_logistic2(d_content, con.beta)"])]

def all : List BundledModel := [decay, counter, lstorage, lloss]

def names : List String := all.map (·.name)

def find (name : String) : Except Error BundledModel :=
  match all.find? fun m => m.name == name with
  | some m => .ok m
  | none => .error (.definition (.noBundle name names))

variable {m : Type → Type} [Monad m] [FileAccess m]

open FileAccess

/-- Write a model below `dir`, into a directory of its own, and return the path of its manifest. -/
def writeOne (model : BundledModel) (dir : String) : ExceptT Error m String := do
  let target := Path.join dir model.name
  on target (createDirs target)
  for (file, text) in model.files do
    on (Path.join target file) (writeText (Path.join target file) text)
  return Path.join target ((model.files.head?.map (·.1)).getD "")

/-- Write a model and those it requires; `n` bounds the length of a chain of requirements. -/
def writeAll (dir : String) : Nat → String → ExceptT Error m String
  | 0, name => throw (.definition (.noBundle name names))
  | n + 1, name => do
    let model ← (find name : Except Error BundledModel)
    for required in model.requires do
      let _ ← writeAll dir n required
    writeOne model dir

def materialize (name dir : String) : ExceptT Error m String := writeAll dir all.length name

def definition (name : String) : Except Error Definition :=
  let load : ExceptT Error (StateM Disk) Definition := do
    Manifest.load (← materialize name "/models")
  (load.run.run {}).1

end Bundle

end ProcessModel
