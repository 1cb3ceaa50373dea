import Mathlib.Data.List.Forall2
import Mathlib.Logic.Relation
import ProcessModel.Proofs.FileTrees

/-! Definitions that are built from manifests.

A manifest in a tree of files refers to others by the entries for its sub-models. A definition is
built from a manifest if its sub-models are built from the manifests that the entries point to. -/

namespace ProcessModel

open Relation

namespace FileTree

def HoldsText (t : FileTree) (path text : String) : Prop :=
  ∃ bytes, t.content path = .ok bytes ∧ String.fromUTF8? bytes = some text

def HoldsManifest (t : FileTree) (path : String) (manifest : Manifest) : Prop :=
  ∃ text, t.HoldsText path text ∧ Manifest.ofText? text = some manifest

/-- An entry of the manifest at `path` points to the manifest at `child`. -/
def PointsTo (t : FileTree) (path : String) (entry : SubmodelEntry) (child : String) : Prop :=
  t.canonical (Path.join (Path.parent path) entry.manifest) = .ok child

def Refers (t : FileTree) (path child : String) : Prop :=
  ∃ manifest, t.HoldsManifest path manifest ∧
    ∃ entry ∈ manifest.submodels, t.PointsTo path entry child

/-- All manifests that can be reached from one exist and can be read. -/
def Complete (t : FileTree) (root : String) : Prop :=
  ∀ path, ReflTransGen t.Refers root path →
    ∃ manifest, t.HoldsManifest path manifest ∧
      ∀ entry ∈ manifest.submodels, ∃ child, t.PointsTo path entry child

variable {t : FileTree} {root path : String}

theorem HoldsText.unique {text text' : String} (h : t.HoldsText path text)
    (h' : t.HoldsText path text') : text = text' := by
  obtain ⟨bytes, hbytes, htext⟩ := h
  obtain ⟨bytes', hbytes', htext'⟩ := h'
  obtain rfl := Except.ok.inj (hbytes.symm.trans hbytes')
  exact Option.some.inj (htext.symm.trans htext')

theorem HoldsManifest.unique {manifest manifest' : Manifest} (h : t.HoldsManifest path manifest)
    (h' : t.HoldsManifest path manifest') : manifest = manifest' := by
  obtain ⟨text, htext, hmanifest⟩ := h
  obtain ⟨text', htext', hmanifest'⟩ := h'
  obtain rfl := htext.unique htext'
  exact Option.some.inj (hmanifest.symm.trans hmanifest')

theorem PointsTo.unique {entry : SubmodelEntry} {child child' : String}
    (h : t.PointsTo path entry child) (h' : t.PointsTo path entry child') : child = child' :=
  Except.ok.inj (h.symm.trans h')

theorem mem_places_of_reached (hroot : root ∈ t.places) (h : ReflTransGen t.Refers root path) :
    path ∈ t.places := by
  cases h.cases_tail with
  | inl heq => exact heq ▸ hroot
  | inr hlast =>
    obtain ⟨_, -, _, -, _, -, hpoints⟩ := hlast
    exact t.canonical_mem hpoints

end FileTree

/-- A failure that concerns how manifests refer to each other. -/
def Error.AboutLinks (e : Error) : Prop :=
  e = .definition .cycle ∨ ∃ path, e = .definition (.unresolved path)

namespace Definition

/-- A fault of one definition, which no reference between manifests causes. -/
def LocalFault (fault : DefinitionFault) : Prop := ¬(Error.definition fault).AboutLinks

@[simp] theorem localFault_iff (fault : DefinitionFault) :
    LocalFault fault ↔ fault ≠ .cycle ∧ ∀ path, fault ≠ .unresolved path := by
  simp [LocalFault, Error.AboutLinks]

variable {fault : DefinitionFault}

theorem variableFault?_local {kind : GroupKind} {before : List Variable} {v : Variable}
    (h : Group.variableFault? kind before v = some fault) : LocalFault fault := by
  unfold Group.variableFault? at h
  split_ifs at h <;>
  · obtain rfl := Option.some.inj h
    simp

theorem faultFrom?_local {kind : GroupKind} {before vars : List Variable}
    (h : Group.faultFrom? kind before vars = some fault) : LocalFault fault := by
  induction vars generalizing before with
  | nil => cases h
  | cons v vars ih =>
    rw [Group.faultFrom?, Option.or_eq_some_iff] at h
    exact h.elim variableFault?_local fun h => ih h.2

theorem methodFault?_local {model : String} {before : List String}
    {methods : List (MethodKind × String)} (h : methodFault? model before methods = some fault) :
    LocalFault fault := by
  induction methods generalizing before with
  | nil => cases h
  | cons e methods ih =>
    rw [methodFault?] at h
    split_ifs at h
    · obtain rfl := Option.some.inj h
      simp
    · obtain rfl := Option.some.inj h
      simp
    · exact ih h

theorem submodelFault?_local {d : Definition} {before names : List String}
    (h : submodelFault? d before names = some fault) : LocalFault fault := by
  induction names generalizing before with
  | nil => cases h
  | cons name names ih =>
    rw [submodelFault?] at h
    split_ifs at h
    · obtain rfl := Option.some.inj h
      simp
    · exact ih h

theorem fault?_local {d : Definition} (h : d.fault? = some fault) : LocalFault fault := by
  have hmap : ∀ {α : Type} {x : Option α} {f : α → DefinitionFault},
      (∀ a, LocalFault (f a)) → x.map f = some fault → LocalFault fault := by
    intro α x f hf hx
    obtain ⟨a, -, rfl⟩ := Option.map_eq_some_iff.1 hx
    exact hf a
  unfold fault? at h
  split_ifs at h
  · obtain rfl := Option.some.inj h
    simp
  · simp only [Option.or_eq_some_iff] at h
    rcases h with h | ⟨-, h | ⟨-, h | ⟨-, h | ⟨-, h | ⟨-, h⟩⟩⟩⟩⟩
    · exact hmap (by simp) h
    · obtain ⟨g, -, hg⟩ := List.exists_of_findSome?_eq_some h
      exact faultFrom?_local hg
    · exact methodFault?_local h
    · exact hmap (by simp) h
    · exact submodelFault?_local h
    · exact hmap (by simp) h

theorem build_fault_local {draft : Definition} (h : draft.build = .error fault) :
    LocalFault fault := by
  unfold build at h
  dsimp only at h
  split at h
  · rename_i fault' hfault
    obtain rfl := Except.error.inj h
    exact fault?_local hfault
  · cases h

end Definition

namespace Manifest

theorem parseReference_fault_local {method item : String} {fault : DefinitionFault}
    (h : parseReference method item = .error fault) : Definition.LocalFault fault := by
  unfold parseReference at h
  cases hparse : DeclaredRef.parse? item with
  | some ref =>
    rw [hparse] at h
    cases h
  | none =>
    rw [hparse] at h
    obtain rfl := Except.error.inj h
    simp

theorem parseReferences_fault_local {method : String} {r : ReferenceTexts}
    {fault : DefinitionFault} (h : parseReferences method r = .error fault) :
    Definition.LocalFault fault := by
  have hitems : ∀ {items : List String}, items.mapM (parseReference method) = .error fault →
      Definition.LocalFault fault := by
    intro items h
    obtain ⟨item, -, hitem⟩ := mapM_eq_error h
    exact parseReference_fault_local hitem
  rcases bind_eq_error h with h | ⟨requires, -, h⟩
  · exact hitems h
  rcases bind_eq_error h with h | ⟨results, -, h⟩
  · exact hitems h
  rcases bind_eq_error h with h | ⟨updates, -, h⟩
  · exact hitems h
  · cases h

section Settles

variable {σ α β : Type} {s : σ} {n : Nat}

/-- A program with a bound: from `n` on the bound does not count. It leaves the state as it is and
returns exactly the values with property `P`; where there is none, it fails, though not for how
manifests refer to each other. -/
def Settles (n : Nat) (x : Nat → ExceptT Error (StateM σ) α) (s : σ) (P : α → Prop) : Prop :=
  ∃ r, (∀ m, n ≤ m → Answers (x m) s r) ∧ (∀ a, r = .ok a ↔ P a) ∧
    ∀ e, r = .error e → ¬e.AboutLinks

variable {x : Nat → ExceptT Error (StateM σ) α} {P : α → Prop}

theorem Settles.congr {Q : α → Prop} (h : Settles n x s P) (hiff : ∀ a, P a ↔ Q a) :
    Settles n x s Q := by
  obtain ⟨r, hanswers, hok, herror⟩ := h
  exact ⟨r, hanswers, fun a => (hok a).trans (hiff a), herror⟩

theorem Settles.answers (h : Settles n x s P) {a : α} (ha : P a) {m : Nat} (hm : n ≤ m) :
    Answers (x m) s (.ok a) := by
  obtain ⟨r, hanswers, hok, -⟩ := h
  rw [← (hok a).2 ha]
  exact hanswers m hm

theorem settles_ok (a : α) :
    Settles n (fun _ => (pure a : ExceptT Error (StateM σ) α)) s (a = ·) :=
  ⟨.ok a, fun _ _ => answers_ok a, by simp, by simp⟩

theorem settles_error {e : Error} (h : ¬e.AboutLinks) (hnone : ∀ a, ¬P a) :
    Settles n (fun _ => (throw e : ExceptT Error (StateM σ) α)) s P := by
  refine ⟨.error e, fun _ _ => answers_error e, fun a => by simp [hnone], ?_⟩
  intro e' he
  obtain rfl := Except.error.inj he
  exact h

theorem Settles.bind {f : Nat → α → ExceptT Error (StateM σ) β} {Q : α → β → Prop}
    (hx : Settles n x s P) (hf : ∀ a, P a → Settles n (fun m => f m a) s (Q a)) :
    Settles n (fun m => x m >>= f m) s fun b => ∃ a, P a ∧ Q a b := by
  obtain ⟨r, hanswers, hok, herror⟩ := hx
  cases r with
  | error e =>
    refine ⟨.error e, fun m hm => (hanswers m hm).bind_error, fun b => ?_, fun e' he => ?_⟩
    · have hnone : ∀ a, ¬P a := fun a ha => by simpa using (hok a).2 ha
      simp [hnone]
    · exact herror e' (congrArg Except.error (Except.error.inj he))
  | ok a =>
    obtain ⟨r, hanswers', hok', herror'⟩ := hf a ((hok a).1 rfl)
    refine ⟨r, fun m hm => (hanswers m hm).bind_ok (hanswers' m hm), fun b => ?_, herror'⟩
    rw [hok' b]
    constructor
    · exact fun hb => ⟨a, (hok a).1 rfl, hb⟩
    · rintro ⟨a', ha', hb⟩
      obtain rfl := Except.ok.inj ((hok a').2 ha')
      exact hb

theorem settles_mapM {xs : List α} {f : Nat → α → ExceptT Error (StateM σ) β}
    {P : α → β → Prop} (h : ∀ x ∈ xs, Settles n (fun m => f m x) s (P x)) :
    Settles n (fun m => xs.mapM (f m)) s (List.Forall₂ P xs) := by
  induction xs with
  | nil =>
    simp only [List.mapM_nil]
    exact (settles_ok []).congr fun ys => by simp [eq_comm]
  | cons x xs ih =>
    simp only [List.mapM_cons]
    obtain ⟨hx, hxs⟩ := List.forall_mem_cons.1 h
    refine (hx.bind fun y _ => (ih hxs).bind fun ys _ => settles_ok (y :: ys)).congr fun zs => ?_
    rw [List.forall₂_cons_left_iff]
    simp [eq_comm]

theorem settles_on (path : String) {op : StateM σ (Except FileFault α)} {r : Except FileFault α}
    (h : op.run s = (r, s)) : Settles n (fun _ => FileAccess.on path op) s fun a => r = .ok a := by
  have hanswers := answers_on path h
  cases r with
  | ok a => exact ⟨.ok a, fun _ _ => hanswers, by simp, by simp⟩
  | error fault =>
    refine ⟨.error (.file path fault), fun _ _ => hanswers, by simp, ?_⟩
    intro e he
    obtain rfl := Except.error.inj he
    simp [Error.AboutLinks]

theorem settles_accept {r : Except DefinitionFault α}
    (hfault : ∀ fault, r = .error fault → Definition.LocalFault fault) :
    Settles n (fun _ => (accept r : ExceptT Error (StateM σ) α)) s fun a => r = .ok a := by
  cases r with
  | ok a => exact (settles_ok a).congr fun b => by simp
  | error fault => exact settles_error (hfault fault rfl) (by simp)

end Settles

/-- A sub-model: its entry, the manifest it points to, and its definition. -/
structure Part where
  entry : SubmodelEntry
  path : String
  definition : Definition

def Part.submodel (p : Part) : String × Definition := (p.entry.name, p.definition)

/-- A definition is built from the manifest at a path: from the files and references it names, and
from sub-models that are built from the manifests its entries point to. -/
inductive BuiltFrom (t : FileTree) : String → Definition → Prop
  | intro {path : String} {manifest : Manifest} {sources : List Source}
      {references : Keyed References} {parts : List Part} {d : Definition}
      (hmanifest : t.HoldsManifest path manifest)
      (hsources : List.Forall₂ (fun name source =>
        source.path = Path.join (Path.parent path) name ∧ t.HoldsText source.path source.text)
        manifest.sources sources)
      (hreferences : List.Forall₂ (fun e e' => e'.1 = e.1 ∧ parseReferences e.1 e.2 = .ok e'.2)
        manifest.references references)
      (hentries : manifest.submodels = parts.map Part.entry)
      (hpoints : ∀ part ∈ parts, t.PointsTo path part.entry part.path)
      (hparts : ∀ part ∈ parts, BuiltFrom t part.path part.definition)
      (hbuild : (manifest.draft path sources references (parts.map Part.submodel)).build = .ok d) :
      BuiltFrom t path d

section Programs

variable {σ : Type} [FileAccess (StateM σ)] {t : FileTree} {s : σ} {n : Nat}

theorem settles_readText (h : t.Stands s) (path : String) :
    Settles n (fun _ => FileAccess.on path (FileAccess.readText path)) s (t.HoldsText path) := by
  have hrun : ∃ r : Except FileFault String,
      (FileAccess.readText path : StateM σ _).run s = (r, s) ∧
      ∀ text, r = .ok text ↔ t.HoldsText path text := by
    unfold FileAccess.readText FileTree.HoldsText
    rw [run_bind_of_run (h.read path)]
    cases t.content path with
    | error fault => exact ⟨.error fault, rfl, by simp⟩
    | ok bytes =>
      dsimp only
      cases htext : String.fromUTF8? bytes with
      | none => exact ⟨.error .notText, rfl, by simp [htext]⟩
      | some text => exact ⟨.ok text, rfl, by simp [htext]⟩
  obtain ⟨r, hrun, hiff⟩ := hrun
  exact (settles_on path hrun).congr hiff

variable {path : String}

theorem answers_read (h : t.Stands s) {manifest : Manifest}
    (hmanifest : t.HoldsManifest path manifest) : Answers (read path) s (.ok manifest) := by
  obtain ⟨text, htext, hmanifest⟩ := hmanifest
  refine ((settles_readText (n := 0) h path).answers htext le_rfl).bind_ok ?_
  rw [hmanifest]
  exact answers_ok manifest

theorem settles_childPath (h : t.Stands s) (path : String) (entry : SubmodelEntry) :
    Settles n (fun _ => childPath path entry) s (t.PointsTo path entry) :=
  settles_on _ (h.canonical _)

theorem exists_parts {entries : List SubmodelEntry} {submodels : List (String × Definition)}
    {R : String → Definition → Prop} :
    List.Forall₂ (fun entry sub => ∃ child, t.PointsTo path entry child ∧
      ∃ d, R child d ∧ (entry.name, d) = sub) entries submodels ↔
    ∃ parts : List Part, entries = parts.map Part.entry ∧ submodels = parts.map Part.submodel ∧
      (∀ part ∈ parts, t.PointsTo path part.entry part.path) ∧
      ∀ part ∈ parts, R part.path part.definition := by
  constructor
  · intro h
    induction h with
    | nil => exact ⟨[], rfl, rfl, by simp, by simp⟩
    | cons hfirst _ ih =>
      obtain ⟨child, hpoints, d, hd, rfl⟩ := hfirst
      obtain ⟨parts, rfl, rfl, hpoints', hparts⟩ := ih
      exact ⟨⟨_, child, d⟩ :: parts, rfl, rfl, List.forall_mem_cons.2 ⟨hpoints, hpoints'⟩,
        List.forall_mem_cons.2 ⟨hd, hparts⟩⟩
  · rintro ⟨parts, rfl, rfl, hpoints, hparts⟩
    rw [List.forall₂_map_left_iff, List.forall₂_map_right_iff, List.forall₂_same]
    exact fun part hpart => ⟨_, hpoints part hpart, _, hparts part hpart, rfl⟩

theorem settles_sources (h : t.Stands s) (path : String) (names : List String) :
    Settles n (fun _ => names.mapM fun name => do
      let file := Path.join (Path.parent path) name
      return Source.mk file (← FileAccess.on file (FileAccess.readText file))) s
      (List.Forall₂ (fun name source => source.path = Path.join (Path.parent path) name ∧
        t.HoldsText source.path source.text) names) := by
  refine settles_mapM fun name _ => ?_
  refine ((settles_readText h _).bind fun text _ => settles_ok (Source.mk _ text)).congr ?_
  rintro ⟨file, text⟩
  constructor
  · rintro ⟨_, htext, rfl, rfl⟩
    exact ⟨rfl, htext⟩
  · rintro ⟨rfl, htext⟩
    exact ⟨text, htext, rfl⟩

omit [FileAccess (StateM σ)] in
theorem settles_references (s : σ) (manifest : Manifest) :
    Settles n (fun _ => manifest.references.mapM fun e => do
      return (e.1, ← accept (parseReferences e.1 e.2))) s
      (List.Forall₂ (fun e e' => e'.1 = e.1 ∧ parseReferences e.1 e.2 = .ok e'.2)
        manifest.references) := by
  refine settles_mapM fun e _ => ?_
  refine ((settles_accept fun _ => parseReferences_fault_local).bind fun r _ =>
    settles_ok (e.1, r)).congr ?_
  rintro ⟨name, r⟩
  constructor
  · rintro ⟨_, hr, rfl, rfl⟩
    exact ⟨rfl, hr⟩
  · rintro ⟨rfl, hr⟩
    exact ⟨r, hr, rfl⟩

/-- A model is built from its manifest if its sub-models are. -/
theorem settles_defineOver (h : t.Stands s) {library : Library} {manifest : Manifest}
    (hlibrary : library.get? path = some manifest) (hmanifest : t.HoldsManifest path manifest)
    {below : Nat → String → ExceptT Error (StateM σ) Definition}
    (hbelow : ∀ child, t.Refers path child →
      Settles n (fun m => below m child) s (BuiltFrom t child)) :
    Settles n (fun m => defineOver library (below m) path) s (BuiltFrom t path) := by
  have hsubmodels : Settles n (fun m => manifest.submodels.mapM fun entry => do
      return (entry.name, ← below m (← childPath path entry))) s
      (List.Forall₂ (fun entry sub => ∃ child, t.PointsTo path entry child ∧
        ∃ d, BuiltFrom t child d ∧ (entry.name, d) = sub) manifest.submodels) := by
    refine settles_mapM fun entry hentry => ?_
    refine (settles_childPath h path entry).bind fun child hchild => ?_
    exact (hbelow child ⟨manifest, hmanifest, entry, hentry, hchild⟩).bind fun d _ => settles_ok _
  unfold defineOver
  simp only [hlibrary]
  refine ((settles_sources h path manifest.sources).bind fun sources _ =>
    (settles_references s manifest).bind fun references _ => hsubmodels.bind fun submodels _ =>
      settles_accept fun _ => Definition.build_fault_local).congr fun d => ?_
  constructor
  · rintro ⟨sources, hsources, references, hreferences, submodels, hsubmodels, hbuild⟩
    obtain ⟨parts, hentries, rfl, hpoints, hparts⟩ := exists_parts.1 hsubmodels
    exact .intro hmanifest hsources hreferences hentries hpoints hparts hbuild
  · rintro @⟨_, manifest', sources, references, parts, _, hmanifest', hsources, hreferences,
      hentries, hpoints, hparts, hbuild⟩
    obtain rfl := hmanifest.unique hmanifest'
    exact ⟨sources, hsources, references, hreferences, _,
      exists_parts.2 ⟨parts, hentries, rfl, hpoints, hparts⟩, hbuild⟩

end Programs

end Manifest

end ProcessModel
