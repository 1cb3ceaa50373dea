import ProcessModel.Discovery
import ProcessModel.Proofs.FileTrees

/-! Trees of files with their directories.

A directory lists names, each of which leads to a file or to a directory of its own. A path gets
longer with every name, and one that is too long leads nowhere, so that a walk through the
directories below one ends. -/

namespace ProcessModel

section Runs

variable {σ α β : Type} {s : σ}

theorem exists_run_mapM {f : α → StateM σ β} {R : α → β → Prop} {xs : List α}
    (h : ∀ x ∈ xs, ∃ y, (f x).run s = (y, s) ∧ R x y) :
    ∃ ys, (xs.mapM f).run s = (ys, s) ∧ List.Forall₂ R xs ys := by
  induction xs with
  | nil => exact ⟨[], rfl, .nil⟩
  | cons x xs ih =>
    obtain ⟨⟨y, hy, hR⟩, hxs⟩ := List.forall_mem_cons.1 h
    obtain ⟨ys, hys, hRs⟩ := ih hxs
    refine ⟨y :: ys, ?_, .cons hR hRs⟩
    rw [List.mapM_cons, run_bind_of_run hy, run_bind_of_run hys]
    rfl

theorem mem_flatten_of_forall₂ {P : α → β → Prop} {xs : List α} {parts : List (List β)}
    (h : List.Forall₂ (fun x part => ∀ y, y ∈ part ↔ P x y) xs parts) (y : β) :
    y ∈ parts.flatten ↔ ∃ x ∈ xs, P x y := by
  induction h with
  | nil => simp
  | cons hpart _ ih => simp [hpart, ih]

end Runs

namespace Text

theorem byteLength_append (a b : List Char) :
    byteLength (a ++ b) = byteLength a + byteLength b := by
  induction a with
  | nil => simp [byteLength]
  | cons c a ih => simp only [List.cons_append, byteLength, ih, Nat.add_assoc]

theorem byteLength_pos {a : List Char} (h : a ≠ []) : 0 < byteLength a := by
  obtain ⟨c, a, rfl⟩ := List.exists_cons_of_ne_nil h
  exact Nat.add_pos_left c.utf8Size_pos _

end Text

theorem Path.byteLength_join {name : String} (dir : String) (hname : name ≠ "")
    (hrelative : isAbsolute name = false) :
    Text.byteLength dir.toList < Text.byteLength (join dir name).toList := by
  have hpos : 0 < Text.byteLength name.toList :=
    Text.byteLength_pos fun hnil => hname (String.toList_eq_nil_iff.1 hnil)
  unfold join
  split_ifs with hempty
  · obtain rfl : dir = "" := by simpa [hrelative] using hempty
    exact hpos
  · rw [String.toList_append, Text.byteLength_append]
    omega
  · rw [String.toList_append, String.toList_append, Text.byteLength_append, Text.byteLength_append]
    omega

namespace FileTree

def isDir (t : FileTree) (path : String) : Bool :=
  match t.stat path with
  | .ok found => found.isDir
  | .error _ => false

def isFile (t : FileTree) (path : String) : Bool :=
  match t.stat path with
  | .ok found => !found.isDir
  | .error _ => false

section Stands

variable {σ : Type} [FileAccess (StateM σ)] {t : FileTree} {s : σ}

theorem Stands.isDir (h : t.Stands s) (path : String) :
    (FileAccess.isDir path : StateM σ Bool).run s = (t.isDir path, s) := by
  unfold FileAccess.isDir FileTree.isDir
  rw [run_bind_of_run (h.stat path)]
  cases t.stat path <;> rfl

theorem Stands.isFile (h : t.Stands s) (path : String) :
    (FileAccess.isFile path : StateM σ Bool).run s = (t.isFile path, s) := by
  unfold FileAccess.isFile FileTree.isFile
  rw [run_bind_of_run (h.stat path)]
  cases t.stat path <;> rfl

end Stands

theorem isFile_of_isDir {t : FileTree} {path : String} (h : t.isDir path = true) :
    t.isFile path = false := by
  unfold isDir at h
  unfold isFile
  cases hstat : t.stat path with
  | error fault => rfl
  | ok found =>
    rw [hstat] at h
    exact congrArg not h

end FileTree

/-- A finite tree of files with the names in its directories. -/
structure FolderTree extends FileTree where
  names : String → Except FileFault (List String)
  /-- A path that leads somewhere is not too long. -/
  stat_short : ∀ {path : String} {found : FileStat}, stat path = .ok found →
    Text.byteLength path.toList < Path.lengthLimit
  /-- A name in a directory leads on from there. -/
  names_lead : ∀ {dir : String} {found : List String}, names dir = .ok found →
    ∀ name ∈ found, name ≠ "" ∧ Path.isAbsolute name = false

namespace FolderTree

/-- Whether a state of the system shows a tree of files with its directories, and asking for them
does not change it. -/
structure Stands {σ : Type} [FileAccess (StateM σ)] (t : FolderTree) (s : σ) : Prop extends
    t.toFileTree.Stands s where
  list : ∀ path, (FileAccess.list path : StateM σ _).run s = (t.names path, s)

inductive Below (t : FolderTree) : String → String → Prop
  | file {dir name : String} {found : List String} (hnames : t.names dir = .ok found)
      (hname : name ∈ found) (hfile : t.isFile (Path.join dir name) = true) :
      Below t dir (Path.join dir name)
  | inside {dir name path : String} {found : List String} (hnames : t.names dir = .ok found)
      (hname : name ∈ found) (hdir : t.isDir (Path.join dir name) = true)
      (h : Below t (Path.join dir name) path) : Below t dir path

variable {t : FolderTree}

theorem short_of_isDir {path : String} (h : t.isDir path = true) :
    Text.byteLength path.toList < Path.lengthLimit := by
  unfold FileTree.isDir at h
  cases hstat : t.stat path with
  | ok found => exact t.stat_short hstat
  | error fault =>
    rw [hstat] at h
    cases h

theorem below_iff {dir path : String} {found : List String} (hnames : t.names dir = .ok found) :
    t.Below dir path ↔ ∃ name ∈ found,
      t.isDir (Path.join dir name) = true ∧ t.Below (Path.join dir name) path ∨
      t.isFile (Path.join dir name) = true ∧ path = Path.join dir name := by
  constructor
  · intro h
    cases h with
    | @file _ name _ hnames' hname hfile =>
      obtain rfl := Except.ok.inj (hnames.symm.trans hnames')
      exact ⟨name, hname, .inr ⟨hfile, rfl⟩⟩
    | @inside _ name _ _ hnames' hname hdir h =>
      obtain rfl := Except.ok.inj (hnames.symm.trans hnames')
      exact ⟨name, hname, .inl ⟨hdir, h⟩⟩
  · rintro ⟨name, hname, ⟨hdir, h⟩ | ⟨hfile, rfl⟩⟩
    · exact .inside hnames hname hdir h
    · exact .file hnames hname hfile

theorem not_below_of_error {dir path : String} {fault : FileFault}
    (h : t.names dir = .error fault) : ¬t.Below dir path := by
  intro hbelow
  cases hbelow with
  | file hnames => cases h.symm.trans hnames
  | inside hnames => cases h.symm.trans hnames

section Walk

variable {σ : Type} [FileAccess (StateM σ)] {s : σ}

/-- A walk that may go as many directories down as the path can still get longer finds the files
below a directory. -/
theorem Stands.filesBelow (h : t.Stands s) (n : Nat) {dir : String} (hdir : t.isDir dir = true)
    (hn : Path.lengthLimit ≤ Text.byteLength dir.toList + n) :
    ∃ files, (Discovery.filesBelow n dir : StateM σ _).run s = (files, s) ∧
      ∀ path, path ∈ files ↔ t.Below dir path := by
  induction n generalizing dir with
  | zero => exact absurd (short_of_isDir hdir) (Nat.not_lt.2 hn)
  | succ n ih =>
    rw [Discovery.filesBelow, run_bind_of_run (h.list dir)]
    cases hnames : t.names dir with
    | error fault => exact ⟨[], rfl, fun path => by simp [not_below_of_error hnames]⟩
    | ok found =>
      have hwalk : ∀ name ∈ found, ∃ files, (do
          if ← FileAccess.isDir (Path.join dir name) then
            Discovery.filesBelow n (Path.join dir name)
          else if ← FileAccess.isFile (Path.join dir name) then return [Path.join dir name]
          else return [] : StateM σ (List String)).run s = (files, s) ∧
          ∀ path, path ∈ files ↔
            t.isDir (Path.join dir name) = true ∧ t.Below (Path.join dir name) path ∨
            t.isFile (Path.join dir name) = true ∧ path = Path.join dir name := by
        intro name hname
        obtain ⟨hne, hrelative⟩ := t.names_lead hnames name hname
        rw [run_bind_of_run (h.isDir _)]
        by_cases hsub : t.isDir (Path.join dir name) = true
        · have hlonger := Path.byteLength_join dir hne hrelative
          obtain ⟨files, hrun, hmem⟩ := ih hsub (by omega)
          refine ⟨files, by rw [if_pos hsub, hrun], fun path => ?_⟩
          simp [hmem, hsub, FileTree.isFile_of_isDir hsub]
        · rw [if_neg hsub, run_bind_of_run (h.isFile _)]
          by_cases hfile : t.isFile (Path.join dir name) = true
          · exact ⟨_, by rw [if_pos hfile]; rfl, fun path => by simp [hsub, hfile]⟩
          · exact ⟨_, by rw [if_neg hfile]; rfl, fun path => by simp [hsub, hfile]⟩
      obtain ⟨parts, hrun, hparts⟩ := exists_run_mapM hwalk
      refine ⟨parts.flatten, ?_, fun path => ?_⟩
      · dsimp only
        rw [run_bind_of_run hrun]
        rfl
      · rw [below_iff hnames, mem_flatten_of_forall₂ hparts]

end Walk

end FolderTree

namespace Disk

def Named (d : Disk) : Prop := ∀ e ∈ d.entries, ∀ name ∈ e.1, name ≠ "" ∧ '/' ∉ name.toList

instance (d : Disk) : Decidable d.Named :=
  inferInstanceAs (Decidable (∀ e ∈ d.entries, ∀ name ∈ e.1, name ≠ "" ∧ '/' ∉ name.toList))

theorem find_short {d : Disk} {path : String} {found : List String × DiskEntry}
    (h : d.find path = .ok found) : Text.byteLength path.toList < Path.lengthLimit := by
  obtain ⟨w, hw, -⟩ := bind_eq_ok h
  obtain ⟨_, -, hw⟩ := bind_eq_ok hw
  split_ifs at hw with hlong
  · cases hw
  · exact Nat.not_le.1 hlong

theorem Named.of_mem_names {d : Disk} (h : d.Named) {place : List String} {name : String}
    (hname : name ∈ d.names place) : name ≠ "" ∧ Path.isAbsolute name = false := by
  obtain ⟨e, he, hlast⟩ := List.mem_filterMap.1 hname
  split_ifs at hlast
  obtain ⟨hne, hslash⟩ := h e he name (List.mem_of_getLast? hlast)
  refine ⟨hne, Bool.eq_false_iff.2 fun habsolute => hslash ?_⟩
  exact (List.isPrefixOf_iff_prefix.1 habsolute).subset List.mem_cons_self

def folders (d : Disk) (h : d.Named) : FolderTree where
  toFileTree := d.tree
  names path := do
    match ← d.find path with
    | (place, .dir _) => return d.names place
    | (_, .file _ _) => throw .notDirectory
  stat_short hstat := by
    obtain ⟨_, hfound, -⟩ := bind_eq_ok hstat
    exact find_short hfound
  names_lead hnames := by
    obtain ⟨⟨place, e⟩, -, hnames⟩ := bind_eq_ok hnames
    cases e with
    | file _ _ => cases hnames
    | dir _ =>
      cases hnames
      exact fun name => h.of_mem_names

theorem folders_stands (d : Disk) (h : d.Named) : (d.folders h).Stands d where
  toStands := d.tree_stands
  list _ := rfl

end Disk

end ProcessModel
