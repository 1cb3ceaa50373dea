import ProcessModel.Manifest
import ProcessModel.Proofs.FilePlaces

/-! Finite trees of files that stand still.

A tree of files says what is found under each path. Where a system shows such a tree and asking it
changes nothing, a program that only asks returns what its answers say, and leaves the state as it
is. -/

namespace ProcessModel

section Answers

variable {σ α β : Type} {s : σ}

/-- A program that returns `r` in state `s` and leaves the state as it is. -/
def Answers (x : ExceptT Error (StateM σ) α) (s : σ) (r : Except Error α) : Prop :=
  x.run.run s = (r, s)

theorem answers_ok (a : α) : Answers (pure a : ExceptT Error (StateM σ) α) s (.ok a) := rfl

theorem answers_error (e : Error) :
    Answers (throw e : ExceptT Error (StateM σ) α) s (.error e) := rfl

variable {x : ExceptT Error (StateM σ) α}

theorem Answers.run_eq {r : Except Error α} (h : Answers x s r) : x.run.run s = (r, s) := h

theorem Answers.bind_ok {f : α → ExceptT Error (StateM σ) β} {a : α} {r : Except Error β}
    (hx : Answers x s (.ok a)) (hf : Answers (f a) s r) : Answers (x >>= f) s r := by
  have hrun : (x >>= f).run.run s = ExceptT.bindCont f (x.run.run s).1 (x.run.run s).2 := rfl
  rw [Answers, hrun, hx.run_eq]
  exact hf

theorem Answers.bind_error {f : α → ExceptT Error (StateM σ) β} {e : Error}
    (hx : Answers x s (.error e)) : Answers (x >>= f) s (.error e) := by
  have hrun : (x >>= f).run.run s = ExceptT.bindCont f (x.run.run s).1 (x.run.run s).2 := rfl
  rw [Answers, hrun, hx.run_eq]
  rfl

theorem run_bind_of_run {op : StateM σ α} {f : α → StateM σ β} {a : α} (h : op.run s = (a, s)) :
    (op >>= f).run s = (f a).run s := by
  have hrun : (op >>= f).run s = (f (op.run s).1).run (op.run s).2 := rfl
  rw [hrun, h]

theorem answers_lift {op : StateM σ α} {a : α} (h : op.run s = (a, s)) :
    Answers (liftM op : ExceptT Error (StateM σ) α) s (.ok a) := by
  have hrun : (liftM op : ExceptT Error (StateM σ) α).run.run s =
      (.ok (op.run s).1, (op.run s).2) := rfl
  rw [Answers, hrun, h]

theorem answers_on (path : String) {op : StateM σ (Except FileFault α)} {r : Except FileFault α}
    (h : op.run s = (r, s)) :
    Answers (FileAccess.on path op) s (r.mapError (Error.file path)) := by
  refine (answers_lift h).bind_ok ?_
  cases r with
  | ok a => exact answers_ok a
  | error fault => exact answers_error _

end Answers

/-- A finite tree of files: what is found under each path. -/
structure FileTree where
  /-- The canonical paths of all there is. -/
  places : List String
  canonical : String → Except FileFault String
  content : String → Except FileFault ByteArray
  stat : String → Except FileFault FileStat
  canonical_mem : ∀ {path place : String}, canonical path = .ok place → place ∈ places
  /-- Texts that name one path lead to one file, if they lead to any. -/
  stat_same : ∀ {path path' : String} {a b : FileStat}, Path.same path path' = true →
    stat path = .ok a → stat path' = .ok b → a = b

namespace FileTree

/-- Whether a state of the system shows a tree of files, and asking for them does not change it. -/
structure Stands {σ : Type} [FileAccess (StateM σ)] (t : FileTree) (s : σ) : Prop where
  canonical : ∀ path, (FileAccess.canonical path : StateM σ _).run s = (t.canonical path, s)
  read : ∀ path, (FileAccess.read path : StateM σ _).run s = (t.content path, s)
  stat : ∀ path, (FileAccess.stat path : StateM σ _).run s = (t.stat path, s)
  fileBound : ∃ n, t.places.length ≤ n ∧ (FileAccess.fileBound : StateM σ Nat).run s = (n, s)

end FileTree

namespace Path

theorem separator_notMem_splitAll {sep : Char} {cs part : List Char}
    (h : part ∈ Text.splitAll sep cs) : sep ∉ part := by
  induction cs generalizing part with
  | nil =>
    obtain rfl := List.mem_singleton.1 h
    exact List.not_mem_nil
  | cons c cs ih =>
    rw [Text.splitAll] at h
    split_ifs at h with hc
    · rcases List.mem_cons.1 h with rfl | h
      · exact List.not_mem_nil
      · exact ih h
    · cases hparts : Text.splitAll sep cs with
      | nil =>
        rw [hparts] at h
        obtain rfl := List.mem_singleton.1 h
        simpa using fun heq => hc heq.symm
      | cons first rest =>
        rw [hparts] at h ih
        rcases List.mem_cons.1 h with rfl | h
        · simpa using ⟨fun heq => hc heq.symm, ih List.mem_cons_self⟩
        · exact ih (List.mem_cons_of_mem _ h)

def leading (path : String) : List String :=
  (Text.fields '/' path).filter fun name => !isIdle name

theorem root_notMem_leading (path : String) : "/" ∉ leading path := by
  intro h
  obtain ⟨part, hpart, hroot⟩ := List.mem_map.1 (List.mem_filter.1 h).1
  refine separator_notMem_splitAll hpart ?_
  rw [← String.toList_ofList (l := part), hroot]
  decide

theorem components_eq (path : String) :
    components path = if isAbsolute path then "/" :: leading path
      else if (Text.fields '/' path).head? = some "." then "." :: leading path
      else leading path := by
  have hnames : (Text.fields '/' path).filter (fun p => p != "" && p != ".") = leading path := by
    simp only [leading, isIdle, Bool.not_or]
    rfl
  rw [components, hnames]

theorem leading_of_components (path : String) :
    isAbsolute path = (components path).contains "/" ∧
      leading path = (components path).filter fun name => name != "/" && name != "." := by
  have hroot := root_notMem_leading path
  have hleading : (leading path).filter (fun name => name != "/" && name != ".") = leading path := by
    refine List.filter_eq_self.2 fun name hname => ?_
    have hidle := (List.mem_filter.1 hname).2
    simp only [isIdle, Bool.not_or, Bool.and_eq_true] at hidle
    exact Bool.and_eq_true_iff.2 ⟨bne_iff_ne.2 fun heq => hroot (heq ▸ hname), hidle.2⟩
  rw [components_eq]
  split_ifs with habsolute hfirst
  · exact ⟨by simp [habsolute], by simp [hleading]⟩
  · exact ⟨by simp [habsolute, hroot], by simp [hleading]⟩
  · exact ⟨by simp [habsolute, hroot], hleading.symm⟩

end Path

namespace Disk

variable {d : Disk}

theorem walk_filter {place goal : List String} {names : List String}
    (h : d.walk place names = .ok goal) :
    d.walk place (names.filter fun n => !Path.isIdle n) = .ok goal := by
  induction names generalizing place with
  | nil => exact h
  | cons name names ih =>
    rw [walk] at h
    cases hplace : d.lookup? place with
    | none =>
      rw [hplace] at h
      cases h
    | some e =>
      rw [hplace] at h
      cases e with
      | file content t => cases h
      | dir t =>
        dsimp only at h
        by_cases hidle : Path.isIdle name = true
        · rw [if_pos hidle] at h
          rw [List.filter_cons_of_neg (by simp [hidle])]
          exact ih h
        · rw [if_neg hidle] at h
          rw [List.filter_cons_of_pos (by simpa using hidle), walk, hplace]
          dsimp only
          rw [if_neg hidle]
          split_ifs at h ⊢ with hup hlong
          · exact ih h
          · exact ih h

theorem follow_eq_ok {w : Way} {place : List String} {e : DiskEntry}
    (h : d.follow w = .ok (place, e)) :
    d.walk w.start w.names = .ok place ∧ d.lookup? place = some e := by
  obtain ⟨place', hwalk, h⟩ := bind_eq_ok h
  cases hplace : d.lookup? place' with
  | none =>
    rw [hplace] at h
    cases h
  | some e' =>
    rw [hplace] at h
    cases h
    exact ⟨hwalk, hplace⟩

variable {path : String}

theorem anyWay_eq_ok {w : Way} (h : d.anyWay path = .ok w) :
    w = ⟨if Path.isAbsolute path then [] else d.cwd, Text.fields '/' path⟩ := by
  unfold anyWay at h
  split at h
  · cases h
  · split at h
    · cases h
    · exact (Except.ok.inj h).symm

theorem way_eq_ok {w : Way} (h : d.way path = .ok w) : d.anyWay path = .ok w := by
  obtain ⟨w', hw', h⟩ := bind_eq_ok h
  split_ifs at h
  · cases h
  · cases h
    exact hw'

theorem find_of_same {path' : String} {a b : List String × DiskEntry}
    (hsame : Path.same path path' = true) (h : d.find path = .ok a) (h' : d.find path' = .ok b) :
    a = b := by
  have hfind : ∀ {path : String} {a : List String × DiskEntry}, d.find path = .ok a →
      d.walk (if (Path.components path).contains "/" then [] else d.cwd)
        ((Path.components path).filter fun name => name != "/" && name != ".") = .ok a.1 ∧
      d.lookup? a.1 = some a.2 := by
    intro path a h
    obtain ⟨w, hw, h⟩ := bind_eq_ok h
    obtain ⟨hwalk, hentry⟩ := follow_eq_ok h
    obtain rfl := anyWay_eq_ok (way_eq_ok hw)
    obtain ⟨habsolute, hleading⟩ := Path.leading_of_components path
    rw [← habsolute, ← hleading]
    exact ⟨walk_filter hwalk, hentry⟩
  obtain ⟨hwalk, hentry⟩ := hfind h
  obtain ⟨hwalk', hentry'⟩ := hfind h'
  rw [← beq_iff_eq.1 hsame, hwalk] at hwalk'
  have hplace : a.1 = b.1 := Except.ok.inj hwalk'
  rw [← hplace, hentry] at hentry'
  exact Prod.ext hplace (Option.some.inj hentry')

def tree (d : Disk) : FileTree where
  places := "/" :: d.entries.map fun e => pathOf e.1
  canonical path := do return pathOf (← d.follow (← d.anyWay path)).1
  content := d.content
  stat path := do
    let found ← d.find path
    return ⟨found.2.isDir, found.2.modified⟩
  canonical_mem {path place} h := by
    obtain ⟨w, -, h⟩ := bind_eq_ok h
    obtain ⟨⟨at_, e⟩, hfollow, h⟩ := bind_eq_ok h
    cases h
    obtain ⟨-, hentry⟩ := follow_eq_ok hfollow
    unfold lookup? at hentry
    split_ifs at hentry with hroot
    · rw [List.isEmpty_iff.1 hroot]
      exact List.mem_cons_self
    · obtain ⟨entry, hfound, -⟩ := Option.map_eq_some_iff.1 hentry
      have hat : entry.1 = at_ := by simpa using List.find?_some hfound
      exact List.mem_cons_of_mem _
        (List.mem_map.2 ⟨entry, List.mem_of_find?_eq_some hfound, by rw [hat]⟩)
  stat_same {path path' a b} hsame ha hb := by
    obtain ⟨found, hfound, ha⟩ := bind_eq_ok ha
    obtain ⟨found', hfound', hb⟩ := bind_eq_ok hb
    cases ha
    cases hb
    rw [find_of_same hsame hfound hfound']

theorem tree_stands (d : Disk) : d.tree.Stands d where
  canonical _ := rfl
  read _ := rfl
  stat _ := rfl
  fileBound := ⟨d.entries.length + 1, by simp [tree], rfl⟩

end Disk

end ProcessModel
