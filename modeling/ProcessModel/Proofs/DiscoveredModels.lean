import ProcessModel.Proofs.Declarations
import ProcessModel.Proofs.Folders
import ProcessModel.Proofs.Loading

/-! Which models are found below directories.

Where no two manifests give models of one name, a model that is left out because of its name is a
sub-model of one that was loaded. That one may be left out for the same reason, but it is larger, so
that models left out lead up to one that is not. -/

namespace ProcessModel

section Asks

variable {σ α β : Type} {s : σ}

/-- A program that leaves the state as it is. What it returns has property `P`, if it does not
fail. -/
def Asks (x : ExceptT Error (StateM σ) α) (s : σ) (P : α → Prop) : Prop :=
  ∃ r, Answers x s r ∧ Yields P r

variable {x : ExceptT Error (StateM σ) α}

theorem Answers.unique {r r' : Except Error α} (h : Answers x s r) (h' : Answers x s r') :
    r = r' :=
  congrArg Prod.fst (h.run_eq.symm.trans h'.run_eq)

theorem Answers.bind_pure {r : Except Error α} (h : Answers x s r) (f : α → β) :
    Answers (x >>= fun a => pure (f a)) s (r.map f) := by
  cases r with
  | error e => exact h.bind_error
  | ok a => exact h.bind_ok (answers_ok (f a))

variable {P : α → Prop}

theorem asks_ok {a : α} (h : P a) : Asks (pure a : ExceptT Error (StateM σ) α) s P :=
  ⟨.ok a, answers_ok a, yields_ok h⟩

theorem asks_error (e : Error) : Asks (throw e : ExceptT Error (StateM σ) α) s P :=
  ⟨.error e, answers_error e, yields_error e⟩

theorem Asks.mono {Q : α → Prop} (h : Asks x s P) (hPQ : ∀ a, P a → Q a) : Asks x s Q := by
  obtain ⟨r, hr, hP⟩ := h
  exact ⟨r, hr, fun a ha => hPQ a (hP a ha)⟩

variable {f : α → ExceptT Error (StateM σ) β}

theorem Asks.bind {Q : β → Prop} (hx : Asks x s P) (hf : ∀ a, P a → Asks (f a) s Q) :
    Asks (x >>= f) s Q := by
  obtain ⟨r, hr, hP⟩ := hx
  cases r with
  | error e => exact ⟨.error e, hr.bind_error, yields_error e⟩
  | ok a =>
    obtain ⟨r', hr', hQ⟩ := hf a (hP a rfl)
    exact ⟨r', hr.bind_ok hr', hQ⟩

theorem asks_mapM {P : α → β → Prop} {xs : List α} (h : ∀ x ∈ xs, Asks (f x) s (P x)) :
    Asks (xs.mapM f) s (List.Forall₂ P xs) := by
  induction xs with
  | nil =>
    rw [List.mapM_nil]
    exact asks_ok .nil
  | cons x xs ih =>
    rw [List.mapM_cons]
    obtain ⟨hx, hxs⟩ := List.forall_mem_cons.1 h
    exact hx.bind fun y hy => (ih hxs).bind fun ys hys => asks_ok (.cons hy hys)

theorem exists_answers_mapM {xs : List α} (h : ∀ x ∈ xs, ∃ y, Answers (f x) s (.ok y)) :
    ∃ ys, Answers (xs.mapM f) s (.ok ys) := by
  induction xs with
  | nil => exact ⟨[], answers_ok []⟩
  | cons x xs ih =>
    obtain ⟨⟨y, hy⟩, hxs⟩ := List.forall_mem_cons.1 h
    obtain ⟨ys, hys⟩ := ih hxs
    refine ⟨y :: ys, ?_⟩
    rw [List.mapM_cons]
    exact hy.bind_ok (hys.bind_ok (answers_ok _))

end Asks

theorem eq_of_forall₂ {α β : Type} {R S : α → β → Prop} (h : ∀ x y z, R x y → S x z → y = z)
    {xs : List α} {ys zs : List β} (hys : List.Forall₂ R xs ys) (hzs : List.Forall₂ S xs zs) :
    ys = zs := by
  induction hys generalizing zs with
  | nil =>
    cases hzs
    rfl
  | cons hy _ ih =>
    cases hzs with
    | cons hz hrest => rw [h _ _ _ hy hz, ih hrest]

theorem mem_filterMap_of_forall₂ {α β : Type} {P : α → β → Prop} {xs : List α}
    {ys : List (Option β)} (h : List.Forall₂ (fun x y => ∀ b, y = some b ↔ P x b) xs ys) (b : β) :
    b ∈ ys.filterMap id ↔ ∃ x ∈ xs, P x b := by
  have hmem : b ∈ ys.filterMap id ↔ some b ∈ ys := by simp
  rw [hmem]
  clear hmem
  induction h with
  | nil => simp
  | cons hy _ ih =>
    rw [List.mem_cons, List.exists_mem_cons_iff]
    exact or_congr (eq_comm.trans (hy b)) ih

namespace Definition

theorem build_name_submodels {draft d : Definition} (h : build draft = .ok d) :
    d.name = draft.name ∧ d.submodels = draft.submodels := by
  unfold build at h
  dsimp only at h
  split at h
  · cases h
  · cases h
    split_ifs <;> exact ⟨rfl, rfl⟩

theorem sizeOf_submodel {d : Definition} {e : String × Definition} (he : e ∈ d.submodels) :
    sizeOf e.2 < sizeOf d := by
  obtain ⟨name, manifest, sources, groups, methods, references, aliases, submodels⟩ := d
  obtain ⟨key, sub⟩ := e
  have hlt := List.sizeOf_lt_of_mem he
  simp only [Prod.mk.sizeOf_spec, mk.sizeOf_spec] at hlt ⊢
  omega

end Definition

namespace Manifest

theorem Settles.asks {σ α : Type} {s : σ} {n : Nat} {x : Nat → ExceptT Error (StateM σ) α}
    {P : α → Prop} (h : Settles n x s P) : Asks (x n) s P := by
  obtain ⟨r, hanswers, hok, -⟩ := h
  exact ⟨r, hanswers n le_rfl, fun a => (hok a).1⟩

section Load

variable {σ : Type} [FileAccess (StateM σ)] {t : FileTree} {s : σ}

theorem asks_read (h : t.Stands s) (path : String) :
    Asks (read path) s (t.HoldsManifest path) := by
  refine (settles_readText (n := 0) h path).asks.bind fun text htext => ?_
  cases hmanifest : ofText? text with
  | none => exact asks_error _
  | some manifest => exact asks_ok ⟨text, htext, hmanifest⟩

theorem asks_collect (h : t.Stands s) {root : String} (hroot : root ∈ t.places) (n : Nat)
    {q : Search} (hq : q.Sound t root) (hn : t.places.length < n + q.library.length) :
    Asks (collect n q) s fun found => found.Sound t root ∧ found.pending = [] := by
  induction n generalizing q with
  | zero =>
    have hle := hq.length_le hroot
    omega
  | succ n ih =>
    rw [collect]
    cases hnext : q.unread with
    | nil => exact asks_ok ⟨hq.finish hnext, rfl⟩
    | cons path rest =>
      refine (asks_read h path).bind fun manifest hmanifest => ?_
      refine (asks_mapM fun entry _ => (settles_childPath (n := 0) h path entry).asks).bind
        fun children hchildren => ?_
      refine ih (hq.advance hnext hmanifest hchildren) ?_
      simp only [List.length_append, List.length_singleton]
      omega

/-- The definition that is loaded is built from the manifest at the canonical path. -/
theorem asks_load (h : t.Stands s) (path : String) :
    Asks (load path) s fun d => ∃ root, t.canonical path = .ok root ∧ BuiltFrom t root d := by
  refine (settles_on (n := 0) path (h.canonical path)).asks.bind fun root hroot => ?_
  obtain ⟨m, hm, hbound⟩ := h.fileBound
  have hcollect := asks_collect h (t.canonical_mem hroot) (m + 1) (sound_start t root)
    (by simp only [List.length_nil]; omega)
  have hrest : Asks (do
      let found ← collect (m + 1) { pending := [root] }
      if isCyclic found.links then throw (.definition .cycle)
      define found.library (found.library.length + 1) root : ExceptT Error (StateM σ) _) s
      fun d => ∃ root, t.canonical path = .ok root ∧ BuiltFrom t root d := by
    refine hcollect.bind fun found ⟨hfound, hdone⟩ => ?_
    split_ifs with hcyclic
    · exact asks_error _
    · have hacyclic := (hfound.exists_cycle_iff hdone).not.1
        fun hcycle => hcyclic ((isCyclic_iff found.links).2 hcycle)
      have hdefine := (settles_define h hfound hdone hacyclic (found.library.length + 1) []
        .refl (by simp) List.nodup_nil (by simp)).asks
      exact hdefine.mono fun d hd => ⟨root, hroot, hd⟩
  obtain ⟨r, hr, hyields⟩ := hrest
  exact ⟨r, (answers_lift hbound).bind_ok hr, hyields⟩

theorem builtFrom_of_load (h : t.Stands s) {path : String} {d : Definition}
    (hload : Answers (load path) s (.ok d)) :
    ∃ root, t.canonical path = .ok root ∧ BuiltFrom t root d := by
  obtain ⟨r, hr, hyields⟩ := asks_load h path
  exact hyields d (hr.unique hload)

end Load

section BuiltFrom

variable {t : FileTree} {path : String} {d d' : Definition}

variable (h : BuiltFrom t path d)
include h

theorem BuiltFrom.unique (h' : BuiltFrom t path d') : d = d' := by
  induction h generalizing d' with
  | @intro path manifest sources references parts d hmanifest hsources hreferences hentries hpoints
      hparts hbuild ih =>
    obtain @⟨_, manifest', sources', references', parts', _, hmanifest', hsources', hreferences',
      hentries', hpoints', hparts', hbuild'⟩ := h'
    obtain rfl := hmanifest.unique hmanifest'
    have hsame : sources = sources' := by
      refine eq_of_forall₂ (fun name a b ha hb => ?_) hsources hsources'
      have hfile : a.path = b.path := ha.1.trans hb.1.symm
      have htext : a.text = b.text := ha.2.unique (hfile ▸ hb.2)
      cases a
      cases b
      cases hfile
      cases htext
      rfl
    have hrefs : references = references' := by
      refine eq_of_forall₂ (fun e a b ha hb => ?_) hreferences hreferences'
      exact Prod.ext (ha.1.trans hb.1.symm) (Except.ok.inj (ha.2.symm.trans hb.2))
    have hsubs : parts.map Part.submodel = parts'.map Part.submodel := by
      have hsubs := (exists_parts (R := fun child d => ∀ d', BuiltFrom t child d' → d = d')).2
        ⟨parts, hentries, rfl, hpoints, fun part hpart _ => ih part hpart⟩
      have hsubs' := exists_parts.2 ⟨parts', hentries', rfl, hpoints', hparts'⟩
      refine eq_of_forall₂ (fun entry a b ha hb => ?_) hsubs hsubs'
      obtain ⟨child, hchild, d, hd, rfl⟩ := ha
      obtain ⟨child', hchild', d', hd', rfl⟩ := hb
      obtain rfl := hchild.unique hchild'
      rw [hd d' hd']
    rw [hsame, hrefs, hsubs, hbuild'] at hbuild
    exact (Except.ok.inj hbuild).symm

theorem BuiltFrom.exists_manifest :
    ∃ manifest, t.HoldsManifest path manifest ∧ d.name = manifest.name := by
  obtain ⟨hmanifest, -, -, -, -, -, hbuild⟩ := h
  exact ⟨_, hmanifest, (Definition.build_name_submodels hbuild).1⟩

theorem BuiltFrom.distinct : d.Distinct := by
  obtain ⟨-, -, -, -, -, -, hbuild⟩ := h
  exact Definition.distinct_of_build hbuild

theorem BuiltFrom.submodel {e : String × Definition} (he : e ∈ d.submodels) :
    ∃ file child, t.canonical file = .ok child ∧ BuiltFrom t child e.2 := by
  obtain ⟨-, -, -, -, hpoints, hparts, hbuild⟩ := h
  rw [(Definition.build_name_submodels hbuild).2] at he
  obtain ⟨part, hpart, rfl⟩ := List.mem_map.1 he
  exact ⟨_, _, hpoints part hpart, hparts part hpart⟩

end BuiltFrom

/-- No two manifests give models of one name. -/
def NamesApart (t : FileTree) : Prop :=
  ∀ {file file' path path' : String} {d d' : Definition}, t.canonical file = .ok path →
    t.canonical file' = .ok path' → BuiltFrom t path d → BuiltFrom t path' d' →
    d.name = d'.name → path = path'

end Manifest

namespace Discovery

section Chain

variable {explicit discovered : List Definition}

def kept (explicit discovered : List Definition) : List Definition :=
  discovered.filter fun d => !(embedded (explicit ++ discovered)).contains d.name

theorem mem_kept {d : Definition} :
    d ∈ kept explicit discovered ↔ d ∈ discovered ∧
      ∀ top ∈ explicit ++ discovered, ∀ e ∈ top.submodels, e.2.name ≠ d.name := by
  simp only [kept, embedded, List.mem_filter, Bool.not_eq_true', List.contains_eq_mem,
    decide_eq_false_iff_not, List.mem_flatMap, List.mem_map, not_exists, not_and, ne_eq]

/-- Models that were found are kept, or lead up to one that is returned: whatever has a model that
is left out as a sub-model is larger, and there are finitely many models. -/
theorem kept_or_below (hdistinct : ∀ top ∈ explicit ++ discovered, top.Distinct)
    (hsame : ∀ top ∈ explicit ++ discovered, ∀ e ∈ top.submodels, ∀ d ∈ discovered,
      e.2.name = d.name → e.2 = d) {d : Definition} (hd : d ∈ discovered) :
    d ∈ kept explicit discovered ∨ ∃ top ∈ explicit ++ kept explicit discovered,
      ∃ owner, owner ≠ [] ∧ top.descend? owner = some d := by
  induction hk : sizeOf discovered - sizeOf d using Nat.strong_induction_on generalizing d with
  | _ k ih =>
    by_cases hkept : d ∈ kept explicit discovered
    · exact .inl hkept
    · right
      obtain ⟨top, htop, e, he, hname⟩ : ∃ top ∈ explicit ++ discovered, ∃ e ∈ top.submodels,
          e.2.name = d.name := by
        simpa [mem_kept, hd] using hkept
      have hstep : top.descend? [e.1] = some d := by
        rw [Definition.descend?, (hdistinct top htop).submodel?_eq he,
          hsame top htop e he d hd hname]
        rfl
      rcases List.mem_append.1 htop with hexplicit | hfound
      · exact ⟨top, List.mem_append_left _ hexplicit, [e.1], by simp, hstep⟩
      · have hlarger := Definition.sizeOf_submodel he
        rw [hsame top htop e he d hd hname] at hlarger
        have hbound := List.sizeOf_lt_of_mem hfound
        rcases ih _ (by omega) hfound rfl with hkept | ⟨root, hroot, owner, -, howner⟩
        · exact ⟨top, List.mem_append_right _ hkept, [e.1], by simp, hstep⟩
        · refine ⟨root, hroot, owner ++ [e.1], by simp, ?_⟩
          rw [Definition.descend?_append, howner]
          exact hstep

end Chain

section Programs

variable {σ : Type} [FileAccess (StateM σ)] {t : FolderTree} {s : σ}

def Ignored (t : FolderTree) (ignore : List String) (path : String) : Prop :=
  ∃ other ∈ ignore, ∃ place, t.canonical other = .ok place ∧ t.canonical path = .ok place

/-- A definition is found below a directory: it is loaded from a file that may be a manifest and is
not to be ignored. -/
def Found (t : FolderTree) (s : σ) (ignore : List String) (dir : String) (d : Definition) : Prop :=
  t.isDir dir = true ∧ ∃ path, t.Below dir path ∧ Path.extension? path = some "toml" ∧
    ¬Ignored t ignore path ∧ Answers (Manifest.load path) s (.ok d)

theorem run_canonical? (h : t.Stands s) (path : String) :
    (canonical? path : StateM σ _).run s = ((t.canonical path).toOption, s) := by
  rw [canonical?, run_bind_of_run (h.canonical path)]
  rfl

theorem exists_run_ignored (h : t.Stands s) (ignore : List String) :
    ∃ known, (ignore.mapM fun p => canonical? p : StateM σ _).run s = (known, s) ∧
      ∀ path, (∃ place ∈ known.filterMap id, t.canonical path = .ok place) ↔
        Ignored t ignore path := by
  have hcanonical : ∀ other ∈ ignore, ∃ r, (canonical? other : StateM σ _).run s = (r, s) ∧
      ∀ place, r = some place ↔ t.canonical other = .ok place := by
    refine fun other _ => ⟨_, run_canonical? h other, fun place => ?_⟩
    cases t.canonical other <;> simp [Except.toOption]
  obtain ⟨known, hrun, hknown⟩ := exists_run_mapM hcanonical
  refine ⟨known, hrun, fun path => ?_⟩
  simp only [mem_filterMap_of_forall₂ hknown, Ignored]
  tauto

theorem exists_run_manifestsBelow (h : t.Stands s) {dir : String} (hdir : t.isDir dir = true) :
    ∃ paths, (manifestsBelow dir : StateM σ _).run s = (paths, s) ∧
      ∀ path, path ∈ paths ↔ t.Below dir path ∧ Path.extension? path = some "toml" := by
  obtain ⟨files, hrun, hfiles⟩ := h.filesBelow bound hdir
    (Nat.le_add_left_of_le (by decide : Path.lengthLimit ≤ bound))
  refine ⟨_, by rw [manifestsBelow, run_bind_of_run hrun]; rfl, fun path => ?_⟩
  simp [hfiles]

theorem exists_run_tryLoad (h : t.Stands s) (ignored : List String) (path : String) :
    ∃ r, (tryLoad ignored path : StateM σ _).run s = (r, s) ∧
      ∀ d, r = some d ↔ (¬∃ place ∈ ignored, t.canonical path = .ok place) ∧
        Answers (Manifest.load path) s (.ok d) := by
  obtain ⟨r, hload, -⟩ := Manifest.asks_load h.toStands path
  have hloaded : ∀ d, r.toOption = some d ↔ Answers (Manifest.load path) s (.ok d) :=
    fun d => ⟨fun hd => toOption_eq_some hd ▸ hload, fun hd => by rw [hload.unique hd]; rfl⟩
  rw [tryLoad, run_bind_of_run (run_canonical? h path)]
  cases hplace : t.canonical path with
  | error fault =>
    refine ⟨r.toOption, ?_, fun d => by simp [hloaded]⟩
    exact run_bind_of_run hload
  | ok place =>
    by_cases hignored : place ∈ ignored
    · refine ⟨none, ?_, fun d => by simp [hignored]⟩
      dsimp only [Except.toOption]
      rw [if_pos (by simpa using hignored)]
      rfl
    · refine ⟨r.toOption, ?_, fun d => by simp [hloaded, hignored]⟩
      dsimp only [Except.toOption]
      rw [if_neg (by simpa using hignored)]
      exact run_bind_of_run hload

def Loadable (t : FolderTree) (s : σ) (path : String) : Prop :=
  t.isDir path = true ∨ t.isFile path = true ∧ ∃ d, Answers (Manifest.load path) s (.ok d)

/-- What is returned for one path: the definition of a manifest that must load, or those found below
a directory. -/
structure ModelsOf (t : FolderTree) (s : σ) (ignore : List String) (path : String)
    (found : List Definition × List Definition) : Prop where
  there : t.isDir path = true ∨ t.isFile path = true
  explicit : List.Forall₂ (fun path d => Answers (Manifest.load path) s (.ok d))
    ([path].filter t.isFile) found.1
  discovered : ∀ d, d ∈ found.2 ↔ Found t s ignore path d

variable {path : String}

theorem ModelsOf.loadable {ignore : List String} {found : List Definition × List Definition}
    (h : ModelsOf t s ignore path found) : Loadable t s path := by
  refine h.there.imp_right fun hfile => ⟨hfile, ?_⟩
  have hexplicit := h.explicit
  rw [List.filter_cons_of_pos hfile] at hexplicit
  obtain ⟨d, -, hload⟩ := exists_of_forall₂ hexplicit List.mem_cons_self
  exact ⟨d, hload⟩

theorem answers_modelsAt_file (h : t.Stands s) (ignored : List String)
    (hfile : t.isFile path = true) {r : Except Error Definition}
    (hload : Answers (Manifest.load path) s r) :
    Answers (modelsAt ignored path) s (r.map fun d => ([d], [])) := by
  have hdir : ¬t.isDir path = true := fun hdir => by
    rw [FileTree.isFile_of_isDir hdir] at hfile
    cases hfile
  refine (answers_lift (h.isDir path)).bind_ok ?_
  rw [if_neg hdir]
  refine (answers_lift (h.isFile path)).bind_ok ?_
  rw [if_pos hfile]
  exact hload.bind_pure _

variable {ignore ignored : List String}
  (hignored : ∀ path, (∃ place ∈ ignored, t.canonical path = .ok place) ↔ Ignored t ignore path)

include hignored

theorem answers_modelsAt_dir (h : t.Stands s) (hdir : t.isDir path = true) :
    ∃ found, Answers (modelsAt ignored path) s (.ok found) ∧ ModelsOf t s ignore path found := by
  obtain ⟨paths, hpaths, hmem⟩ := exists_run_manifestsBelow h hdir
  obtain ⟨loaded, hloaded, hforall⟩ := exists_run_mapM
    fun p (_ : p ∈ paths) => exists_run_tryLoad h ignored p
  refine ⟨([], loaded.filterMap id), ?_, .inl hdir, ?_, fun d => ?_⟩
  · refine (answers_lift (h.isDir path)).bind_ok ?_
    rw [if_pos hdir]
    exact (answers_lift hpaths).bind_ok ((answers_lift hloaded).bind_ok (answers_ok _))
  · simp [FileTree.isFile_of_isDir hdir]
  · rw [mem_filterMap_of_forall₂ hforall, Found]
    simp only [hmem, hignored, hdir, true_and, and_assoc]

theorem asks_modelsAt (h : t.Stands s) (path : String) :
    Asks (modelsAt ignored path) s (ModelsOf t s ignore path) := by
  by_cases hdir : t.isDir path = true
  · obtain ⟨found, hanswers, hfound⟩ := answers_modelsAt_dir hignored h hdir
    exact ⟨_, hanswers, yields_ok hfound⟩
  by_cases hfile : t.isFile path = true
  · obtain ⟨r, hload, -⟩ := Manifest.asks_load h.toStands path
    refine ⟨_, answers_modelsAt_file h ignored hfile hload, fun found hfound => ?_⟩
    obtain ⟨d, rfl, rfl⟩ := map_eq_ok hfound
    refine ⟨.inr hfile, ?_, fun d => by simp [Found, hdir]⟩
    rw [List.filter_cons_of_pos hfile]
    exact .cons hload .nil
  · refine ⟨.error (.definition (.noManifest path)),
      (answers_lift (h.isDir path)).bind_ok ?_, yields_error _⟩
    rw [if_neg hdir]
    refine (answers_lift (h.isFile path)).bind_ok ?_
    rw [if_neg hfile]
    exact answers_error _

theorem exists_answers_modelsAt (h : t.Stands s) (hpath : Loadable t s path) :
    ∃ found, Answers (modelsAt ignored path) s (.ok found) := by
  rcases hpath with hdir | ⟨hfile, d, hload⟩
  · obtain ⟨found, hanswers, -⟩ := answers_modelsAt_dir hignored h hdir
    exact ⟨found, hanswers⟩
  · exact ⟨_, answers_modelsAt_file h ignored hfile hload⟩

omit hignored

variable {paths : List String} {found : List (List Definition × List Definition)}

theorem forall₂_explicit (h : List.Forall₂ (ModelsOf t s ignore) paths found) :
    List.Forall₂ (fun path d => Answers (Manifest.load path) s (.ok d)) (paths.filter t.isFile)
      (found.flatMap (·.1)) := by
  induction h with
  | nil => exact .nil
  | @cons path first paths found hfirst _ ih =>
    have hsplit : (path :: paths).filter t.isFile =
        [path].filter t.isFile ++ paths.filter t.isFile := by
      rw [← List.filter_append, List.singleton_append]
    rw [hsplit, List.flatMap_cons]
    exact List.rel_append hfirst.explicit ih

theorem mem_discovered (h : List.Forall₂ (ModelsOf t s ignore) paths found) (d : Definition) :
    d ∈ found.flatMap (·.2) ↔ ∃ dir ∈ paths, Found t s ignore dir d := by
  rw [List.flatMap_def]
  refine mem_flatten_of_forall₂ ?_ d
  rw [List.forall₂_map_right_iff]
  exact h.imp fun path models hmodels => hmodels.discovered

theorem exists_builtFrom (h : t.Stands s) (hfound : List.Forall₂ (ModelsOf t s ignore) paths found)
    {top : Definition} (htop : top ∈ found.flatMap (·.1) ++ found.flatMap (·.2)) :
    ∃ file path, t.canonical file = .ok path ∧ Manifest.BuiltFrom t.toFileTree path top := by
  obtain ⟨file, hload⟩ : ∃ file, Answers (Manifest.load file) s (.ok top) := by
    rcases List.mem_append.1 htop with htop | htop
    · obtain ⟨file, -, hload⟩ := exists_of_forall₂ (forall₂_explicit hfound).flip htop
      exact ⟨file, hload⟩
    · obtain ⟨_, -, -, file, -, -, -, hload⟩ := (mem_discovered hfound top).1 htop
      exact ⟨file, hload⟩
  exact ⟨file, Manifest.builtFrom_of_load h.toStands hload⟩

theorem submodel_eq_of_name (h : t.Stands s) (hapart : Manifest.NamesApart t.toFileTree)
    (hfound : List.Forall₂ (ModelsOf t s ignore) paths found) :
    ∀ top ∈ found.flatMap (·.1) ++ found.flatMap (·.2), ∀ e ∈ top.submodels,
      ∀ d ∈ found.flatMap (·.2), e.2.name = d.name → e.2 = d := by
  intro top htop e he d hd hname
  obtain ⟨_, _, -, hbuilt⟩ := exists_builtFrom h hfound htop
  obtain ⟨_, path, hpath, hsub⟩ := hbuilt.submodel he
  obtain ⟨_, path', hpath', hd⟩ := exists_builtFrom h hfound (List.mem_append_right _ hd)
  obtain rfl := hapart hpath hpath' hsub hd hname
  exact hsub.unique hd

theorem answers_load (h : t.Stands s) (paths ignore : List String) :
    ∃ r : Except Error (List (List Definition × List Definition)),
      Answers (load paths ignore) s (r.map fun found =>
        found.flatMap (·.1) ++ kept (found.flatMap (·.1)) (found.flatMap (·.2))) ∧
      ((∃ found, r = .ok found) ↔ ∀ path ∈ paths, Loadable t s path) ∧
      Yields (List.Forall₂ (ModelsOf t s ignore) paths) r := by
  obtain ⟨known, hknown, hignored⟩ := exists_run_ignored h ignore
  obtain ⟨r, hr, hyields⟩ := asks_mapM
    fun path (_ : path ∈ paths) => asks_modelsAt hignored h path
  refine ⟨r, (answers_lift hknown).bind_ok (hr.bind_pure _), ?_, hyields⟩
  constructor
  · rintro ⟨found, hfound⟩ path hpath
    obtain ⟨models, -, hmodels⟩ := exists_of_forall₂ (hyields found hfound) hpath
    exact hmodels.loadable
  · intro hpaths
    obtain ⟨found, hfound⟩ := exists_answers_mapM
      fun path hpath => exists_answers_modelsAt hignored h (hpaths path hpath)
    exact ⟨found, hr.unique hfound⟩

/-- Where no two manifests give models of one name, a search of paths covers every model. It changes
nothing, and it succeeds exactly if each path leads to a directory or to a file that loads. It then
returns the models of the files in their order, followed by those models found below the
directories, at any depth, whose names no sub-model of a model that was loaded has. Every model that
was found is among these, or it is a sub-model, at some depth, of a model that is returned. -/
theorem load_covers_models (h : t.Stands s) (hapart : Manifest.NamesApart t.toFileTree)
    (paths ignore : List String) :
    ∃ r, Answers (load paths ignore) s r ∧
      ((∃ models, r = .ok models) ↔ ∀ path ∈ paths, Loadable t s path) ∧
      ∀ models, r = .ok models → ∃ explicit rest, models = explicit ++ rest ∧
        List.Forall₂ (fun path d => Answers (Manifest.load path) s (.ok d))
          (paths.filter t.isFile) explicit ∧
        (∀ d, d ∈ rest ↔ (∃ dir ∈ paths, Found t s ignore dir d) ∧
          ∀ top, (top ∈ explicit ∨ ∃ dir ∈ paths, Found t s ignore dir top) →
            ∀ e ∈ top.submodels, e.2.name ≠ d.name) ∧
        ∀ dir ∈ paths, ∀ d, Found t s ignore dir d → d ∈ rest ∨
          ∃ top ∈ models, ∃ owner, owner ≠ [] ∧ top.descend? owner = some d := by
  obtain ⟨r, hanswers, hok, hyields⟩ := answers_load h paths ignore
  refine ⟨_, hanswers, ?_, fun models hmodels => ?_⟩
  · rw [← hok]
    cases r <;> simp [Except.map]
  obtain ⟨found, rfl, rfl⟩ := map_eq_ok hmodels
  have hfound := hyields found rfl
  have hexplicit := forall₂_explicit hfound
  have hdiscovered := mem_discovered hfound
  refine ⟨_, _, rfl, hexplicit, fun d => ?_, fun dir hdir d hd => ?_⟩
  · simp only [mem_kept, List.mem_append, hdiscovered]
  · refine kept_or_below (fun top htop => ?_) (submodel_eq_of_name h hapart hfound)
      ((hdiscovered d).2 ⟨dir, hdir, hd⟩)
    obtain ⟨_, _, -, hbuilt⟩ := exists_builtFrom h hfound htop
    exact hbuilt.distinct

end Programs

section Example

open Manifest

theorem hills_named : (hills soilText).Named := by decide

theorem hills_names {file path : String} {d : Definition}
    (hfile : (hills soilText).tree.canonical file = .ok path)
    (h : BuiltFrom (hills soilText).tree path d) :
    (path, d.name) ∈ [("/m/basin.toml", "basin"), ("/m/slope.toml", "slope"),
      ("/m/soil.toml", "soil")] := by
  obtain ⟨manifest, hmanifest, hname⟩ := h.exists_manifest
  have hplaces : (hills soilText).tree.places =
      ["/", "/m", "/m/basin.toml", "/m/slope.toml", "/m/soil.toml"] := by decide +kernel
  have hplace := hplaces ▸ (hills soilText).tree.canonical_mem hfile
  have hdir : ∀ {path : String}, (hills soilText).tree.content path = .error .isDirectory →
      ¬(hills soilText).tree.HoldsManifest path manifest := by
    rintro path hcontent ⟨_, ⟨_, hbytes, -⟩, -⟩
    cases hcontent.symm.trans hbytes
  have hsoil : (hills soilText).tree.HoldsManifest "/m/soil.toml" { name := "soil" } :=
    holdsManifest_of_text soilText rfl (by decide +kernel)
  simp only [List.mem_cons, List.not_mem_nil, or_false] at hplace
  rcases hplace with rfl | rfl | rfl | rfl | rfl
  · exact absurd hmanifest (hdir rfl)
  · exact absurd hmanifest (hdir rfl)
  · simp [hname, hmanifest.unique (hills_basin _), basinManifest]
  · simp [hname, hmanifest.unique (hills_slope _), slopeManifest]
  · simp [hname, hmanifest.unique hsoil]

theorem hills_apart : NamesApart (hills soilText).tree := by
  intro file file' path path' d d' hfile hfile' h h' hname
  have hpath := hills_names hfile h
  have hpath' := hills_names hfile' h'
  rw [hname] at hpath
  simp only [List.mem_cons, List.not_mem_nil, or_false, Prod.mk.injEq] at hpath hpath'
  rcases hpath with ⟨rfl, hd⟩ | ⟨rfl, hd⟩ | ⟨rfl, hd⟩ <;>
    rcases hpath' with ⟨rfl, hd'⟩ | ⟨rfl, hd'⟩ | ⟨rfl, hd'⟩ <;> simp_all

theorem hills_loads (path : String) (P : Definition → Bool)
    (h : ((Manifest.load path : ExceptT Error (StateM Disk) Definition).run.run
      (hills soilText)).1.toOption.any P = true) :
    ∃ d, Answers (Manifest.load path) (hills soilText) (.ok d) ∧ P d = true := by
  obtain ⟨r, hr, -⟩ := asks_load (hills soilText).tree_stands path
  rw [hr.run_eq] at h
  obtain ⟨d, hd, hP⟩ := (Option.any_eq_true _ _).1 h
  obtain rfl := toOption_eq_some hd
  exact ⟨d, hr, hP⟩

theorem hills_found {name : String} (hname : name ∈ ["basin.toml", "slope.toml", "soil.toml"])
    {d : Definition} (h : Answers (Manifest.load (Path.join "." name)) (hills soilText) (.ok d)) :
    Found ((hills soilText).folders hills_named) (hills soilText) [] "." d := by
  have hnames : ((hills soilText).folders hills_named).names "." =
      .ok ["basin.toml", "slope.toml", "soil.toml"] := rfl
  have hfile : ((hills soilText).folders hills_named).isFile (Path.join "." name) = true ∧
      Path.extension? (Path.join "." name) = some "toml" := by
    simp only [List.mem_cons, List.not_mem_nil, or_false] at hname
    rcases hname with rfl | rfl | rfl <;> exact ⟨rfl, by decide +kernel⟩
  exact ⟨rfl, _, .file hnames hname hfile.1, hfile.2, by simp [Ignored], h⟩

/-- Of a basin, its slopes and their soil the soil is left out, since a slope has it as a sub-model.
The slopes are left out as well, but the soil is a sub-model of the basin further down. -/
theorem hills_covered :
    ∃ models d, Answers (load ["."] []) (hills soilText) (.ok models) ∧ d.name = "soil" ∧
      Found ((hills soilText).folders hills_named) (hills soilText) [] "." d ∧ d ∉ models ∧
      ∃ top ∈ models, ∃ owner, owner ≠ [] ∧ top.descend? owner = some d := by
  obtain ⟨soil, hsoil, hname⟩ := hills_loads (Path.join "." "soil.toml")
    (fun d => d.name = "soil") (by decide +kernel)
  obtain ⟨slope, hslope, hsub⟩ := hills_loads (Path.join "." "slope.toml")
    (fun d => d.submodels.any fun e => e.2.name = "soil") (by decide +kernel)
  obtain ⟨e, he, hsub⟩ := List.any_eq_true.1 hsub
  have hname := of_decide_eq_true hname
  have hfound := hills_found (by simp) hsoil
  obtain ⟨r, hanswers, hok, hmodels⟩ := load_covers_models
    ((hills soilText).folders_stands hills_named) hills_apart ["."] []
  obtain ⟨models, rfl⟩ := hok.2 (List.forall_mem_cons.2 ⟨.inl rfl, by simp⟩)
  obtain ⟨explicit, rest, hsplit, hexplicit, hrest, hcovers⟩ := hmodels models rfl
  obtain rfl := List.forall₂_nil_left_iff.1 hexplicit
  obtain rfl : models = rest := hsplit
  have hleft : soil ∉ models := by
    intro hmem
    refine ((hrest soil).1 hmem).2 slope (.inr ⟨".", by simp, hills_found (by simp) hslope⟩) e he ?_
    rw [hname, of_decide_eq_true hsub]
  exact ⟨models, soil, hanswers, hname, hfound, hleft,
    (hcovers "." (by simp) soil hfound).resolve_left hleft⟩

end Example

end Discovery

end ProcessModel
