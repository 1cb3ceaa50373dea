import ProcessModel.Proofs.BuiltFrom
import ProcessModel.Proofs.Compiled
import ProcessModel.Proofs.Cycles

/-! Loading a manifest with those of its sub-models.

The search reads each manifest that can be reached once, so that it ends in a finite tree of files.
The links it meets are those between the manifests that can be reached. Without cycles no manifest
stands below itself, so that defining the models ends as well. -/

namespace ProcessModel.Manifest

open Relation

def Search.paths (q : Search) : List String := q.library.map (·.1)

variable {path : String}

theorem get?_isSome_iff {library : Library} :
    (library.get? path).isSome = true ↔ path ∈ library.map (·.1) := by
  simp [Library.get?, List.find?_isSome]

theorem mem_of_get? {library : Library} {manifest : Manifest}
    (h : library.get? path = some manifest) : (path, manifest) ∈ library :=
  Keyed.mem_of_get? h

variable {q : Search}

theorem Search.mem_pending_of_mem_unread (h : path ∈ q.unread) : path ∈ q.pending :=
  (List.dropWhile_suffix _).subset h

theorem Search.mem_paths_or_mem_unread (h : path ∈ q.pending) :
    path ∈ q.paths ∨ path ∈ q.unread := by
  let known : String → Bool := fun path => (q.library.get? path).isSome
  rw [← List.takeWhile_append_dropWhile (p := known) (l := q.pending)] at h
  refine (List.mem_append.1 h).imp_left fun hread => ?_
  exact get?_isSome_iff.1 (List.mem_takeWhile_imp (p := known) hread)

theorem Search.notMem_paths_of_unread {rest : List String} (h : q.unread = path :: rest) :
    path ∉ q.paths := by
  unfold unread at h
  have hhead := List.head_dropWhile_not (fun path => (q.library.get? path).isSome)
    (l := q.pending) (by simp [h])
  simp only [h, List.head_cons] at hhead
  rw [paths, ← get?_isSome_iff, hhead]
  exact Bool.false_ne_true

section Search

variable {t : FileTree} {root : String} {q : Search}

/-- What holds of a search from `root` at any time. -/
structure Search.Sound (t : FileTree) (root : String) (q : Search) : Prop where
  pending_reached : ∀ path ∈ q.pending, ReflTransGen t.Refers root path
  library_reached : ∀ e ∈ q.library, ReflTransGen t.Refers root e.1
  library_holds : ∀ e ∈ q.library, t.HoldsManifest e.1 e.2
  nodup : q.paths.Nodup
  linked_iff : ∀ path child, Linked q.links path child ↔ path ∈ q.paths ∧ t.Refers path child
  root_met : root ∈ q.paths ∨ root ∈ q.pending
  linked_met : ∀ path child, Linked q.links path child → child ∈ q.paths ∨ child ∈ q.pending

theorem sound_start (t : FileTree) (root : String) : Search.Sound t root { pending := [root] } where
  pending_reached path hpath := by rw [List.mem_singleton.1 hpath]
  library_reached := by simp
  library_holds := by simp
  nodup := List.nodup_nil
  linked_iff := by simp [Linked, Search.paths]
  root_met := .inr List.mem_cons_self
  linked_met := by simp [Linked]

/-- The search after it has read the manifest at `path` and left the paths `rest` to look at. -/
def Search.advance (q : Search) (path : String) (manifest : Manifest) (children rest : List String) :
    Search where
  pending := children.reverse ++ rest
  library := q.library ++ [(path, manifest)]
  links := q.links ++ children.map fun child => (path, child)

theorem Search.paths_advance (q : Search) (path : String) (manifest : Manifest)
    (children rest : List String) :
    (q.advance path manifest children rest).paths = q.paths ++ [path] := by
  simp [paths, advance]

variable {path : String}

theorem refers_iff_mem {manifest : Manifest} {children : List String}
    (hmanifest : t.HoldsManifest path manifest)
    (hchildren : List.Forall₂ (t.PointsTo path) manifest.submodels children) (child : String) :
    t.Refers path child ↔ child ∈ children := by
  constructor
  · rintro ⟨manifest', hmanifest', entry, hentry, hpoints⟩
    obtain rfl := hmanifest.unique hmanifest'
    obtain ⟨child', hchild', hpoints'⟩ := exists_of_forall₂ hchildren hentry
    rwa [hpoints.unique hpoints']
  · intro hchild
    obtain ⟨entry, hentry, hpoints⟩ := exists_of_forall₂ hchildren.flip hchild
    exact ⟨manifest, hmanifest, entry, hentry, hpoints⟩

theorem exists_forall₂ {α β : Type} {R : α → β → Prop} {xs : List α} (h : ∀ x ∈ xs, ∃ y, R x y) :
    ∃ ys, List.Forall₂ R xs ys := by
  induction xs with
  | nil => exact ⟨[], .nil⟩
  | cons x xs ih =>
    obtain ⟨⟨y, hy⟩, hxs⟩ := List.forall_mem_cons.1 h
    obtain ⟨ys, hys⟩ := ih hxs
    exact ⟨y :: ys, .cons hy hys⟩

theorem Search.Sound.advance (h : q.Sound t root) {rest : List String} {manifest : Manifest}
    {children : List String} (hnext : q.unread = path :: rest)
    (hmanifest : t.HoldsManifest path manifest)
    (hchildren : List.Forall₂ (t.PointsTo path) manifest.submodels children) :
    (q.advance path manifest children rest).Sound t root := by
  have hrefers := refers_iff_mem hmanifest hchildren
  have hunread : ∀ p ∈ path :: rest, ReflTransGen t.Refers root p :=
    fun p hp => h.pending_reached p (mem_pending_of_mem_unread (hnext ▸ hp))
  obtain ⟨hreached, hrest⟩ := List.forall_mem_cons.1 hunread
  have hmet : ∀ p, p ∈ q.paths ∨ p ∈ q.pending →
      p ∈ q.paths ++ [path] ∨ p ∈ children.reverse ++ rest := by
    intro p hp
    have hp : p ∈ q.paths ∨ p ∈ path :: rest := by
      rw [← hnext]
      exact hp.elim .inl mem_paths_or_mem_unread
    simp only [List.mem_append, List.mem_cons, List.not_mem_nil, or_false] at hp ⊢
    tauto
  have hlinked : ∀ p child, Linked (q.advance path manifest children rest).links p child ↔
      Linked q.links p child ∨ p = path ∧ child ∈ children := by
    intro p child
    simp [Linked, Search.advance, and_comm, eq_comm]
  constructor
  case pending_reached =>
    intro p hp
    rcases List.mem_append.1 hp with hchild | hp
    · exact hreached.tail ((hrefers p).2 (List.mem_reverse.1 hchild))
    · exact hrest p hp
  case library_reached =>
    exact List.forall_mem_append.2 ⟨h.library_reached, by simpa using hreached⟩
  case library_holds =>
    exact List.forall_mem_append.2 ⟨h.library_holds, by simpa using hmanifest⟩
  case nodup =>
    rw [q.paths_advance]
    refine List.nodup_append.2 ⟨h.nodup, List.nodup_singleton path, fun p hp p' hp' heq => ?_⟩
    rw [heq, List.mem_singleton.1 hp'] at hp
    exact notMem_paths_of_unread hnext hp
  case linked_iff =>
    intro p child
    rw [hlinked, h.linked_iff, q.paths_advance, List.mem_append, List.mem_singleton, or_and_right]
    refine or_congr_right (and_congr_right fun hp => ?_)
    rw [hp, hrefers]
  case root_met =>
    rw [q.paths_advance]
    exact hmet root h.root_met
  case linked_met =>
    intro p child hlink
    rw [q.paths_advance]
    rcases (hlinked p child).1 hlink with hlink | ⟨-, hchild⟩
    · exact hmet child (h.linked_met p child hlink)
    · exact .inr (List.mem_append_left _ (List.mem_reverse.2 hchild))

theorem Search.Sound.finish (h : q.Sound t root) (hnext : q.unread = []) :
    Search.Sound t root ⟨[], q.library, q.links⟩ := by
  have hread : ∀ path, path ∈ q.paths ∨ path ∈ q.pending → path ∈ q.paths := by
    intro path hpath
    exact hpath.elim id fun hpath => (mem_paths_or_mem_unread hpath).resolve_right (by simp [hnext])
  exact {
    pending_reached := by simp
    library_reached := h.library_reached
    library_holds := h.library_holds
    nodup := h.nodup
    linked_iff := h.linked_iff
    root_met := .inl (hread root h.root_met)
    linked_met := fun path child hlink => .inl (hread child (h.linked_met path child hlink)) }

theorem Search.Sound.mem_paths_iff (h : q.Sound t root) (hdone : q.pending = []) (path : String) :
    path ∈ q.paths ↔ ReflTransGen t.Refers root path := by
  constructor
  · intro hpath
    obtain ⟨e, he, rfl⟩ := List.mem_map.1 hpath
    exact h.library_reached e he
  · intro hreached
    have hmet : ∀ {p : String}, p ∈ q.paths ∨ p ∈ q.pending → p ∈ q.paths :=
      fun hp => hp.resolve_right (by simp [hdone])
    induction hreached with
    | refl => exact hmet h.root_met
    | tail _ hrefers ih => exact hmet (h.linked_met _ _ ((h.linked_iff _ _).2 ⟨ih, hrefers⟩))

theorem Search.Sound.length_le (h : q.Sound t root) (hroot : root ∈ t.places) :
    q.library.length ≤ t.places.length := by
  have hsub : q.paths ⊆ t.places := by
    intro path hpath
    obtain ⟨e, he, rfl⟩ := List.mem_map.1 hpath
    exact FileTree.mem_places_of_reached hroot (h.library_reached e he)
  have hle := (List.subperm_of_subset h.nodup hsub).length_le
  rwa [Search.paths, List.length_map] at hle

/-- In a finite tree a search ends, whatever its bound is from some number on. -/
theorem answers_collect {σ : Type} [FileAccess (StateM σ)] {s : σ} (h : t.Stands s)
    (hcomplete : t.Complete root) (hroot : root ∈ t.places) (n : Nat) (hq : q.Sound t root)
    (hn : t.places.length < n + q.library.length) :
    ∃ found : Search, found.Sound t root ∧ found.pending = [] ∧
      ∀ m, n ≤ m → Answers (collect m q) s (.ok found) := by
  induction n generalizing q with
  | zero =>
    have hle := hq.length_le hroot
    omega
  | succ n ih =>
    cases hnext : q.unread with
    | nil =>
      refine ⟨⟨[], q.library, q.links⟩, hq.finish hnext, rfl, fun m hm => ?_⟩
      obtain ⟨m, rfl⟩ := Nat.exists_eq_add_of_le' (Nat.one_le_of_lt hm)
      rw [collect, hnext]
      exact answers_ok _
    | cons path rest =>
      have hmem : path ∈ q.pending :=
        Search.mem_pending_of_mem_unread (hnext ▸ List.mem_cons_self)
      obtain ⟨manifest, hmanifest, hentries⟩ := hcomplete path (hq.pending_reached path hmem)
      have hchildren := settles_mapM (n := 0) fun entry (_ : entry ∈ manifest.submodels) =>
        settles_childPath h path entry
      obtain ⟨children, hpoints⟩ : ∃ children,
          List.Forall₂ (t.PointsTo path) manifest.submodels children := exists_forall₂ hentries
      obtain ⟨found, hfound, hend, hanswers⟩ := ih
        (hq.advance hnext hmanifest hpoints) (by simp [Search.advance]; omega)
      refine ⟨found, hfound, hend, fun m hm => ?_⟩
      obtain ⟨m, rfl⟩ := Nat.exists_eq_add_of_le' (Nat.one_le_of_lt hm)
      rw [collect, hnext]
      refine (answers_read h hmanifest).bind_ok ?_
      exact (hchildren.answers hpoints (Nat.zero_le 0)).bind_ok (hanswers m (by omega))

theorem Search.Sound.exists_cycle_iff (h : q.Sound t root) (hdone : q.pending = []) :
    (∃ path, TransGen (Linked q.links) path path) ↔
      ∃ path, ReflTransGen t.Refers root path ∧ TransGen t.Refers path path := by
  have hlinked : ∀ {path child : String}, Linked q.links path child ↔
      ReflTransGen t.Refers root path ∧ t.Refers path child := by
    intro path child
    rw [h.linked_iff, h.mem_paths_iff hdone]
  constructor
  · rintro ⟨path, hcycle⟩
    obtain ⟨child, hlink, -⟩ := TransGen.head'_iff.1 hcycle
    exact ⟨path, (hlinked.1 hlink).1,
      TransGen.mono (fun _ _ hlink => (hlinked.1 hlink).2) _ _ hcycle⟩
  · rintro ⟨path, hreached, hcycle⟩
    have hway : ∀ {path' : String}, TransGen t.Refers path path' →
        TransGen (Linked q.links) path path' := by
      intro path' hway
      induction hway with
      | single hrefers => exact .single (hlinked.2 ⟨hreached, hrefers⟩)
      | tail hpart hrefers ih =>
        exact ih.tail (hlinked.2 ⟨hreached.trans hpart.to_reflTransGen, hrefers⟩)
    exact ⟨path, hway hcycle⟩

/-- Without cycles, defining a model ends: the models above it are distinct ones of the library, so
that there are not more of them than the bound leaves room for. -/
theorem settles_define {σ : Type} [FileAccess (StateM σ)] {s : σ} (h : t.Stands s)
    (hq : q.Sound t root) (hdone : q.pending = [])
    (hacyclic : ¬∃ path, ReflTransGen t.Refers root path ∧ TransGen t.Refers path path) (n : Nat)
    (above : List String) (hreached : ReflTransGen t.Refers root path)
    (habove : ∀ p ∈ above, p ∈ q.paths ∧ TransGen t.Refers p path) (hnodup : above.Nodup)
    (hn : q.library.length < n + above.length) :
    Settles n (fun m => define q.library m path) s (BuiltFrom t path) := by
  induction n generalizing above path with
  | zero =>
    have hle := (List.subperm_of_subset hnodup fun p hp => (habove p hp).1).length_le
    rw [Search.paths, List.length_map] at hle
    omega
  | succ n ih =>
    have hpath := (hq.mem_paths_iff hdone path).2 hreached
    obtain ⟨manifest, hlibrary⟩ := Option.isSome_iff_exists.1 (get?_isSome_iff.2 hpath)
    have hbelow : ∀ child, t.Refers path child →
        Settles n (fun m => define q.library m child) s (BuiltFrom t child) := by
      intro child hrefers
      refine ih (path :: above) (hreached.tail hrefers) ?_ ?_ ?_
      · refine List.forall_mem_cons.2 ⟨⟨hpath, .single hrefers⟩, fun p hp => ?_⟩
        exact ⟨(habove p hp).1, (habove p hp).2.tail hrefers⟩
      · exact List.nodup_cons.2 ⟨fun hp => hacyclic ⟨path, hreached, (habove path hp).2⟩, hnodup⟩
      · rw [List.length_cons]
        omega
    obtain ⟨r, hanswers, hr⟩ := settles_defineOver h hlibrary
      (hq.library_holds _ (mem_of_get? hlibrary)) hbelow
    refine ⟨r, fun m hm => ?_, hr⟩
    obtain ⟨m, rfl⟩ := Nat.exists_eq_add_of_le' (Nat.one_le_of_lt hm)
    exact hanswers m (by omega)

end Search

theorem answers_load {σ : Type} [FileAccess (StateM σ)] {t : FileTree} {s : σ} (h : t.Stands s)
    {root : String} (hpath : t.canonical path = .ok root) {found : Search}
    (hcollect : ∀ n, t.places.length < n →
      Answers (collect n { pending := [root] }) s (.ok found)) {r : Except Error Definition}
    (hr : Answers (if isCyclic found.links then throw (.definition .cycle)
      else define found.library (found.library.length + 1) root) s r) :
    Answers (load path) s r := by
  have hcanonical := answers_on path (h.canonical path)
  rw [hpath] at hcanonical
  obtain ⟨n, hn, hbound⟩ := h.fileBound
  refine hcanonical.bind_ok ((answers_lift hbound).bind_ok
    ((hcollect (n + 1) (by omega)).bind_ok ?_))
  split_ifs at hr ⊢ <;> exact hr

/-- A manifest whose sub-models' manifests all exist and can be read is loaded in finitely many
steps: from some number on the bounds on the search and on the depth of the definitions do not
count. The search ends with the manifests that can be reached, each once. Loading fails because of a
cycle exactly if one of them can reach itself. Otherwise it never misses a manifest, and it returns
the definition that is built from the manifest at the root, in which each sub-model is built from
the manifest its entry points to, if there is one. -/
theorem load_finds_cycles {σ : Type} [FileAccess (StateM σ)] {t : FileTree} {s : σ}
    (h : t.Stands s) (path : String) {root : String} (hpath : t.canonical path = .ok root)
    (hcomplete : t.Complete root) :
    ∃ found : Search, found.pending = [] ∧
      (∀ n, t.places.length < n → Answers (collect n { pending := [root] }) s (.ok found)) ∧
      (found.library.map (·.1)).Nodup ∧
      (∀ p, p ∈ found.library.map (·.1) ↔ ReflTransGen t.Refers root p) ∧
      ∃ r, Answers (load path) s r ∧
        (r = .error (.definition .cycle) ↔
          ∃ p, ReflTransGen t.Refers root p ∧ TransGen t.Refers p p) ∧
        ((¬∃ p, ReflTransGen t.Refers root p ∧ TransGen t.Refers p p) →
          (∀ n, found.library.length < n → Answers (define found.library n root) s r) ∧
          (∀ p, r ≠ .error (.definition (.unresolved p))) ∧
          ∀ d, r = .ok d ↔ BuiltFrom t root d) := by
  have hroot := t.canonical_mem hpath
  obtain ⟨found, hfound, hdone, hcollect⟩ := answers_collect h hcomplete hroot
    (t.places.length + 1) (sound_start t root) (Nat.lt_succ_self _)
  refine ⟨found, hdone, hcollect, hfound.nodup, hfound.mem_paths_iff hdone, ?_⟩
  have hcyclic := (isCyclic_iff found.links).trans (hfound.exists_cycle_iff hdone)
  by_cases hcycle : ∃ p, ReflTransGen t.Refers root p ∧ TransGen t.Refers p p
  · refine ⟨_, answers_load h hpath hcollect ?_, iff_of_true rfl hcycle,
      fun hacyclic => absurd hcycle hacyclic⟩
    rw [if_pos (hcyclic.2 hcycle)]
    exact answers_error _
  · obtain ⟨r, hanswers, hok, herror⟩ := settles_define h hfound hdone hcycle
      (found.library.length + 1) [] .refl (by simp) List.nodup_nil (by simp)
    refine ⟨r, answers_load h hpath hcollect ?_, iff_of_false ?_ hcycle,
      fun _ => ⟨hanswers, ?_, hok⟩⟩
    · rw [if_neg fun hyes => hcycle (hcyclic.1 hyes)]
      exact hanswers _ le_rfl
    · exact fun hr => herror _ hr (.inl rfl)
    · exact fun p hr => herror _ hr (.inr ⟨p, rfl⟩)

section Example

theorem complete_of_closed {t : FileTree} {root : String} (paths : List String)
    (hroot : root ∈ paths)
    (h : ∀ path ∈ paths, ∃ manifest, t.HoldsManifest path manifest ∧
      ∀ entry ∈ manifest.submodels, ∃ child ∈ paths, t.PointsTo path entry child) :
    t.Complete root := by
  intro path hreached
  have hpath : path ∈ paths := by
    induction hreached with
    | refl => exact hroot
    | tail _ hrefers ih =>
      obtain ⟨manifest, hmanifest, entry, hentry, hpoints⟩ := hrefers
      obtain ⟨manifest', hmanifest', hentries⟩ := h _ ih
      obtain rfl := hmanifest.unique hmanifest'
      obtain ⟨child, hchild, hpoints'⟩ := hentries entry hentry
      rwa [hpoints.unique hpoints']
  obtain ⟨manifest, hmanifest, hentries⟩ := h path hpath
  exact ⟨manifest, hmanifest, fun entry hentry => (hentries entry hentry).imp fun _ => And.right⟩

theorem holdsManifest_of_text {t : FileTree} {path : String} (text : String) {manifest : Manifest}
    (hcontent : t.content path = .ok text.toUTF8) (h : ofText? text = some manifest) :
    t.HoldsManifest path manifest :=
  ⟨text, ⟨_, hcontent, dif_pos text.isValidUTF8⟩, h⟩

def basinText : String :=
  "name='basin'\nsubmodels=[\x7bname='north',manifest='slope.toml'\x7d," ++
    "\x7bname='south',manifest='./slope.toml'\x7d]"

def slopeText : String := "name='slope'\nsubmodels=[\x7bname='soil',manifest='soil.toml'\x7d]"

def soilText : String := "name='soil'"

def strangeText : String := "name='soil'\nsubmodels=[\x7bname='top',manifest='slope.toml'\x7d]"

def hills (text : String) : Disk := {
  entries := [
    (["m"], .dir 0), (["m", "basin.toml"], .file basinText.toUTF8 1),
    (["m", "slope.toml"], .file slopeText.toUTF8 1), (["m", "soil.toml"], .file text.toUTF8 1)]
  cwd := ["m"] }

def basinManifest : Manifest := {
  name := "basin", submodels := [⟨"north", "slope.toml"⟩, ⟨"south", "./slope.toml"⟩] }

def slopeManifest : Manifest := { name := "slope", submodels := [⟨"soil", "soil.toml"⟩] }

theorem hills_basin (text : String) :
    (hills text).tree.HoldsManifest "/m/basin.toml" basinManifest :=
  holdsManifest_of_text basinText rfl (by decide +kernel)

theorem hills_slope (text : String) :
    (hills text).tree.HoldsManifest "/m/slope.toml" slopeManifest :=
  holdsManifest_of_text slopeText rfl (by decide +kernel)

theorem hills_complete {text : String} {manifest : Manifest} (h : ofText? text = some manifest)
    (hentries : ∀ entry ∈ manifest.submodels,
      (hills text).tree.PointsTo "/m/soil.toml" entry "/m/slope.toml") :
    (hills text).tree.Complete "/m/basin.toml" := by
  refine complete_of_closed ["/m/basin.toml", "/m/slope.toml", "/m/soil.toml"]
    List.mem_cons_self fun path hpath => ?_
  simp only [List.mem_cons, List.not_mem_nil, or_false] at hpath
  rcases hpath with rfl | rfl | rfl
  · refine ⟨basinManifest, hills_basin text, ?_⟩
    intro entry hentry
    refine ⟨"/m/slope.toml", by simp, ?_⟩
    simp only [basinManifest, List.mem_cons, List.not_mem_nil, or_false] at hentry
    rcases hentry with rfl | rfl <;> rfl
  · refine ⟨slopeManifest, hills_slope text, ?_⟩
    intro entry hentry
    obtain rfl := List.mem_singleton.1 hentry
    exact ⟨"/m/soil.toml", by simp, rfl⟩
  · exact ⟨manifest, holdsManifest_of_text text rfl h, fun entry hentry =>
      ⟨"/m/slope.toml", by simp, hentries entry hentry⟩⟩

/-- A manifest may be shared, and a cycle is found that does not lead through the root. -/
theorem hills_loaded :
    (∃ d, Answers (load "basin.toml") (hills soilText) (.ok d) ∧
      BuiltFrom (hills soilText).tree "/m/basin.toml" d) ∧
    Answers (load "basin.toml") (hills strangeText) (.error (.definition .cycle)) := by
  constructor
  · have hsoil : ofText? soilText = some { name := "soil" } := by decide +kernel
    obtain ⟨_, -, -, -, -, r, hanswers, hcycle, hbuilt⟩ := load_finds_cycles
      (hills soilText).tree_stands "basin.toml" rfl (hills_complete hsoil (by simp))
    have hrun : ((load "basin.toml" : ExceptT Error (StateM Disk) Definition).run.run
        (hills soilText)).1.toOption.isSome = true := by decide +kernel
    rw [hanswers.run_eq] at hrun
    obtain ⟨d, hd⟩ := Option.isSome_iff_exists.1 hrun
    obtain rfl := toOption_eq_some hd
    have hacyclic := hcycle.not.1 (by simp)
    exact ⟨d, hanswers, ((hbuilt hacyclic).2.2 d).1 rfl⟩
  · have hsoil : ofText? strangeText =
        some { name := "soil", submodels := [⟨"top", "slope.toml"⟩] } := by decide +kernel
    have hslope : (hills strangeText).tree.PointsTo "/m/soil.toml" ⟨"top", "slope.toml"⟩
        "/m/slope.toml" := rfl
    obtain ⟨_, -, -, -, -, r, hanswers, hcycle, -⟩ := load_finds_cycles
      (hills strangeText).tree_stands "basin.toml" rfl
      (hills_complete hsoil (by simpa using hslope))
    have hdown : (hills strangeText).tree.Refers "/m/slope.toml" "/m/soil.toml" :=
      ⟨slopeManifest, hills_slope _, _, List.mem_cons_self, rfl⟩
    have hup : (hills strangeText).tree.Refers "/m/soil.toml" "/m/slope.toml" :=
      ⟨_, holdsManifest_of_text strangeText rfl hsoil, _, List.mem_cons_self, hslope⟩
    have hroot : (hills strangeText).tree.Refers "/m/basin.toml" "/m/slope.toml" :=
      ⟨basinManifest, hills_basin _, _, List.mem_cons_self, rfl⟩
    rw [hcycle.2 ⟨"/m/slope.toml", .single hroot, .tail (.single hdown) hup⟩] at hanswers
    exact hanswers

end Example

end ProcessModel.Manifest
