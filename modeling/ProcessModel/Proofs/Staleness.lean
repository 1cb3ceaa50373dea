import ProcessModel.Build
import ProcessModel.Proofs.FileTrees

/-! When a unit is stale.

The files that contribute to a unit are gathered by one list that is threaded through the tree. That
list is the depth-first listing of the files without repetitions. -/

namespace ProcessModel

namespace Path

variable {path : String}

theorem same_eq_true {path' : String} :
    same path path' = true ↔ components path = components path' := beq_iff_eq

theorem same_comm (path path' : String) : same path path' = same path' path := by
  rw [Bool.eq_iff_iff, same_eq_true, same_eq_true, eq_comm]

theorem foldl_insertNew (new paths : List String) :
    new.foldl insertNew paths =
      paths ++ (new.filter fun p => !paths.any fun q => same q p).eraseDupsBy same := by
  induction new generalizing paths with
  | nil => simp
  | cons p new ih =>
    rw [List.foldl_cons, ih]
    by_cases hp : (paths.any fun q => same q p) = true
    · rw [insertNew, if_pos hp, List.filter_cons_of_neg (by simp [hp])]
    · rw [insertNew, if_neg hp, List.filter_cons_of_pos (by simpa using hp),
        List.eraseDupsBy_cons, List.filter_filter, List.append_assoc, List.singleton_append]
      have hnew : ∀ q, (!(paths ++ [p]).any fun x => same x q) =
          (decide (same q p = false) && !paths.any fun x => same x q) := by
        intro q
        simp [same_comm p q, Bool.and_comm]
      simp only [hnew]

variable {paths : List String}

theorem pairwise_insertNew (path : String) (h : paths.Pairwise fun p q => same p q = false) :
    (insertNew paths path).Pairwise fun p q => same p q = false := by
  unfold insertNew
  split_ifs with hpath
  · exact h
  · refine List.pairwise_append.2 ⟨h, List.pairwise_singleton _ _, fun p hp q hq => ?_⟩
    obtain rfl := List.mem_singleton.1 hq
    simpa using fun hsame => hpath (List.any_eq_true.2 ⟨p, hp, hsame⟩)

theorem pairwise_foldl_insertNew (new : List String)
    (h : paths.Pairwise fun p q => same p q = false) :
    (new.foldl insertNew paths).Pairwise fun p q => same p q = false := by
  induction new generalizing paths with
  | nil => exact h
  | cons p new ih => exact ih (pairwise_insertNew p h)

variable {p : String}

theorem mem_of_mem_insertNew (h : p ∈ insertNew paths path) : p ∈ paths ∨ p = path := by
  unfold insertNew at h
  split_ifs at h
  · exact .inl h
  · exact (List.mem_append.1 h).imp_right List.mem_singleton.1

theorem mem_insertNew_of_mem (path : String) (h : p ∈ paths) : p ∈ insertNew paths path := by
  unfold insertNew
  split_ifs
  · exact h
  · exact List.mem_append_left _ h

theorem exists_same_mem_insertNew (paths : List String) (path : String) :
    ∃ p ∈ insertNew paths path, same p path = true := by
  unfold insertNew
  split_ifs with hpath
  · exact List.any_eq_true.1 hpath
  · exact ⟨path, List.mem_append_right _ List.mem_cons_self, same_eq_true.2 rfl⟩

theorem mem_of_mem_foldl_insertNew {new : List String} (h : p ∈ new.foldl insertNew paths) :
    p ∈ paths ∨ p ∈ new := by
  induction new generalizing paths with
  | nil => exact .inl h
  | cons path new ih =>
    rcases ih h with h | h
    · exact (mem_of_mem_insertNew h).imp_right fun hp => List.mem_cons.2 (.inl hp)
    · exact .inr (List.mem_cons_of_mem _ h)

theorem mem_foldl_insertNew_of_mem (new : List String) (h : p ∈ paths) :
    p ∈ new.foldl insertNew paths := by
  induction new generalizing paths with
  | nil => exact h
  | cons path new ih => exact ih (mem_insertNew_of_mem path h)

theorem exists_same_mem_foldl_insertNew {new : List String} (paths : List String) (h : path ∈ new) :
    ∃ p ∈ new.foldl insertNew paths, same p path = true := by
  induction new generalizing paths with
  | nil => cases h
  | cons first new ih =>
    rcases List.mem_cons.1 h with rfl | h
    · obtain ⟨p, hp, hsame⟩ := exists_same_mem_insertNew paths path
      exact ⟨p, mem_foldl_insertNew_of_mem new hp, hsame⟩
    · exact ih _ h

end Path

namespace Definition

/-- A model, or a sub-model at any depth below it. -/
inductive Holds : Definition → Definition → Prop
  | self (d : Definition) : Holds d d
  | submodel {d part : Definition} {e : String × Definition} (he : e ∈ d.submodels)
      (h : Holds e.2 part) : Holds d part

def ownFiles (d : Definition) : List String := d.manifest.toList ++ d.sources.map (·.path)

mutual

/-- The depth-first listing of the files of a tree: those of the model, then those of its
sub-models. -/
def listing : Definition → List String
  | ⟨_, manifest, sources, _, _, _, _, submodels⟩ =>
    manifest.toList ++ sources.map (·.path) ++ listingAll submodels

def listingAll : List (String × Definition) → List String
  | [] => []
  | (_, d) :: rest => listing d ++ listingAll rest

end

theorem listing_eq (d : Definition) : d.listing = d.ownFiles ++ listingAll d.submodels := by
  cases d
  rw [listing, ownFiles]

theorem listingAll_eq (subs : List (String × Definition)) :
    listingAll subs = subs.flatMap fun e => e.2.listing := by
  induction subs with
  | nil => rw [listingAll, List.flatMap_nil]
  | cons e subs ih => rw [listingAll, ih, List.flatMap_cons]

mutual

theorem collectPaths_eq (d : Definition) (paths : List String) :
    d.collectPaths true paths = d.listing.foldl Path.insertNew paths := by
  match d with
  | ⟨_, manifest, sources, _, _, _, _, submodels⟩ =>
    rw [collectPaths, collectPathsAll_eq, if_pos rfl, ← List.foldl_append, listing]

theorem collectPathsAll_eq (subs : List (String × Definition)) (paths : List String) :
    collectPathsAll true subs paths = (listingAll subs).foldl Path.insertNew paths := by
  match subs with
  | [] => rw [collectPathsAll, listingAll, List.foldl_nil]
  | (_, d) :: rest =>
    rw [collectPathsAll, listingAll, List.foldl_append, collectPaths_eq, collectPathsAll_eq]

end

variable {d : Definition} {path : String}

theorem mem_listing_of_holds {part : Definition} (h : d.Holds part) (hpath : path ∈ part.ownFiles) :
    path ∈ d.listing := by
  induction h with
  | self d =>
    rw [listing_eq]
    exact List.mem_append_left _ hpath
  | submodel he _ ih =>
    rw [listing_eq, listingAll_eq]
    exact List.mem_append_right _ (List.mem_flatMap.2 ⟨_, he, ih hpath⟩)

mutual

theorem exists_holds_of_mem_listing {d : Definition} {path : String} (h : path ∈ d.listing) :
    ∃ part, d.Holds part ∧ path ∈ part.ownFiles := by
  match d with
  | ⟨name, manifest, sources, groups, methods, references, aliases, submodels⟩ =>
    rw [listing] at h
    rcases List.mem_append.1 h with hown | hbelow
    · exact ⟨_, .self _, hown⟩
    · obtain ⟨e, he, part, hpart, hpath⟩ := exists_holds_of_mem_listingAll hbelow
      exact ⟨part, .submodel he hpart, hpath⟩

theorem exists_holds_of_mem_listingAll {subs : List (String × Definition)} {path : String}
    (h : path ∈ listingAll subs) :
    ∃ e ∈ subs, ∃ part, e.2.Holds part ∧ path ∈ part.ownFiles := by
  match subs with
  | [] => simp [listingAll] at h
  | (name, d) :: rest =>
    rw [listingAll] at h
    rcases List.mem_append.1 h with hhere | hrest
    · exact ⟨(name, d), List.mem_cons_self, exists_holds_of_mem_listing hhere⟩
    · obtain ⟨e, he, hpart⟩ := exists_holds_of_mem_listingAll hrest
      exact ⟨e, List.mem_cons_of_mem _ he, hpart⟩

end

theorem contributors_eq (d : Definition) : d.contributors = d.listing.eraseDupsBy Path.same := by
  rw [contributors, collectPaths_eq, Path.foldl_insertNew, List.nil_append]
  simp

theorem pairwise_contributors (d : Definition) :
    d.contributors.Pairwise fun p q => Path.same p q = false := by
  rw [contributors, collectPaths_eq]
  exact Path.pairwise_foldl_insertNew _ List.Pairwise.nil

theorem mem_listing_of_mem_contributors (h : path ∈ d.contributors) : path ∈ d.listing := by
  rw [contributors, collectPaths_eq] at h
  exact (Path.mem_of_mem_foldl_insertNew h).resolve_left List.not_mem_nil

theorem exists_same_mem_contributors (h : path ∈ d.listing) :
    ∃ p ∈ d.contributors, Path.same p path = true := by
  rw [contributors, collectPaths_eq]
  exact Path.exists_same_mem_foldl_insertNew [] h

end Definition

/-- Whether a file is there and changed after a time. -/
def FileTree.Newer (t : FileTree) (time : Nat) (path : String) : Prop :=
  ∃ file, t.stat path = .ok file ∧ time < file.modified

namespace FileTree

/-- Where all contributors are there, one is newer exactly if a file of the tree is. -/
theorem exists_newer_contributor_iff (t : FileTree) (time : Nat) {d : Definition}
    (hexist : ∀ path ∈ d.contributors, ∃ file, t.stat path = .ok file) :
    (∃ path ∈ d.contributors, t.Newer time path) ↔
      ∃ part, d.Holds part ∧ ∃ path ∈ part.ownFiles, t.Newer time path := by
  constructor
  · rintro ⟨path, hpath, hnewer⟩
    obtain ⟨part, hpart, hown⟩ :=
      Definition.exists_holds_of_mem_listing (Definition.mem_listing_of_mem_contributors hpath)
    exact ⟨part, hpart, path, hown, hnewer⟩
  · rintro ⟨part, hpart, path, hown, file, hfile, htime⟩
    obtain ⟨p, hp, hsame⟩ :=
      Definition.exists_same_mem_contributors (Definition.mem_listing_of_holds hpart hown)
    -- another text of the path may be the one that was kept; it leads to the same file
    obtain ⟨file', hfile'⟩ := hexist p hp
    obtain rfl := t.stat_same hsame hfile' hfile
    exact ⟨p, hp, file', hfile', htime⟩

end FileTree

namespace Build

section

variable {σ : Type} [FileAccess (StateM σ)] {t : FileTree} {s : σ}

theorem answers_anyNewer (h : t.Stands s) (time : Nat) {paths : List String}
    (hexist : ∀ path ∈ paths, ∃ file, t.stat path = .ok file) :
    ∃ newer, Answers (anyNewer time paths) s (.ok newer) ∧
      (newer = true ↔ ∃ path ∈ paths, t.Newer time path) := by
  induction paths with
  | nil => exact ⟨false, answers_ok false, by simp⟩
  | cons path paths ih =>
    obtain ⟨⟨file, hfile⟩, hrest⟩ := List.forall_mem_cons.1 hexist
    have hstat := answers_on path (h.stat path)
    rw [hfile] at hstat
    by_cases htime : time < file.modified
    · refine ⟨true, hstat.bind_ok ?_, ?_⟩
      · rw [if_pos htime]
        exact answers_ok true
      · exact iff_of_true rfl ⟨path, List.mem_cons_self, file, hfile, htime⟩
    · obtain ⟨newer, hanswer, hiff⟩ := ih hrest
      refine ⟨newer, hstat.bind_ok ?_, ?_⟩
      · rw [if_neg htime]
        exact hanswer
      · have hpath : ¬t.Newer time path := by
          rintro ⟨file', hfile', htime'⟩
          obtain rfl := Except.ok.inj (hfile.symm.trans hfile')
          exact htime htime'
        rw [hiff, List.exists_mem_cons_iff, or_iff_right hpath]

theorem answers_isStale_of_missing (h : t.Stands s) {c : Config} {d : Definition}
    (hunit : t.stat (unitPath c d) = .error .notFound) : Answers (isStale c d) s (.ok true) := by
  refine (answers_lift (h.stat _)).bind_ok ?_
  rw [hunit]
  exact answers_ok true

theorem answers_isStale_of_found (h : t.Stands s) {c : Config} {d : Definition} {unit : FileStat}
    {r : Except Error Bool} (hunit : t.stat (unitPath c d) = .ok unit)
    (hnewer : Answers (anyNewer unit.modified d.contributors) s r) : Answers (isStale c d) s r := by
  refine (answers_lift (h.stat _)).bind_ok ?_
  rw [hunit]
  exact hnewer

end

/-- A unit that is missing is stale. One that is there is stale exactly if the manifest or a source
of the model or of a sub-model at any depth changed after it, as long as the contributors are there.
They are the depth-first listing of those files, without repetitions and in its order. -/
theorem isStale_iff_file_newer {σ : Type} [FileAccess (StateM σ)] {t : FileTree} {s : σ}
    (h : t.Stands s) (c : Config) (d : Definition) :
    (t.stat (unitPath c d) = .error .notFound → Answers (isStale c d) s (.ok true)) ∧
    (∀ unit, t.stat (unitPath c d) = .ok unit →
      (∀ path ∈ d.contributors, ∃ file, t.stat path = .ok file) →
      ∃ stale, Answers (isStale c d) s (.ok stale) ∧
        (stale = true ↔
          ∃ part, d.Holds part ∧ ∃ path ∈ part.ownFiles, t.Newer unit.modified path)) ∧
    d.contributors.Pairwise (fun p q => Path.same p q = false) ∧
    d.contributors = d.listing.eraseDupsBy Path.same := by
  refine ⟨answers_isStale_of_missing h, fun unit hunit hexist => ?_, d.pairwise_contributors,
    d.contributors_eq⟩
  obtain ⟨stale, hanswer, hiff⟩ := answers_anyNewer h unit.modified hexist
  exact ⟨stale, answers_isStale_of_found h hunit hanswer,
    hiff.trans (t.exists_newer_contributor_iff _ hexist)⟩

section Example

def bed : Definition := {
  name := "bed", manifest := some "/m/bed.toml"
  sources := [⟨"/m/flow.src", ""⟩, ⟨"/m/bed.src", ""⟩] }

def river : Definition := {
  name := "river", manifest := some "/m/river.toml", sources := [⟨"/m/flow.src", ""⟩]
  submodels := [("bed", bed)] }

def lake : Definition := {
  name := "lake", manifest := some "/m/lake.toml", sources := [⟨"/m/./flow.src", ""⟩]
  submodels := [("inflow", river), ("outflow", river)] }

def shore : Disk := {
  entries := [
    (["m"], .dir 0), (["m", "lake.toml"], .file .empty 1), (["m", "river.toml"], .file .empty 1),
    (["m", "bed.toml"], .file .empty 2), (["m", "flow.src"], .file .empty 3),
    (["m", "bed.src"], .file .empty 5), (["m", "autogen"], .dir 4),
    (["m", "autogen", "c_lake.c"], .file .empty 4)]
  cwd := ["m"] }

/-- A source two levels below the lake makes its unit stale. -/
theorem lake_stale_by_bed :
    Answers (isStale {} lake) shore (.ok true) ∧
    lake.contributors =
      ["/m/lake.toml", "/m/./flow.src", "/m/river.toml", "/m/bed.toml", "/m/bed.src"] := by
  obtain ⟨-, hfound, -, hcontributors⟩ := isStale_iff_file_newer shore.tree_stands {} lake
  refine ⟨?_, hcontributors.trans (by decide +kernel)⟩
  have hexist : ∀ path ∈ lake.contributors, (shore.tree.stat path).toOption.isSome = true := by
    decide +kernel
  obtain ⟨stale, hanswer, hiff⟩ := hfound ⟨false, 4⟩ (by decide +kernel) fun path hpath =>
    (Option.isSome_iff_exists.1 (hexist path hpath)).imp fun _ => toOption_eq_some
  have hbed : lake.Holds bed :=
    .submodel (e := ("inflow", river)) (by simp [lake])
      (.submodel (e := ("bed", bed)) (by simp [river]) (.self bed))
  have hstale : stale = true := hiff.2
    ⟨bed, hbed, "/m/bed.src", by simp [Definition.ownFiles, bed], ⟨false, 5⟩, by decide +kernel,
      by decide⟩
  rw [← hstale]
  exact hanswer

end Example

end Build

end ProcessModel
