import ProcessModel.Proofs.FileTrees
import ProcessModel.Proofs.Resolution

/-! Files that changes to others leave alone.

The file that a path names can be told from the names in the path, whatever directories exist. So
what is done under a path with another last name leaves that file as it is. -/

namespace ProcessModel

namespace Text

variable {sep c : Char} {part : List Char}

theorem splitAll_append (sep : Char) (as bs : List Char) :
    splitAll sep (as ++ sep :: bs) = splitAll sep as ++ splitAll sep bs := by
  induction as with
  | nil => simp [splitAll]
  | cons c as ih =>
    rw [List.cons_append, splitAll, splitAll, ih]
    split_ifs
    · rfl
    · cases hparts : splitAll sep as with
      | nil => exact absurd hparts (splitAll_ne_nil sep as)
      | cons first rest => rfl

theorem splitAll_append_part (h : sep ∉ part) (cs : List Char) :
    ∃ before last, splitAll sep cs = before ++ [last] ∧
      splitAll sep (cs ++ part) = before ++ [last ++ part] := by
  induction cs with
  | nil =>
    refine ⟨[], [], rfl, ?_⟩
    induction part with
    | nil => rfl
    | cons c part ih =>
      rw [List.mem_cons, not_or] at h
      rw [List.nil_append] at ih ⊢
      rw [splitAll, if_neg (Ne.symm h.1), ih h.2]
      rfl
  | cons c cs ih =>
    obtain ⟨before, last, hcs, hpart⟩ := ih
    rw [List.cons_append, splitAll, splitAll, hcs, hpart]
    split_ifs
    · exact ⟨[] :: before, last, rfl, rfl⟩
    · cases before with
      | nil => exact ⟨[], c :: last, rfl, rfl⟩
      | cons first before => exact ⟨(c :: first) :: before, last, rfl, rfl⟩

theorem splitAll_cons_part (hc : c ≠ sep) (cs : List Char) :
    ∃ before last before' last', splitAll sep cs = before ++ [last] ∧
      splitAll sep (c :: cs) = before' ++ [last'] ∧ last.length ≤ last'.length := by
  obtain ⟨before, last, hcs, -⟩ := splitAll_append_part (List.not_mem_nil (a := sep)) cs
  rw [splitAll, if_neg hc, hcs]
  cases before with
  | nil => exact ⟨[], last, [], c :: last, rfl, rfl, Nat.le_succ _⟩
  | cons first before =>
    exact ⟨first :: before, last, (c :: first) :: before, last, rfl, rfl, Nat.le_refl _⟩

end Text

namespace Path

def lastName (path : String) : String := ((Text.fields '/' path).getLast?).getD ""

theorem fields_eq (path : String) :
    Text.fields '/' path = (Text.fields '/' path).dropLast ++ [lastName path] := by
  have hne := Text.fields_ne_nil '/' path
  rw [lastName, List.getLast?_eq_some_getLast hne, Option.getD_some,
    List.dropLast_append_getLast hne]

variable {path : String}

theorem lastName_of_splitAll {before : List (List Char)} {last : List Char}
    (h : Text.splitAll '/' path.toList = before ++ [last]) :
    lastName path = String.ofList last := by
  simp [lastName, Text.fields, h]

theorem lastName_join (dir path : String) : lastName (join dir path) = lastName path := by
  have hbelow (front : List Char) {joined : String}
      (hjoined : joined.toList = front ++ '/' :: path.toList) : lastName joined = lastName path := by
    obtain ⟨before, last, hlast, -⟩ :=
      Text.splitAll_append_part (List.not_mem_nil (a := '/')) path.toList
    have hparts : Text.splitAll '/' joined.toList =
        (Text.splitAll '/' front ++ before) ++ [last] := by
      rw [hjoined, Text.splitAll_append, hlast, List.append_assoc]
    rw [lastName_of_splitAll hlast, lastName_of_splitAll hparts]
  unfold join
  split_ifs with hsame hslash
  · rfl
  · obtain ⟨front, hfront⟩ := List.getLast?_eq_some_iff.1 hslash
    exact hbelow front (by simp [hfront])
  · exact hbelow dir.toList (by simp)

theorem fileName?_of_lastName {name : String} (h : lastName path = name)
    (hidle : isIdle name = false) (hup : name ≠ "..") (hroot : name ≠ "/") :
    fileName? path = some name := by
  have hleading : ∃ front, leading path = front ++ [name] := by
    refine ⟨(Text.fields '/' path).dropLast.filter fun name => !isIdle name, ?_⟩
    rw [leading, fields_eq path, h, List.filter_append]
    simp [hidle]
  obtain ⟨front, hleading⟩ := hleading
  have hpoint : name ≠ "." := by
    rintro rfl
    cases hidle
  have hlast : (components path).getLast? = some name := by
    rw [components_eq, hleading]
    split_ifs
    · exact List.getLast?_concat (l := "/" :: front)
    · exact List.getLast?_concat (l := "." :: front)
    · exact List.getLast?_concat
  rw [fileName?, hlast]
  simp [hup, hroot, hpoint]

theorem lastName_length_add_le (file : String) :
    (lastName file).length + 4 ≤ (lastName ("." ++ file ++ ".tmp")).length := by
  obtain ⟨before, last, before', last', hfile, hpoint, hle⟩ :=
    Text.splitAll_cons_part (show '.' ≠ '/' by decide) file.toList
  obtain ⟨before'', last'', hlast, hending⟩ :=
    Text.splitAll_append_part (show '/' ∉ ".tmp".toList by decide) ('.' :: file.toList)
  obtain rfl : last'' = last' := by
    simpa using (List.append_inj' (hlast.symm.trans hpoint) rfl).2
  have htext : ("." ++ file ++ ".tmp").toList = '.' :: file.toList ++ ".tmp".toList := by simp
  rw [lastName_of_splitAll hfile, lastName_of_splitAll ((congrArg _ htext).trans hending)]
  simp only [String.length_ofList, List.length_append]
  exact Nat.add_le_add_right hle 4

def resolve (place : List String) : List String → List String
  | [] => place
  | name :: rest =>
    if isIdle name then resolve place rest
    else if name = ".." then resolve place.dropLast rest
    else resolve (place ++ [name]) rest

theorem resolve_append (place : List String) (names rest : List String) :
    resolve place (names ++ rest) = resolve (resolve place names) rest := by
  induction names generalizing place with
  | nil => rfl
  | cons name names ih =>
    rw [List.cons_append, resolve, resolve]
    split_ifs
    · exact ih _
    · exact ih _
    · exact ih _

/-- The place of the file that a path names, seen from a directory. A path that ends in a separator or
in points names none. -/
def named (cwd : List String) (path : String) : Option (List String) :=
  if isIdle (lastName path) || lastName path == ".." then none
  else some (resolve (if isAbsolute path then [] else cwd) (Text.fields '/' path).dropLast ++
    [lastName path])

theorem named_eq_some {cwd place : List String} :
    named cwd path = some place ↔ (isIdle (lastName path) = false ∧ lastName path ≠ "..") ∧
      place = resolve (if isAbsolute path then [] else cwd) (Text.fields '/' path).dropLast ++
        [lastName path] := by
  rw [named, Option.ite_none_left_eq_some, Option.some_inj, Bool.or_eq_true, not_or,
    Bool.not_eq_true, beq_iff_eq, eq_comm (a := place)]

theorem exists_named (cwd : List String) (h : 2 < (lastName path).length) :
    ∃ place, named cwd path = some place := by
  have hne : ∀ {name : String}, name.length ≤ 2 → lastName path ≠ name := by
    rintro _ hle rfl
    exact absurd h (Nat.not_lt.2 hle)
  refine ⟨_, named_eq_some.2 ⟨⟨?_, hne (by decide)⟩, rfl⟩⟩
  rw [isIdle, beq_eq_false_iff_ne.2 (hne (by decide)), beq_eq_false_iff_ne.2 (hne (by decide))]
  rfl

theorem named_ne {cwd place : List String} {a b : String} (h : lastName a ≠ lastName b)
    (hb : named cwd b = some place) : named cwd a ≠ some place := by
  intro ha
  obtain ⟨-, rfl⟩ := named_eq_some.1 ha
  obtain ⟨-, hb⟩ := named_eq_some.1 hb
  exact h (by simpa using (List.append_inj' hb rfl).2)

end Path

namespace Disk

variable {d d' d'' : Disk} {place q : List String} {path : String} {bytes : ByteArray}

theorem walk_eq_resolve {names : List String} (h : d.walk place names = .ok q) :
    q = Path.resolve place names := by
  induction names generalizing place with
  | nil =>
    cases h
    rfl
  | cons name names ih =>
    rw [walk] at h
    rw [Path.resolve]
    split at h
    · cases h
    · cases h
    · split_ifs at h ⊢
      · exact ih h
      · exact ih h
      · exact ih h

theorem named_of_placeOf (h : d.placeOf path = .ok place) :
    Path.named d.cwd path = some place := by
  obtain ⟨w, step, name, hw, hstep, hname, hseparated, -, rfl⟩ := placeOf_eq_ok h
  obtain ⟨hnames, hidle, hup⟩ := names_eq_of_lastStep hstep hname hseparated
  obtain ⟨hwalk, -, -, -⟩ := lastStep_eq_ok.1 hstep
  obtain rfl := anyWay_eq_ok (way_eq_ok hw)
  obtain ⟨hfront, hlast⟩ := List.append_inj' ((Path.fields_eq path).symm.trans hnames) rfl
  obtain rfl : Path.lastName path = name := by simpa using hlast
  exact Path.named_eq_some.2 ⟨⟨hidle, hup⟩, by rw [hfront, walk_eq_resolve hwalk]⟩

theorem eq_of_find {e : DiskEntry} (h : d.find path = .ok (q, e))
    (hnamed : Path.named d.cwd path = some place) : q = place := by
  obtain ⟨w, hw, h⟩ := bind_eq_ok h
  obtain ⟨hwalk, -⟩ := follow_eq_ok h
  obtain rfl := anyWay_eq_ok (way_eq_ok hw)
  obtain ⟨⟨hidle, hup⟩, rfl⟩ := Path.named_eq_some.1 hnamed
  rw [walk_eq_resolve hwalk, Path.fields_eq path, Path.resolve_append]
  simp [Path.resolve, hidle, hup]

/-! ### What changes to other files leave -/

def fileAt (d : Disk) (place : List String) : Option ByteArray :=
  match d.lookup? place with
  | some (.file bytes _) => some bytes
  | _ => none

theorem fileAt_eq_some :
    d.fileAt place = some bytes ↔ ∃ t, d.lookup? place = some (.file bytes t) := by
  unfold fileAt
  cases d.lookup? place with
  | none => simp
  | some e =>
    cases e with
    | dir t => simp
    | file content t => simp

theorem fileAt_congr (h : d'.lookup? place = d.lookup? place) : d'.fileAt place = d.fileAt place := by
  rw [fileAt, fileAt, h]

/-- The content of the file that a path names, also where the way to it is blocked. -/
def contentsAt (d : Disk) (path : String) : Option ByteArray :=
  (Path.named d.cwd path).bind d.fileAt

theorem contentsAt_of_placeOf (h : d.placeOf path = .ok place) :
    d.contentsAt path = d.fileAt place := by
  rw [contentsAt, named_of_placeOf h, Option.bind_some]

theorem Holds.contentsAt_eq (h : d.Holds path bytes) : d.contentsAt path = some bytes := by
  obtain ⟨place, t, hplace, hfile⟩ := h
  rw [contentsAt_of_placeOf hplace]
  exact fileAt_eq_some.2 ⟨t, hfile⟩

/-- Whether a disk has become another one without a change to the file that a path names. The way to
it stays open. -/
structure Retains (path : String) (d d' : Disk) : Prop extends KeepsDirs d d' where
  contents : d'.contentsAt path = d.contentsAt path

namespace Retains

theorem refl (path : String) (d : Disk) : Retains path d d := ⟨.refl d, rfl⟩

theorem trans (h : Retains path d d') (h' : Retains path d' d'') : Retains path d d'' :=
  ⟨h.toKeepsDirs.trans h'.toKeepsDirs, h'.contents.trans h.contents⟩

theorem of_fileAt (h : KeepsDirs d d')
    (hfile : ∀ p, Path.named d.cwd path = some p → d'.fileAt p = d.fileAt p) : Retains path d d' := by
  refine ⟨h, ?_⟩
  rw [contentsAt, contentsAt, h.cwd]
  cases hnamed : Path.named d.cwd path with
  | none => rfl
  | some p => exact hfile p hnamed

theorem holds (h : Retains path d d') (hholds : d.Holds path bytes) : d'.Holds path bytes := by
  have hcontents := h.contents.trans hholds.contentsAt_eq
  obtain ⟨place, -, hplace, -⟩ := hholds
  have hplace' := h.placeOf_eq_ok hplace
  rw [contentsAt_of_placeOf hplace'] at hcontents
  obtain ⟨t, hfile⟩ := fileAt_eq_some.1 hcontents
  exact ⟨place, t, hplace', hfile⟩

end Retains

theorem writeFile_retains {other : String} (h : d.writeFile other bytes = .ok d')
    (hother : Path.lastName other ≠ Path.lastName path) : Retains path d d' := by
  refine .of_fileAt (writeFile_sameDirs h).keepsDirs fun p hp => fileAt_congr ?_
  obtain ⟨place, hplace, -, rfl⟩ := writeFile_eq_ok h
  have hne : p ≠ place := by
    rintro rfl
    exact Path.named_ne hother hp (named_of_placeOf hplace)
  rw [lookup?_put _ _ (placeOf_ne_nil hplace), if_neg hne]
  rfl

theorem makeDir_eq_ok {w : Way} (h : d.makeDir w = .ok d') :
    ∃ place, place ≠ [] ∧ d.lookup? place = none ∧ d' = d.tick.put place (.dir d.tick.clock) := by
  obtain ⟨step, -, h⟩ := bind_eq_ok h
  cases hname : step.name? with
  | none =>
    rw [hname] at h
    cases h
  | some name =>
    rw [hname] at h
    obtain ⟨place, hplace, h⟩ := bind_eq_ok h
    unfold LastStep.place at hplace
    split_ifs at hplace
    cases hplace
    cases hfree : d.lookup? (step.dir ++ [name]) with
    | some e =>
      rw [hfree] at h
      cases h
    | none =>
      rw [hfree] at h
      cases h
      exact ⟨_, by simp, hfree, rfl⟩

theorem makeDir_retains {w : Way} (path : String) (h : d.makeDir w = .ok d') : Retains path d d' := by
  obtain ⟨place, hne, hfree, rfl⟩ := makeDir_eq_ok h
  have hlookup : ∀ p, (d.tick.put place (.dir d.tick.clock)).lookup? p =
      if p = place then some (.dir d.tick.clock) else d.lookup? p := lookup?_put d.tick _ hne
  refine .of_fileAt ⟨rfl, fun p t hdir => ?_⟩ fun p _ => ?_
  · rw [hlookup, if_neg, hdir]
    rintro rfl
    rw [hfree] at hdir
    cases hdir
  · unfold fileAt
    rw [hlookup]
    split_ifs with hp
    · rw [hp, hfree]
    · rfl

theorem ensureDir_retains (path : String) (d : Disk) (w : Way) : Retains path d (d.ensureDir w).1 := by
  unfold ensureDir
  cases hmade : d.makeDir w with
  | ok d' => exact makeDir_retains path hmade
  | error fault => exact .refl path d

theorem makeDirs_retains (path : String) (d : Disk) (start names : List String) :
    Retains path d (d.makeDirs start names).1 := by
  fun_induction makeDirs d start names with
  | case1 => exact .refl path _
  | case2 name rest w hmissing d' fault hparents ih =>
    rw [hparents] at ih
    exact ih
  | case3 name rest w hmissing d' hparents ih =>
    rw [hparents] at ih
    exact ih.trans (ensureDir_retains path d' w)
  | case4 name rest w hother => exact ensureDir_retains path _ w

theorem ne_nil_of_file {t : Nat} (h : d.lookup? place = some (.file bytes t)) : place ≠ [] := by
  rintro rfl
  cases h

theorem erase_keepsDirs {t : Nat} (h : d.lookup? place = some (.file bytes t)) :
    KeepsDirs d (d.erase place) := by
  refine ⟨rfl, fun p t' hdir => ?_⟩
  rw [lookup?_erase d (ne_nil_of_file h), if_neg, hdir]
  rintro rfl
  rw [h] at hdir
  cases hdir

theorem removeFile_eq_ok (h : d.removeFile path = .ok d') :
    ∃ place bytes t, d.find path = .ok (place, .file bytes t) ∧ d' = d.erase place := by
  obtain ⟨⟨place, e⟩, hfind, h⟩ := bind_eq_ok h
  cases e with
  | dir t => cases h
  | file bytes t =>
    cases h
    exact ⟨place, bytes, t, hfind, rfl⟩

theorem removeFile_retains {other : String} (h : d.removeFile other = .ok d')
    (hother : Path.lastName other ≠ Path.lastName path)
    (hproper : 2 < (Path.lastName other).length) : Retains path d d' := by
  obtain ⟨place, bytes, t, hfind, rfl⟩ := removeFile_eq_ok h
  obtain ⟨q, hq⟩ := Path.exists_named d.cwd hproper
  obtain rfl := eq_of_find hfind hq
  obtain ⟨w, -, hfollow⟩ := bind_eq_ok hfind
  obtain ⟨-, hfile⟩ := follow_eq_ok hfollow
  refine .of_fileAt (erase_keepsDirs hfile) fun p hp => fileAt_congr ?_
  rw [lookup?_erase d (ne_nil_of_file hfile), if_neg]
  rintro rfl
  exact Path.named_ne hother hp hq

theorem moveFile_eq_ok {source target : String} {t : Nat} (h : d.moveFile source target = .ok d')
    (hsource : d.placeOf source = .ok place) (hfile : d.lookup? place = some (.file bytes t)) :
    ∃ goal, d.placeOf target = .ok goal ∧ (∀ t, d.lookup? goal ≠ some (.dir t)) ∧
      d' = (d.erase place).put goal (.file bytes t) := by
  obtain ⟨w, origin, name, hw, horigin, hname, -, hlong, rfl⟩ := placeOf_eq_ok hsource
  rw [moveFile, hw, ok_bind, horigin, ok_bind] at h
  obtain ⟨w', hw', h⟩ := bind_eq_ok h
  obtain ⟨step, hstep, h⟩ := bind_eq_ok h
  rw [placeOf, hw', ok_bind, hstep, ok_bind]
  rw [hname] at h
  cases hnew : step.name? with
  | none =>
    rw [hnew] at h
    cases h
  | some newName =>
    have hplace : origin.place name = .ok (origin.dir ++ [name]) := by
      rw [LastStep.place, hlong]
      rfl
    rw [hnew] at h
    dsimp only at h ⊢
    rw [hplace, ok_bind, hfile] at h
    obtain ⟨goal, hgoal, h⟩ := bind_eq_ok h
    split_ifs at h with hseparated
    · cases h
    · have hopen : step.separated = false := by
        simp only [DiskEntry.isDir, Bool.not_false, Bool.true_and, Bool.or_eq_true, not_or,
          Bool.not_eq_true] at hseparated
        exact hseparated.2
      rw [hopen]
      refine ⟨goal, hgoal, ?_⟩
      cases hentry : d.lookup? goal with
      | none =>
        rw [hentry] at h
        cases h
        exact ⟨fun _ h => (by cases h), rfl⟩
      | some e =>
        rw [hentry] at h
        cases e with
        | dir t' => cases h
        | file content t' =>
          cases h
          exact ⟨fun _ h => (by cases h), rfl⟩

theorem moveFile_holds {source target : String} (h : d.moveFile source target = .ok d')
    (hsource : d.Holds source bytes) : d'.Holds target bytes := by
  obtain ⟨place, t, hplace, hfile⟩ := hsource
  obtain ⟨goal, hgoal, hfree, rfl⟩ := moveFile_eq_ok h hplace hfile
  have hne := placeOf_ne_nil hgoal
  have hkeeps : KeepsDirs d ((d.erase place).put goal (.file bytes t)) := by
    refine ⟨rfl, fun p t' hdir => ?_⟩
    rw [lookup?_put _ _ hne, if_neg]
    · exact (erase_keepsDirs hfile).dirs p t' hdir
    · rintro rfl
      exact hfree t' hdir
  refine ⟨goal, t, hkeeps.placeOf_eq_ok hgoal, ?_⟩
  rw [lookup?_put _ _ hne, if_pos rfl]

end Disk

end ProcessModel
