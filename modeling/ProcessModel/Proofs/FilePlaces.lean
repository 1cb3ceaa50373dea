import Mathlib.Data.List.DropRight
import Mathlib.Tactic.Common
import ProcessModel.Files.Disk
import ProcessModel.Proofs.Outcome

/-! Which file a path names.

Every path that can be written names one place. Writing puts a file there and nothing else, so that
all paths go on naming the places they named. -/

namespace ProcessModel.Disk

variable {d d' d'' : Disk} {w : Way} {step : LastStep} {path other : String}
  {place : List String} {name : String} {bytes : ByteArray}

/-- The place of the file that a path names, be there one or not. -/
def placeOf (d : Disk) (path : String) : Except FileFault (List String) := do
  let step ← d.lastStep (← d.way path)
  match step.name? with
  | none => throw .isDirectory
  | some name => if step.separated then throw .isDirectory else step.place name

/-! ### Finding a file -/

theorem walk_append (d : Disk) (place : List String) (names rest : List String) :
    d.walk place (names ++ rest) = d.walk place names >>= fun p => d.walk p rest := by
  induction names generalizing place with
  | nil => rfl
  | cons name names ih =>
    rw [List.cons_append, walk, walk]
    cases d.lookup? place with
    | none => rfl
    | some e =>
      cases e with
      | file _ _ => rfl
      | dir _ =>
        dsimp only
        split_ifs
        · exact ih _
        · exact ih _
        · rfl
        · exact ih _

/-- The names of a way without separators at its end. -/
def keptNames (w : Way) : List String := w.names.rdropWhile (· == "")

theorem lastStep_eq_ok :
    d.lastStep w = .ok step ↔
      d.walk w.start (keptNames w).dropLast = .ok step.dir ∧
      (∃ t, d.lookup? step.dir = some (.dir t)) ∧
      step.name? = (keptNames w).getLast?.filter (fun n => n != "." && n != "..") ∧
      step.separated = decide ((keptNames w).length < w.names.length) := by
  constructor
  · intro h
    obtain ⟨dir, hwalk, h⟩ := bind_eq_ok h
    cases hdir : d.lookup? dir with
    | none =>
      rw [hdir] at h
      cases h
    | some e =>
      rw [hdir] at h
      cases e with
      | file _ _ => cases h
      | dir t =>
        cases h
        exact ⟨hwalk, ⟨t, hdir⟩, rfl, rfl⟩
  · obtain ⟨dir, name?, separated⟩ := step
    rintro ⟨hwalk, ⟨t, hdir⟩, rfl, rfl⟩
    rw [keptNames, List.rdropWhile] at hwalk
    rw [lastStep, hwalk, ok_bind, hdir]
    rfl

theorem placeOf_eq_ok (h : d.placeOf path = .ok place) :
    ∃ w step name, d.way path = .ok w ∧ d.lastStep w = .ok step ∧ step.name? = some name ∧
      step.separated = false ∧ Path.isTooLong name = false ∧ place = step.dir ++ [name] := by
  obtain ⟨w, hw, h⟩ := bind_eq_ok h
  obtain ⟨step, hstep, h⟩ := bind_eq_ok h
  cases hname : step.name? with
  | none =>
    rw [hname] at h
    cases h
  | some name =>
    rw [hname] at h
    dsimp only [LastStep.place] at h
    split_ifs at h with hseparated hlong
    cases h
    exact ⟨w, step, name, hw, hstep, hname, Bool.eq_false_iff.2 hseparated,
      Bool.eq_false_iff.2 hlong, rfl⟩

theorem placeOf_ne_nil (h : d.placeOf path = .ok place) : place ≠ [] := by
  obtain ⟨w, step, name, -, -, -, -, -, rfl⟩ := placeOf_eq_ok h
  simp

theorem names_eq_of_lastStep (h : d.lastStep w = .ok step) (hname : step.name? = some name)
    (hseparated : step.separated = false) :
    w.names = (keptNames w).dropLast ++ [name] ∧ Path.isIdle name = false ∧ name ≠ ".." := by
  obtain ⟨-, -, hlast, hsep⟩ := lastStep_eq_ok.1 h
  rw [hname] at hlast
  obtain ⟨hlast, hpoints⟩ := Option.filter_eq_some_iff.1 hlast.symm
  obtain ⟨rest, hkept⟩ := List.getLast?_eq_some_iff.1 hlast
  have hwhole : keptNames w = w.names :=
    (List.rdropWhile_prefix _ _).eq_of_length_le
      (Nat.not_lt.1 (of_decide_eq_false (hsep.symm.trans hseparated)))
  have hblank : name ≠ "" := by
    have hne : keptNames w ≠ [] := by simp [hkept]
    have hend : ¬ ((keptNames w).getLast hne == "") = true :=
      List.rdropWhile_last_not (· == "") w.names hne
    rw [Option.some.inj ((List.getLast?_eq_some_getLast hne).symm.trans hlast)] at hend
    simpa using hend
  obtain ⟨hpoint, hup⟩ := Bool.and_eq_true_iff.1 hpoints
  refine ⟨?_, ?_, bne_iff_ne.1 hup⟩
  · rw [← hwhole, hkept, List.dropLast_concat]
  · rw [Path.isIdle, beq_eq_false_iff_ne.2 hblank, beq_eq_false_iff_ne.2 (bne_iff_ne.1 hpoint)]
    rfl

theorem walk_of_placeOf (h : d.placeOf path = .ok place) :
    ∃ w, d.way path = .ok w ∧ d.walk w.start w.names = .ok place := by
  obtain ⟨w, step, name, hw, hstep, hname, hseparated, hlong, rfl⟩ := placeOf_eq_ok h
  obtain ⟨hnames, hidle, hup⟩ := names_eq_of_lastStep hstep hname hseparated
  obtain ⟨hwalk, ⟨t, hdir⟩, -, -⟩ := lastStep_eq_ok.1 hstep
  refine ⟨w, hw, ?_⟩
  rw [hnames, walk_append, hwalk, ok_bind, walk, hdir]
  simp [hidle, hup, hlong, walk]

theorem content_of_placeOf {t : Nat} (h : d.placeOf path = .ok place)
    (hfile : d.lookup? place = some (.file bytes t)) : d.content path = .ok bytes := by
  obtain ⟨w, hw, hwalk⟩ := walk_of_placeOf h
  rw [content, find, hw, ok_bind, follow, hwalk, ok_bind, hfile]
  rfl

/-! ### Writing a file -/

theorem find?_filter_ne (entries : List (List String × DiskEntry)) (place q : List String) :
    ((entries.filter fun x => x.1 != place).find? fun x => x.1 == q) =
      if q = place then none else entries.find? fun x => x.1 == q := by
  rw [List.find?_filter]
  split_ifs with hq
  · refine List.find?_eq_none.2 fun x _ => ?_
    simp [hq]
  · congr 1
    funext x
    by_cases hx : x.1 = q
    · simp [hx, hq]
    · simp [hx]

theorem lookup?_put (d : Disk) (e : DiskEntry) (h : place ≠ []) (q : List String) :
    (d.put place e).lookup? q = if q = place then some e else d.lookup? q := by
  simp only [lookup?, put, List.find?_append, find?_filter_ne]
  by_cases hq : q = place
  · simp [hq, h]
  · simp [hq, Ne.symm hq]

theorem lookup?_erase (d : Disk) (h : place ≠ []) (q : List String) :
    (d.erase place).lookup? q = if q = place then none else d.lookup? q := by
  simp only [lookup?, erase, find?_filter_ne]
  by_cases hq : q = place
  · simp [hq, h]
  · simp [hq]

theorem writeFile_eq_ok (h : d.writeFile path bytes = .ok d') :
    ∃ place, d.placeOf path = .ok place ∧ (∀ t, d.lookup? place ≠ some (.dir t)) ∧
      d' = d.tick.put place (.file bytes d.tick.clock) := by
  obtain ⟨w, hw, h⟩ := bind_eq_ok h
  obtain ⟨step, hstep, h⟩ := bind_eq_ok h
  rw [placeOf, hw, ok_bind, hstep, ok_bind]
  cases hname : step.name? with
  | none =>
    rw [hname] at h
    cases h
  | some name =>
    rw [hname] at h
    dsimp only at h ⊢
    by_cases hseparated : step.separated
    · rw [if_pos hseparated] at h
      cases h
    rw [if_neg hseparated] at h ⊢
    obtain ⟨place, hplace, h⟩ := bind_eq_ok h
    refine ⟨place, hplace, ?_⟩
    split at h
    · cases h
    · rename_i hfree
      cases h
      exact ⟨hfree, rfl⟩

/-- Whether the directories of one disk are there in another, so that a path names the place in it
that it names in the first. -/
structure KeepsDirs (d d' : Disk) : Prop where
  cwd : d'.cwd = d.cwd
  dirs : ∀ p t, d.lookup? p = some (.dir t) → d'.lookup? p = some (.dir t)

namespace KeepsDirs

theorem refl (d : Disk) : KeepsDirs d d := ⟨rfl, fun _ _ h => h⟩

variable (h : KeepsDirs d d')
include h

theorem trans (h' : KeepsDirs d' d'') : KeepsDirs d d'' :=
  ⟨h'.cwd.trans h.cwd, fun p t hdir => h'.dirs p t (h.dirs p t hdir)⟩

theorem walk_eq_ok {p q : List String} {names : List String} (hwalk : d.walk p names = .ok q) :
    d'.walk p names = .ok q := by
  induction names generalizing p with
  | nil => exact hwalk
  | cons name names ih =>
    rw [walk] at hwalk ⊢
    cases hentry : d.lookup? p with
    | none =>
      rw [hentry] at hwalk
      cases hwalk
    | some e =>
      rw [hentry] at hwalk
      cases e with
      | file _ _ => cases hwalk
      | dir t =>
        rw [h.dirs p t hentry]
        dsimp only at hwalk ⊢
        split_ifs at hwalk ⊢
        · exact ih hwalk
        · exact ih hwalk
        · exact ih hwalk

theorem way_eq (path : String) : d'.way path = d.way path := by
  rw [way, anyWay, h.cwd]
  rfl

theorem placeOf_eq_ok (hplace : d.placeOf path = .ok place) : d'.placeOf path = .ok place := by
  obtain ⟨w, hw, hplace⟩ := bind_eq_ok hplace
  obtain ⟨step, hstep, hplace⟩ := bind_eq_ok hplace
  obtain ⟨hwalk, ⟨t, hdir⟩, hname, hseparated⟩ := lastStep_eq_ok.1 hstep
  have hlast := lastStep_eq_ok.2
    ⟨h.walk_eq_ok hwalk, ⟨t, h.dirs _ _ hdir⟩, hname, hseparated⟩
  rw [placeOf, h.way_eq, hw, ok_bind, hlast, ok_bind]
  exact hplace

end KeepsDirs

/-- Whether two disks have the same directories, so that a path names one place in both. -/
structure SameDirs (d d' : Disk) : Prop where
  cwd : d'.cwd = d.cwd
  dirs : ∀ p t, d'.lookup? p = some (.dir t) ↔ d.lookup? p = some (.dir t)

namespace SameDirs

theorem refl (d : Disk) : SameDirs d d := ⟨rfl, fun _ _ => Iff.rfl⟩

theorem symm (h : SameDirs d d') : SameDirs d' d := ⟨h.cwd.symm, fun p t => (h.dirs p t).symm⟩

theorem trans (h : SameDirs d d') (h' : SameDirs d' d'') : SameDirs d d'' :=
  ⟨h'.cwd.trans h.cwd, fun p t => (h'.dirs p t).trans (h.dirs p t)⟩

theorem keepsDirs (h : SameDirs d d') : KeepsDirs d d' := ⟨h.cwd, fun p t => (h.dirs p t).2⟩

theorem placeOf_eq_ok (h : SameDirs d d') (hplace : d.placeOf path = .ok place) :
    d'.placeOf path = .ok place := h.keepsDirs.placeOf_eq_ok hplace

end SameDirs

def SameFile (d : Disk) (a b : String) : Prop :=
  ∃ place, d.placeOf a = .ok place ∧ d.placeOf b = .ok place

theorem SameDirs.sameFile (h : SameDirs d d') (hsame : d.SameFile path other) :
    d'.SameFile path other := by
  obtain ⟨place, ha, hb⟩ := hsame
  exact ⟨place, h.placeOf_eq_ok ha, h.placeOf_eq_ok hb⟩

def Holds (d : Disk) (path : String) (bytes : ByteArray) : Prop :=
  ∃ place t, d.placeOf path = .ok place ∧ d.lookup? place = some (.file bytes t)

theorem Holds.content_eq (h : d.Holds path bytes) : d.content path = .ok bytes := by
  obtain ⟨place, t, hplace, hfile⟩ := h
  exact content_of_placeOf hplace hfile

theorem writeFile_sameDirs (h : d.writeFile path bytes = .ok d') : SameDirs d d' := by
  obtain ⟨place, hplace, hfree, rfl⟩ := writeFile_eq_ok h
  refine ⟨rfl, fun p t => ?_⟩
  rw [lookup?_put _ _ (placeOf_ne_nil hplace)]
  split_ifs with hp
  · subst hp
    exact ⟨fun h => (by cases h), fun h => absurd h (hfree t)⟩
  · rfl

theorem writeFile_holds (h : d.writeFile path bytes = .ok d') : d'.Holds path bytes := by
  have hsame := writeFile_sameDirs h
  obtain ⟨place, hplace, -, rfl⟩ := writeFile_eq_ok h
  refine ⟨place, d.tick.clock, hsame.placeOf_eq_ok hplace, ?_⟩
  rw [lookup?_put _ _ (placeOf_ne_nil hplace), if_pos rfl]

theorem Holds.writeFile_other {content : ByteArray} (hholds : d.Holds path bytes)
    (h : d.writeFile other content = .ok d') (hother : ¬ d.SameFile other path) :
    d'.Holds path bytes := by
  obtain ⟨q, t, hq, hfile⟩ := hholds
  refine ⟨q, t, (writeFile_sameDirs h).placeOf_eq_ok hq, ?_⟩
  obtain ⟨place, hplace, -, rfl⟩ := writeFile_eq_ok h
  have hne : q ≠ place := by
    rintro rfl
    exact hother ⟨q, hplace, hq⟩
  rw [lookup?_put _ _ (placeOf_ne_nil hplace), if_neg hne]
  exact hfile

end ProcessModel.Disk
