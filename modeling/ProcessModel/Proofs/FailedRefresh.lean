import ProcessModel.Build
import ProcessModel.Proofs.Mishaps

/-! Units survive failures.

A unit is assembled before any file is touched, and written under another name before it is moved to
its own. -/

namespace ProcessModel

namespace Build

open FaultyDisk
open Disk (Retains)

variable {P : Disk → Prop} {old : Disk} {c : Config} {d : Definition} {path : String}

theorem ensures_anyNewer (time : Nat) (paths : List String) :
    Ensures P (anyNewer time paths : ExceptT Error (StateM FaultyDisk) Bool).run (fun _ => P) P := by
  induction paths with
  | nil => exact ensures_pure fun _ h => h
  | cons path paths ih =>
    refine ensures_bind (ensures_on path (ensures_stat path)) fun found => ?_
    split
    · exact ensures_pure fun _ h => h
    · exact ih

theorem ensures_isStale (c : Config) (d : Definition) :
    Ensures P (isStale c d : ExceptT Error (StateM FaultyDisk) Bool).run (fun _ => P) P := by
  refine ensures_bind (ensures_outcome (ensures_stat (unitPath c d))) fun found => ?_
  cases found with
  | ok unit => exact ensures_anyNewer _ _
  | error fault =>
    cases fault with
    | notFound => exact ensures_pure fun _ h => h
    | _ => exact ensures_throw fun _ h => h

theorem ensures_writeHeader {header : String} (text : String)
    (hother : Path.lastName header ≠ Path.lastName path) :
    Ensures (Retains path old) (writeHeader header text : ExceptT Error (StateM FaultyDisk) Unit).run
      (fun _ => Retains path old) (Retains path old) := by
  have hwrite : Ensures (Retains path old)
      (FileAccess.on header (FileAccess.writeText header text) :
        ExceptT Error (StateM FaultyDisk) Unit).run
      (fun _ => Retains path old) (Retains path old) :=
    ensures_on header ((ensures_write hother).mono (fun _ _ h => h.1) fun _ h => h)
  refine ensures_bind (ensures_outcome (ensures_readText header)) fun found => ?_
  cases found with
  | error fault => exact hwrite
  | ok current =>
    dsimp only
    split_ifs
    · exact ensures_pure fun _ h => h
    · exact hwrite

theorem ensures_writeHeaders (c : Config)
    (hother : ∀ header ∈ Code.supportHeaders, Path.lastName header.1 ≠ Path.lastName path) :
    Ensures (Retains path old) (writeHeaders c : ExceptT Error (StateM FaultyDisk) Unit).run
      (fun _ => Retains path old) (Retains path old) := by
  refine ensures_bind (ensures_on _ (ensures_createDirs _)) fun _ => ?_
  refine ensures_bind (ensures_forIn fun header hheader => ?_) fun _ => ensures_pure fun _ h => h
  have hname : Path.lastName (Path.join c.generator.unitDir header.1) ≠ Path.lastName path := by
    rw [Path.lastName_join]
    exact hother header hheader
  exact ensures_bind (ensures_writeHeader header.2 hname) fun _ => ensures_pure fun _ h => h

theorem ensures_replaceFile {tmp text : String} (dir : String)
    (hother : Path.lastName tmp ≠ Path.lastName path) :
    Ensures (Retains path old)
      (replaceFile dir tmp path text : ExceptT Error (StateM FaultyDisk) Unit).run
      (fun _ disk => disk.Holds path text.toUTF8) (Retains path old) := by
  refine ensures_bind (ensures_on _ (ensures_createDirs _)) fun _ => ?_
  refine ensures_bind (ensures_on _ (ensures_write hother)) fun _ => ?_
  exact ensures_on _ ensures_rename

theorem unitPath_of_assemble {u : UnitFile} (h : assemble c d = .ok u) :
    unitPath c d = Path.join c.generator.unitDir u.name := by
  obtain ⟨m, -, h⟩ := bind_eq_ok h
  obtain ⟨unit, -, h⟩ := bind_eq_ok h
  cases h
  rfl

theorem ensures_writeUnit (c : Config) (u : UnitFile) :
    Ensures (Retains (Path.join c.generator.unitDir u.name) old)
      (write c u : ExceptT Error (StateM FaultyDisk) String).run
      (fun _ disk => disk.Holds (Path.join c.generator.unitDir u.name) u.text.toUTF8)
      (Retains (Path.join c.generator.unitDir u.name) old) := by
  have hlength := Path.lastName_length_add_le u.name
  have hother : Path.lastName (Path.join c.generator.unitDir ("." ++ u.name ++ ".tmp")) ≠
      Path.lastName (Path.join c.generator.unitDir u.name) := by
    rw [Path.lastName_join, Path.lastName_join]
    intro heq
    rw [heq] at hlength
    omega
  have hproper :
      2 < (Path.lastName (Path.join c.generator.unitDir ("." ++ u.name ++ ".tmp"))).length := by
    rw [Path.lastName_join]
    omega
  refine ensures_bind (ensures_outcome (ensures_replaceFile _ hother)) fun outcome => ?_
  cases outcome with
  | ok _ => exact ensures_pure fun _ h => h
  | error e =>
    refine ensures_bind (ensures_outcome (ensures_remove hother hproper)) fun removed => ?_
    refine ensures_throw fun disk h => ?_
    cases removed with
    | ok _ => exact h
    | error _ => exact h

/-- A refresh assembles the unit before it touches a file. -/
theorem ensures_refresh_of_error {e : Error} (h : assemble c d = .error e) :
    Ensures P (refresh c d : ExceptT Error (StateM FaultyDisk) Bool).run (fun _ => P) P := by
  refine ensures_bind (ensures_isStale c d) fun stale => ?_
  cases stale with
  | false => exact ensures_pure fun _ h => h
  | true =>
    rw [h]
    exact ensures_throw fun _ h => h

theorem ensures_refresh
    (hother : ∀ header ∈ Code.supportHeaders,
      Path.lastName header.1 ≠ Path.lastName (unitPath c d)) :
    Ensures (· = old) (refresh c d : ExceptT Error (StateM FaultyDisk) Bool).run
      (fun refreshed disk => if refreshed
        then ∃ u, assemble c d = .ok u ∧ disk.Holds (unitPath c d) u.text.toUTF8
        else disk = old)
      (Retains (unitPath c d) old) := by
  have hold : ∀ disk, disk = old → Retains (unitPath c d) old disk := by
    rintro _ rfl
    exact .refl _ _
  refine ensures_bind ((ensures_isStale c d).mono (fun _ _ h => h) hold) fun stale => ?_
  cases stale with
  | false => exact ensures_pure fun _ h => h
  | true =>
    cases hu : assemble c d with
    | error e => exact ensures_throw hold
    | ok u =>
      obtain hpath := unitPath_of_assemble hu
      change Ensures (· = old) (do
        inStage u.model .writing (writeHeaders c)
        let _ ← write c u
        return true : ExceptT Error (StateM FaultyDisk) Bool).run _ _
      refine Ensures.weaken (ensures_bind (ensures_tryCatch _ (ensures_writeHeaders c hother))
        fun _ => ?_) hold
      rw [hpath]
      exact ensures_bind (ensures_writeUnit c u) fun _ => ensures_pure fun _ h => ⟨u, rfl, h⟩

theorem header_names :
    ∀ header ∈ Code.supportHeaders, Path.lastName header.1 = header.1 ∧
      Path.isIdle header.1 = false ∧ header.1 ≠ ".." ∧ header.1 ≠ "/" := by
  decide +kernel

/-- Whatever goes wrong with the operations on files, a refresh that fails leaves the unit that was
there with its content, and no way to it is closed. One that writes the unit leaves the whole text of
the assembled one, and nothing is touched if the unit is up to date or cannot be assembled. The file
name of the unit must be none of those of the headers. -/
theorem refresh_keeps_unit {c : Config} {d : Definition} {s t : FaultyDisk}
    {result : Except Error Bool}
    (hname : ∀ header ∈ Code.supportHeaders, Path.fileName? (unitPath c d) ≠ some header.1)
    (hrun : (refresh c d : ExceptT Error (StateM FaultyDisk) Bool).run.run s = (result, t)) :
    (∀ e, result = .error e →
      t.disk.contentsAt (unitPath c d) = s.disk.contentsAt (unitPath c d) ∧
      ∀ bytes, s.disk.Holds (unitPath c d) bytes → t.disk.Holds (unitPath c d) bytes) ∧
    (result = .ok true → ∃ u, assemble c d = .ok u ∧
      t.disk.Holds (unitPath c d) u.text.toUTF8 ∧
      t.disk.content (unitPath c d) = .ok u.text.toUTF8) ∧
    (result = .ok false → t.disk = s.disk) ∧
    (∀ e, assemble c d = .error e → t.disk = s.disk) := by
  have hother : ∀ header ∈ Code.supportHeaders,
      Path.lastName header.1 ≠ Path.lastName (unitPath c d) := by
    intro header hheader heq
    obtain ⟨hlast, hidle, hup, hroot⟩ := header_names header hheader
    exact hname header hheader
      (Path.fileName?_of_lastName (heq.symm.trans hlast) hidle hup hroot)
  have houtcome := ensures_refresh hother s rfl
  rw [hrun] at houtcome
  refine ⟨?_, ?_, ?_, fun e he => ?_⟩
  · rintro e rfl
    exact ⟨houtcome.contents, fun _ => houtcome.holds⟩
  · rintro rfl
    obtain ⟨u, hu, hholds⟩ := houtcome
    exact ⟨u, hu, hholds, hholds.content_eq⟩
  · rintro rfl
    exact houtcome
  · have hsame := ensures_refresh_of_error (P := (· = s.disk)) he s rfl
    rw [hrun] at hsame
    cases result with
    | ok _ => exact hsame
    | error _ => exact hsame

section Example

def pond : Definition := { name := "pond", sources := [⟨"/m/pond.src", ""⟩] }

def bank : Disk := {
  entries := [
    (["m"], .dir 0), (["m", "pond.src"], .file .empty 5), (["m", "autogen"], .dir 4),
    (["m", "autogen", "c_pond.c"], .file "old".toUTF8 4)]
  cwd := ["m"], clock := 6 }

/-- The new unit is cut short when it is written, and what is there of it cannot be removed. -/
def cutShort : FaultyDisk :=
  ⟨bank, List.replicate 10 none ++
    [some { fault := .denied, left := some "ne".toUTF8 }, some { fault := .denied }]⟩

/-- The old unit of the pond survives, with a part of the new one left beside it. Where nothing goes
wrong the new one is there. -/
theorem pond_unit_kept :
    (∀ header ∈ Code.supportHeaders, Path.fileName? (unitPath {} pond) ≠ some header.1) ∧
    (∃ e t, (refresh {} pond : ExceptT Error (StateM FaultyDisk) Bool).run.run cutShort =
        (.error e, t) ∧
      t.disk.contentsAt "autogen/.c_pond.c.tmp" = some "ne".toUTF8 ∧
      t.disk.contentsAt (unitPath {} pond) = some "old".toUTF8) ∧
    ∃ t u, (refresh {} pond : ExceptT Error (StateM FaultyDisk) Bool).run.run ⟨bank, []⟩ =
        (.ok true, t) ∧
      assemble {} pond = .ok u ∧ t.disk.content (unitPath {} pond) = .ok u.text.toUTF8 := by
  have hname : ∀ header ∈ Code.supportHeaders,
      Path.fileName? (unitPath {} pond) ≠ some header.1 := by
    decide +kernel
  refine ⟨hname, ?_, ?_⟩
  · have hfails : ((refresh {} pond : ExceptT Error (StateM FaultyDisk) Bool).run.run
        cutShort).1.toOption = none := by
      decide +kernel
    obtain ⟨e, he⟩ := toOption_eq_none hfails
    obtain ⟨hkept, -, -, -⟩ := refresh_keeps_unit (s := cutShort) hname rfl
    exact ⟨e, _, Prod.ext he rfl, by decide +kernel, (hkept e he).1.trans (by decide +kernel)⟩
  · have hsucceeds : ((refresh {} pond : ExceptT Error (StateM FaultyDisk) Bool).run.run
        ⟨bank, []⟩).1.toOption = some true := by
      decide +kernel
    have htrue := toOption_eq_some hsucceeds
    obtain ⟨-, hwritten, -, -⟩ := refresh_keeps_unit (s := ⟨bank, []⟩) hname rfl
    obtain ⟨u, hu, -, hcontent⟩ := hwritten htrue
    exact ⟨_, u, Prod.ext htrue rfl, hu, hcontent⟩

end Example

end Build

end ProcessModel
