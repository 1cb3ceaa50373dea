import ProcessModel.Proofs.RetainedFiles

/-! A disk on which operations go wrong.

Each operation either does what it does on a sound disk, or fails for no reason of its own. A write
that fails may leave any content in its file, and directories may have been made before the creation
of others fails. -/

namespace ProcessModel

structure Mishap where
  fault : FileFault
  /-- What a write leaves in its file, if it has come to open it. -/
  left : Option ByteArray := none
  /-- How far the creation of directories has come on its way, in names. -/
  made : Nat := 0

/-- A disk, and which of the operations to come go wrong. Those after the end of the list do not. -/
structure FaultyDisk where
  disk : Disk
  mishaps : List (Option Mishap) := []

namespace FaultyDisk

variable {ε α β : Type}

/-- An operation that may go wrong, with what it has done to the disk by then. -/
def attempt (broken : Mishap → Disk → Disk) (op : StateM Disk (Except FileFault α)) :
    StateM FaultyDisk (Except FileFault α) := do
  let s ← get
  match s.mishaps.head?.join with
  | none =>
    set (⟨(op.run s.disk).2, s.mishaps.tail⟩ : FaultyDisk)
    return (op.run s.disk).1
  | some x =>
    set (⟨broken x s.disk, s.mishaps.tail⟩ : FaultyDisk)
    return .error x.fault

def untouched (_ : Mishap) (d : Disk) : Disk := d

def halfWritten (path : String) (x : Mishap) (d : Disk) : Disk :=
  match x.left with
  | none => d
  | some bytes => (d.writeFile path bytes).toOption.getD d

def halfMade (path : String) (x : Mishap) (d : Disk) : Disk :=
  match d.way path with
  | .error _ => d
  | .ok w => (d.makeDirs w.start (w.names.take x.made)).1

instance : FileAccess (StateM FaultyDisk) where
  canonical path := attempt untouched (FileAccess.canonical path)
  stat path := attempt untouched (FileAccess.stat path)
  read path := attempt untouched (FileAccess.read path)
  write path bytes := attempt (halfWritten path) (FileAccess.write path bytes)
  createDirs path := attempt (halfMade path) (FileAccess.createDirs path)
  rename source target := attempt untouched (FileAccess.rename source target)
  remove path := attempt untouched (FileAccess.remove path)
  list path := attempt untouched (FileAccess.list path)
  openRead path := attempt untouched (FileAccess.openRead path)
  openUpdate path := attempt untouched (FileAccess.openUpdate path)
  readAt path offset length := attempt untouched (FileAccess.readAt path offset length)
  writeAt path offset bytes := attempt (halfWritten path) (FileAccess.writeAt path offset bytes)
  fileBound := return (← get).disk.entries.length + 1
  launch program args dir := attempt untouched (FileAccess.launch program args dir)

/-! ### What programs ensure -/

def Outcome (Q : α → Disk → Prop) (E : Disk → Prop) : Except ε α → Disk → Prop
  | .ok a => Q a
  | .error _ => E

theorem outcome_same {C : Disk → Prop} {d : Disk} (r : Except ε α) (h : C d) :
    Outcome (fun _ => C) C r d := by
  cases r with
  | ok a => exact h
  | error e => exact h

/-- Started on a disk where `P` holds, a program returns a value with `Q` or fails with `E`, whatever
goes wrong. -/
def Ensures (P : Disk → Prop) (x : StateM FaultyDisk (Except ε α)) (Q : α → Disk → Prop)
    (E : Disk → Prop) : Prop :=
  ∀ s, P s.disk → Outcome Q E (x.run s).1 (x.run s).2.disk

variable {P E : Disk → Prop} {Q : α → Disk → Prop} {R : β → Disk → Prop}

theorem ensures_attempt {broken : Mishap → Disk → Disk} {op : StateM Disk (Except FileFault α)}
    (hop : ∀ d, P d → Outcome Q E (op.run d).1 (op.run d).2)
    (hbroken : ∀ x d, P d → E (broken x d)) : Ensures P (attempt broken op) Q E := by
  intro s hs
  cases hx : s.mishaps.head?.join with
  | none =>
    have hrun : (attempt broken op).run s =
        ((op.run s.disk).1, ⟨(op.run s.disk).2, s.mishaps.tail⟩) := by
      simp [attempt, hx]
      rfl
    rw [hrun]
    exact hop s.disk hs
  | some x =>
    have hrun : (attempt broken op).run s =
        (.error x.fault, ⟨broken x s.disk, s.mishaps.tail⟩) := by
      simp [attempt, hx]
      rfl
    rw [hrun]
    exact hbroken x s.disk hs

variable {x : StateM FaultyDisk (Except ε α)}

theorem Ensures.weaken {P' : Disk → Prop} (h : Ensures P x Q E) (hp : ∀ d, P' d → P d) :
    Ensures P' x Q E :=
  fun s hs => h s (hp _ hs)

theorem Ensures.mono {Q' : α → Disk → Prop} {E' : Disk → Prop} (h : Ensures P x Q E)
    (hq : ∀ a d, Q a d → Q' a d) (he : ∀ d, E d → E' d) : Ensures P x Q' E' := by
  intro s hs
  have hx := h s hs
  cases hr : (x.run s).1 with
  | ok a =>
    rw [hr] at hx
    exact hq a _ hx
  | error e =>
    rw [hr] at hx
    exact he _ hx

theorem ensures_return {r : Except ε α} (h : ∀ d, P d → Outcome Q E r d) :
    Ensures P (pure r : StateM FaultyDisk (Except ε α)) Q E :=
  fun s hs => h s.disk hs

theorem ensures_seq {ε' : Type} {f : Except ε α → StateM FaultyDisk (Except ε' β)} {F : Disk → Prop}
    (hx : Ensures P x Q E) (hf : ∀ r, Ensures (Outcome Q E r) (f r) R F) :
    Ensures P (x >>= f) R F :=
  fun s hs => hf _ _ (hx s hs)

theorem ensures_pure {a : α} (h : ∀ d, P d → Q a d) :
    Ensures P (pure a : ExceptT ε (StateM FaultyDisk) α).run Q E := ensures_return h

theorem ensures_throw {e : ε} (h : ∀ d, P d → E d) :
    Ensures P (throw e : ExceptT ε (StateM FaultyDisk) α).run Q E := ensures_return h

theorem ensures_bind {x : ExceptT ε (StateM FaultyDisk) α}
    {f : α → ExceptT ε (StateM FaultyDisk) β} (hx : Ensures P x.run Q E)
    (hf : ∀ a, Ensures (Q a) (f a).run R E) : Ensures P (x >>= f).run R E := by
  change Ensures P (x.run >>= ExceptT.bindCont f) R E
  refine ensures_seq hx fun r => ?_
  cases r with
  | ok a => exact hf a
  | error e => exact ensures_return fun _ h => h

theorem ensures_outcome {op : StateM FaultyDisk (Except ε α)} {ε' : Type} {F : Disk → Prop}
    (h : Ensures P op Q E) :
    Ensures P (liftM op : ExceptT ε' (StateM FaultyDisk) (Except ε α)).run (Outcome Q E) F := h

theorem ensures_on {op : StateM FaultyDisk (Except FileFault α)} (path : String)
    (h : Ensures P op Q E) : Ensures P (FileAccess.on path op).run Q E := by
  refine ensures_bind (ensures_outcome h) fun r => ?_
  cases r with
  | ok a => exact ensures_pure fun _ ha => ha
  | error fault => exact ensures_throw fun _ he => he

theorem ensures_tryCatch {x : ExceptT ε (StateM FaultyDisk) α} (f : ε → ε)
    (h : Ensures P x.run Q E) :
    Ensures P (tryCatchThe ε x fun e => throw (f e)).run Q E := by
  change Ensures P (ExceptT.tryCatch x fun e => throw (f e)).run Q E
  rw [ExceptT.tryCatch, ExceptT.run_mk]
  refine ensures_seq h fun r => ?_
  cases r with
  | ok a => exact ensures_return fun _ h => h
  | error e => exact ensures_return fun _ h => h

theorem ensures_forIn {xs : List β} {f : β → PUnit → ExceptT ε (StateM FaultyDisk) (ForInStep PUnit)}
    (h : ∀ x ∈ xs, Ensures P (f x ⟨⟩).run (fun _ => P) P) :
    Ensures P (forIn xs PUnit.unit f).run (fun _ => P) P := by
  induction xs with
  | nil => exact ensures_pure fun _ h => h
  | cons x xs ih =>
    rw [List.forIn_cons]
    refine ensures_bind (h x List.mem_cons_self) fun step => ?_
    cases step with
    | done _ => exact ensures_pure fun _ h => h
    | yield _ => exact ih fun y hy => h y (List.mem_cons_of_mem _ hy)

/-! ### What operations ensure -/

theorem ensures_asking {f : Disk → Except FileFault α} :
    Ensures P (attempt untouched (Disk.asking f)) (fun _ => P) P := by
  refine ensures_attempt (fun d hd => ?_) fun x d hd => hd
  have hrun : (Disk.asking f).run d = (f d, d) := rfl
  rw [hrun]
  exact outcome_same _ hd

theorem ensures_changing {f : Disk → Except FileFault Disk} {broken : Mishap → Disk → Disk}
    {C : Disk → Prop} (hdone : ∀ d d', P d → f d = .ok d' → C d') (hfail : ∀ d, P d → E d)
    (hbroken : ∀ x d, P d → E (broken x d)) :
    Ensures P (attempt broken (Disk.changing f)) (fun _ => C) E := by
  refine ensures_attempt (fun d hd => ?_) hbroken
  cases hf : f d with
  | ok d' =>
    have hrun : (Disk.changing f).run d = (.ok (), d') := by
      simp [Disk.changing, hf]
      rfl
    rw [hrun]
    exact hdone d d' hd hf
  | error fault =>
    have hrun : (Disk.changing f).run d = (.error fault, d) := by
      simp [Disk.changing, hf]
      rfl
    rw [hrun]
    exact hfail d hd

section Operations

open Disk (Retains)

variable {old : Disk} {path other : String} {bytes : ByteArray}

theorem ensures_stat (path : String) :
    Ensures P (FileAccess.stat path : StateM FaultyDisk _) (fun _ => P) P := ensures_asking

theorem ensures_read (path : String) :
    Ensures P (FileAccess.read path : StateM FaultyDisk _) (fun _ => P) P := ensures_asking

theorem ensures_readText (path : String) :
    Ensures P (FileAccess.readText path : StateM FaultyDisk _) (fun _ => P) P := by
  refine ensures_seq (ensures_read path) fun r => ?_
  cases r with
  | error fault => exact ensures_return fun _ h => h
  | ok bytes =>
    dsimp only
    cases String.fromUTF8? bytes with
    | none => exact ensures_return fun _ h => h
    | some text => exact ensures_return fun _ h => h

theorem ensures_write (hother : Path.lastName other ≠ Path.lastName path) :
    Ensures (Retains path old) (FileAccess.write other bytes : StateM FaultyDisk _)
      (fun _ d => Retains path old d ∧ d.Holds other bytes) (Retains path old) := by
  refine ensures_changing (fun d d' hd h => ?_) (fun _ hd => hd) fun x d hd => ?_
  · exact ⟨hd.trans (Disk.writeFile_retains h hother), Disk.writeFile_holds h⟩
  · unfold halfWritten
    cases x.left with
    | none => exact hd
    | some part =>
      dsimp only
      cases h : d.writeFile other part with
      | error fault => exact hd
      | ok d' => exact hd.trans (Disk.writeFile_retains h hother)

theorem createDirs_retains (path dir : String) (d : Disk) :
    Retains path d ((FileAccess.createDirs dir : StateM Disk _).run d).2 := by
  by_cases hempty : dir.isEmpty = true
  · have hrun : (FileAccess.createDirs dir : StateM Disk _).run d = (.ok (), d) := by
      simp [FileAccess.createDirs, hempty]
      rfl
    rw [hrun]
    exact .refl path d
  · cases hw : d.way dir with
    | error fault =>
      have hrun : (FileAccess.createDirs dir : StateM Disk _).run d = (.error fault, d) := by
        simp [FileAccess.createDirs, hempty, hw]
        rfl
      rw [hrun]
      exact .refl path d
    | ok w =>
      have hrun : ((FileAccess.createDirs dir : StateM Disk _).run d).2 =
          (d.makeDirs w.start w.names).1 := by
        simp [FileAccess.createDirs, hempty, hw]
        rfl
      rw [hrun]
      exact Disk.makeDirs_retains path d w.start w.names

theorem ensures_createDirs (dir : String) :
    Ensures (Retains path old) (FileAccess.createDirs dir : StateM FaultyDisk _)
      (fun _ => Retains path old) (Retains path old) := by
  refine ensures_attempt (fun d hd => ?_) fun x d hd => ?_
  · exact outcome_same _ (hd.trans (createDirs_retains path dir d))
  · unfold halfMade
    cases d.way dir with
    | error fault => exact hd
    | ok w => exact hd.trans (Disk.makeDirs_retains path d w.start _)

theorem ensures_rename :
    Ensures (fun d => Retains path old d ∧ d.Holds other bytes)
      (FileAccess.rename other path : StateM FaultyDisk _)
      (fun _ d => d.Holds path bytes) (Retains path old) :=
  ensures_changing (fun _ _ hd h => Disk.moveFile_holds h hd.2) (fun _ hd => hd.1)
    fun _ _ hd => hd.1

theorem ensures_remove (hother : Path.lastName other ≠ Path.lastName path)
    (hproper : 2 < (Path.lastName other).length) :
    Ensures (Retains path old) (FileAccess.remove other : StateM FaultyDisk _)
      (fun _ => Retains path old) (Retains path old) :=
  ensures_changing (fun _ _ hd h => hd.trans (Disk.removeFile_retains h hother hproper))
    (fun _ hd => hd) fun _ _ hd => hd

end Operations

end FaultyDisk

end ProcessModel
