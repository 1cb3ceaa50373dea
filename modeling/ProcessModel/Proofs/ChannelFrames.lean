import ProcessModel.Proofs.FilePlaces
import ProcessModel.Proofs.Storage

/-! Channels that share a disk.

Opening channels and saving to them changes the disk by writing to their files only. A channel whose
file no other one writes to can therefore be looked at alone. -/

namespace ProcessModel

namespace Disk

variable {d d' d'' : Disk} {path : String}

/-- Whether a change of the disk leaves a file, and the way to it, as they are. -/
structure Spares (path : String) (d d' : Disk) : Prop where
  dirs : SameDirs d d'
  holds : ∀ bytes, d.Holds path bytes → d'.Holds path bytes

theorem Spares.refl (path : String) (d : Disk) : Spares path d d := ⟨.refl d, fun _ h => h⟩

theorem Spares.trans (h : Spares path d d') (h' : Spares path d' d'') : Spares path d d'' :=
  ⟨h.dirs.trans h'.dirs, fun bytes hb => h'.holds bytes (h.holds bytes hb)⟩

theorem writeFile_spares {other : String} {bytes : ByteArray}
    (h : d.writeFile other bytes = .ok d') (hother : ¬ d.SameFile other path) :
    Spares path d d' :=
  ⟨writeFile_sameDirs h, fun _ hb => hb.writeFile_other h hother⟩

theorem changing_eq_ok {f : Disk → Except FileFault Disk}
    (h : (changing f).run d = (.ok (), d')) : f d = .ok d' := by
  have hget : (get : StateM Disk Disk).run d = (d, d) := rfl
  rw [changing, Store.run_bind_state, hget] at h
  cases hf : f d with
  | ok d₁ =>
    rw [hf] at h
    cases h
    rfl
  | error fault =>
    rw [hf] at h
    cases h

end Disk

namespace Channels

variable {c c' : Channel} {cs cs' before after : Channels} {disk disk' : Disk} {s : Store}
  {idx length : Nat} {key path : String} {values : List Float}

/-- A channel of another variable that does not write to a file. -/
def Apart (disk : Disk) (path key : String) (c : Channel) : Prop :=
  c.key ≠ key ∧ (c.plan.writing → ¬ disk.SameFile c.shownPath path)

theorem Apart.sameDirs (h : Apart disk path key c) (hdirs : disk.SameDirs disk') :
    Apart disk' path key c :=
  ⟨h.1, fun hwriting hsame => h.2 hwriting (hdirs.symm.sameFile hsame)⟩

/-- A channel with one more record in memory, if it keeps its series there. -/
def keepRecord (c : Channel) (values : List Float) (idx : Nat) : Channel :=
  if c.plan.ram then
    { c with series := Series.setRecord c.series (Series.recordStart values.length idx) values }
  else c

theorem saveOne_of_not_writing (hwriting : c.plan.writing = false)
    (h : (saveOne c values idx : StateM Disk _).run disk = (.ok c', disk')) :
    c' = keepRecord c values idx ∧ disk' = disk := by
  rw [saveOne, Store.run_bind_state, hwriting] at h
  rw [keepRecord]
  split_ifs with hram
  · rw [if_pos hram] at h
    cases h
    exact ⟨rfl, rfl⟩
  · rw [if_neg hram] at h
    cases h
    exact ⟨rfl, rfl⟩

theorem saveOne_of_writing (hwriting : c.plan.writing = true)
    (h : (saveOne c values idx : StateM Disk _).run disk = (.ok c', disk')) :
    c' = keepRecord c values idx ∧ Series.recordOffset values.length idx ≤ Disk.sizeLimit ∧
      ∃ old, disk.content c.shownPath = .ok old ∧
        disk.writeFile c.shownPath (Disk.patch old (Series.recordOffset values.length idx)
          (Series.encode values)) = .ok disk' := by
  rw [saveOne, Store.run_bind_state, hwriting, if_pos rfl] at h
  by_cases hopen : c.isOpen = true
  · rw [if_pos hopen, Store.run_bind_state] at h
    rcases hchange : (FileAccess.writeAt c.shownPath (Series.recordOffset values.length idx)
      (Series.encode values) : StateM Disk _).run disk with ⟨e | _, disk₁⟩
    · rw [hchange] at h
      cases h
    rw [hchange] at h
    obtain ⟨_, hoffset, hwrite⟩ := bind_eq_ok (Disk.changing_eq_ok hchange)
    obtain ⟨old, hold, hwrite⟩ := bind_eq_ok hwrite
    have hle : Series.recordOffset values.length idx ≤ Disk.sizeLimit := by
      rw [Disk.checkOffset] at hoffset
      split_ifs at hoffset with hle
      exact hle
    rw [keepRecord]
    split_ifs with hram
    · rw [if_pos hram] at h
      cases h
      exact ⟨rfl, hle, old, hold, hwrite⟩
    · rw [if_neg hram] at h
      cases h
      exact ⟨rfl, hle, old, hold, hwrite⟩
  · rw [if_neg hopen] at h
    cases h

theorem keepRecord_key (c : Channel) (values : List Float) (idx : Nat) :
    (keepRecord c values idx).key = c.key := by
  unfold keepRecord
  split_ifs <;> rfl

theorem keepRecord_plan (c : Channel) (values : List Float) (idx : Nat) :
    (keepRecord c values idx).plan = c.plan := by
  unfold keepRecord
  split_ifs <;> rfl

theorem save_cons_ok
    (h : (save s idx (c :: cs) : StateM Disk _).run disk = ((cs', .ok ()), disk')) :
    ∃ data c' disk₁ rest, s.flat c.key = .ok data ∧
      (saveOne c data.toList idx : StateM Disk _).run disk = (.ok c', disk₁) ∧
      (save s idx cs : StateM Disk _).run disk₁ = ((rest, .ok ()), disk') ∧ cs' = c' :: rest := by
  rw [save] at h
  cases hflat : s.flat c.key with
  | error e =>
    rw [hflat] at h
    cases h
  | ok data =>
    rw [hflat] at h
    dsimp only at h
    rw [Store.run_bind_state] at h
    rcases hone : (saveOne c data.toList idx : StateM Disk _).run disk with ⟨e | c', disk₁⟩
    · rw [hone] at h
      cases h
    · rw [hone] at h
      dsimp only at h
      rw [Store.run_bind_state] at h
      rcases hrest : (save s idx cs : StateM Disk _).run disk₁ with ⟨⟨rest, r⟩, disk₂⟩
      rw [hrest] at h
      cases h
      exact ⟨data, c', disk₁, rest, rfl, hone, hrest, rfl⟩

theorem saveOne_frame (h : (saveOne c values idx : StateM Disk _).run disk = (.ok c', disk')) :
    disk.SameDirs disk' ∧ c'.key = c.key ∧ c'.plan = c.plan := by
  cases hwriting : c.plan.writing with
  | false =>
    obtain ⟨rfl, rfl⟩ := saveOne_of_not_writing hwriting h
    exact ⟨.refl _, keepRecord_key c _ _, keepRecord_plan c _ _⟩
  | true =>
    obtain ⟨rfl, -, old, -, hwrite⟩ := saveOne_of_writing hwriting h
    exact ⟨Disk.writeFile_sameDirs hwrite, keepRecord_key c _ _, keepRecord_plan c _ _⟩

theorem saveOne_apart (hapart : Apart disk path key c)
    (h : (saveOne c values idx : StateM Disk _).run disk = (.ok c', disk')) :
    Disk.Spares path disk disk' ∧ Apart disk' path key c' := by
  obtain ⟨hdirs, hkey, hplan⟩ := saveOne_frame h
  constructor
  · cases hwriting : c.plan.writing with
    | false =>
      obtain ⟨-, rfl⟩ := saveOne_of_not_writing hwriting h
      exact .refl path _
    | true =>
      obtain ⟨-, -, old, -, hwrite⟩ := saveOne_of_writing hwriting h
      exact Disk.writeFile_spares hwrite (hapart.2 hwriting)
  · rw [Apart, Channel.shownPath, hkey, hplan]
    exact hapart.sameDirs hdirs

theorem save_apart {rest : Channels} (hcs : ∀ c ∈ cs, Apart disk path key c)
    (h : (save s idx (cs ++ rest) : StateM Disk _).run disk = ((cs', .ok ()), disk')) :
    ∃ saved disk₁ rest', Disk.Spares path disk disk₁ ∧ (∀ c ∈ saved, Apart disk₁ path key c) ∧
      (save s idx rest : StateM Disk _).run disk₁ = ((rest', .ok ()), disk') ∧
      cs' = saved ++ rest' := by
  induction cs generalizing disk cs' with
  | nil => exact ⟨[], disk, cs', .refl path disk, fun _ hc => absurd hc List.not_mem_nil, h, rfl⟩
  | cons c cs ih =>
    obtain ⟨data, c', disk₁, tail, -, hone, htail, rfl⟩ := save_cons_ok h
    obtain ⟨hspares, hapart⟩ := saveOne_apart (hcs c List.mem_cons_self) hone
    obtain ⟨saved, disk₂, rest', hspares', hsaved, hrest, rfl⟩ :=
      ih (fun o ho => (hcs o (List.mem_cons_of_mem _ ho)).sameDirs hspares.dirs) htail
    refine ⟨c' :: saved, disk₂, rest', hspares.trans hspares', fun o ho => ?_, hrest, rfl⟩
    rcases List.mem_cons.1 ho with rfl | ho
    · exact hapart.sameDirs hspares'.dirs
    · exact hsaved o ho

/-! ### Opening -/

theorem openFile_eq_ok {plan : SeriesPlan} {p : String}
    (h : (openFile plan p : StateM Disk _).run disk = (.ok (), disk')) :
    (plan.reading = true ∧ disk' = disk) ∨
      (plan.reading = false ∧ disk.writeFile p .empty = .ok disk') := by
  rw [openFile] at h
  cases hreading : plan.reading with
  | true =>
    rw [hreading] at h
    refine .inl ⟨rfl, ?_⟩
    cases hwriting : plan.writing with
    | true =>
      rw [hwriting] at h
      exact (congrArg Prod.snd h).symm
    | false =>
      rw [hwriting] at h
      exact (congrArg Prod.snd h).symm
  | false =>
    rw [hreading] at h
    exact .inr ⟨rfl, Disk.changing_eq_ok h⟩

/-- What becomes of a channel and the disk when the channel is opened. -/
inductive Opens (c : Channel) (disk : Disk) : Channel → Disk → Prop
  | idle (h : c.plan.usesDisk = false) : Opens c disk c disk
  | read (h : c.plan.reading = true) : Opens c disk { c with isOpen := true } disk
  | write {disk' : Disk} (h : c.plan.writing = true)
      (hwrite : disk.writeFile c.shownPath .empty = .ok disk') :
      Opens c disk { c with isOpen := true } disk'

theorem openFrom_cons_ok {done : Channels}
    (h : (openFrom done (c :: cs) : StateM Disk _).run disk = ((cs', .ok ()), disk')) :
    ∃ c' disk₁, Opens c disk c' disk₁ ∧
      (openFrom (done ++ [c']) cs : StateM Disk _).run disk₁ = ((cs', .ok ()), disk') := by
  rw [openFrom] at h
  cases huses : c.plan.usesDisk with
  | false =>
    rw [huses, if_neg Bool.false_ne_true] at h
    exact ⟨c, disk, .idle huses, h⟩
  | true =>
    rw [huses, if_pos rfl] at h
    cases hpath : c.plan.path with
    | none =>
      rw [hpath] at h
      cases h
    | some p =>
      rw [hpath] at h
      dsimp only at h
      rw [Store.run_bind_state] at h
      have hshown : c.shownPath = p := by rw [Channel.shownPath, hpath, Option.getD_some]
      rcases hfile : (openFile c.plan p : StateM Disk _).run disk with ⟨fault | _, disk₁⟩
      · rw [hfile] at h
        cases h
      rw [hfile] at h
      refine ⟨{ c with isOpen := true }, disk₁, ?_, h⟩
      rcases openFile_eq_ok hfile with ⟨hreading, rfl⟩ | ⟨hreading, hwrite⟩
      · exact .read hreading
      · refine .write ?_ (hshown ▸ hwrite)
        rwa [SeriesPlan.usesDisk, hreading, Bool.false_or] at huses

theorem opens_frame (h : Opens c disk c' disk') : disk.SameDirs disk' ∧ c'.key = c.key := by
  cases h with
  | idle h => exact ⟨.refl disk, rfl⟩
  | read h => exact ⟨.refl disk, rfl⟩
  | write hwriting hwrite => exact ⟨Disk.writeFile_sameDirs hwrite, rfl⟩

theorem opens_apart (hapart : Apart disk path key c) (h : Opens c disk c' disk') :
    Disk.Spares path disk disk' ∧ Apart disk' path key c' := by
  cases h with
  | idle h => exact ⟨.refl path disk, hapart⟩
  | read h => exact ⟨.refl path disk, hapart⟩
  | write hwriting hwrite =>
    have hspares := Disk.writeFile_spares hwrite (hapart.2 hwriting)
    exact ⟨hspares, hapart.sameDirs hspares.dirs⟩

theorem openFrom_apart {done rest : Channels} (hcs : ∀ c ∈ cs, Apart disk path key c)
    (h : (openFrom done (cs ++ rest) : StateM Disk _).run disk = ((cs', .ok ()), disk')) :
    ∃ opened disk₁, Disk.Spares path disk disk₁ ∧ (∀ c ∈ opened, Apart disk₁ path key c) ∧
      (openFrom (done ++ opened) rest : StateM Disk _).run disk₁ = ((cs', .ok ()), disk') := by
  induction cs generalizing disk done with
  | nil =>
    refine ⟨[], disk, .refl path disk, fun _ hc => absurd hc List.not_mem_nil, ?_⟩
    rwa [List.append_nil]
  | cons c cs ih =>
    obtain ⟨c', disk₁, hopens, h⟩ := openFrom_cons_ok h
    obtain ⟨hspares, hapart⟩ := opens_apart (hcs c List.mem_cons_self) hopens
    obtain ⟨opened, disk₂, hspares', hopened, h⟩ :=
      ih (fun o ho => (hcs o (List.mem_cons_of_mem _ ho)).sameDirs hspares.dirs) h
    refine ⟨c' :: opened, disk₂, hspares.trans hspares', fun o ho => ?_, ?_⟩
    · rcases List.mem_cons.1 ho with rfl | ho
      · exact hapart.sameDirs hspares'.dirs
      · exact hopened o ho
    · rwa [List.append_assoc] at h

/-! ### One channel among others -/

/-- Channels in which one stands among others that leave its variable and its file alone. -/
def Among (disk : Disk) (path : String) (c : Channel) (cs : Channels) : Prop :=
  ∃ before after, cs = before ++ c :: after ∧ ∀ o ∈ before ++ after, Apart disk path c.key o

theorem openAll_among (h : Among disk path c cs)
    (hopen : (openAll cs : StateM Disk _).run disk = ((cs', .ok ()), disk')) :
    ∃ c' disk₁ disk₂, Disk.Spares path disk disk₁ ∧ Opens c disk₁ c' disk₂ ∧
      Disk.Spares path disk₂ disk' ∧ Among disk' path c' cs' := by
  obtain ⟨before, after, rfl, hapart⟩ := h
  obtain ⟨opened, disk₁, hspares, hopened, hopen⟩ :=
    openFrom_apart (fun o ho => hapart o (List.mem_append_left _ ho)) hopen
  obtain ⟨c', disk₂, hopens, hopen⟩ := openFrom_cons_ok hopen
  obtain ⟨hdirs, hkey⟩ := opens_frame hopens
  rw [← List.append_nil after] at hopen
  obtain ⟨opened', disk₃, hspares', hopened', hopen⟩ := openFrom_apart (fun o ho =>
    (hapart o (List.mem_append_right _ ho)).sameDirs (hspares.dirs.trans hdirs)) hopen
  cases hopen
  refine ⟨c', disk₁, disk₂, hspares, hopens, hspares', opened, opened', by simp, fun o ho => ?_⟩
  rw [hkey]
  rcases List.mem_append.1 ho with ho | ho
  · exact (hopened o ho).sameDirs (hdirs.trans hspares'.dirs)
  · exact hopened' o ho

theorem save_among (h : Among disk path c cs)
    (hsave : (save s idx cs : StateM Disk _).run disk = ((cs', .ok ()), disk')) :
    ∃ data c' disk₁ disk₂, s.flat c.key = .ok data ∧ Disk.Spares path disk disk₁ ∧
      (saveOne c data.toList idx : StateM Disk _).run disk₁ = (.ok c', disk₂) ∧
      Disk.Spares path disk₂ disk' ∧ Among disk' path c' cs' := by
  obtain ⟨before, after, rfl, hapart⟩ := h
  obtain ⟨saved, disk₁, rest, hspares, hsaved, hrest, rfl⟩ :=
    save_apart (fun o ho => hapart o (List.mem_append_left _ ho)) hsave
  obtain ⟨data, c', disk₂, tail, hflat, hone, htail, rfl⟩ := save_cons_ok hrest
  obtain ⟨hdirs, hkey, -⟩ := saveOne_frame hone
  rw [← List.append_nil after] at htail
  obtain ⟨saved', disk₃, none, hspares', hsaved', hend, rfl⟩ := save_apart (fun o ho =>
    (hapart o (List.mem_append_right _ ho)).sameDirs (hspares.dirs.trans hdirs)) htail
  cases hend
  refine ⟨data, c', disk₁, disk₂, hflat, hspares, hone, hspares', saved, saved', by simp,
    fun o ho => ?_⟩
  rw [hkey]
  rcases List.mem_append.1 ho with ho | ho
  · exact (hsaved o ho).sameDirs (hdirs.trans hspares'.dirs)
  · exact hsaved' o ho

end Channels

end ProcessModel
