import Mathlib.Data.List.Nodup
import ProcessModel.Proofs.Storage

/-! Which channels have open files.

Whatever a file system answers, opening the channels either opens all that use the disk, or fails and
leaves all closed. Nothing else opens a file. -/

namespace ProcessModel

namespace Channel

/-- A channel once its file is open, if it uses one. -/
def opened (c : Channel) : Channel := if c.plan.usesDisk then ⟨c.key, c.plan, true, c.series⟩ else c

def outline (c : Channel) : Channel := ⟨c.key, c.plan, c.isOpen, []⟩

@[simp] theorem opened_key (c : Channel) : c.opened.key = c.key := by
  unfold opened
  split_ifs <;> rfl

@[simp] theorem opened_plan (c : Channel) : c.opened.plan = c.plan := by
  unfold opened
  split_ifs <;> rfl

@[simp] theorem close_opened (c : Channel) : c.opened.close = c.close := by
  unfold opened
  split_ifs <;> rfl

end Channel

inductive ChannelCall
  | configure (key : String) (plan : SeriesPlan)
  | openAll
  | close
  | setSeries (key : String) (values : List Float)
  | load (store : Store) (idx : Nat)
  | save (store : Store) (idx : Nat)

namespace Channels

variable {σ : Type} [FileAccess (StateM σ)]

def call (cs : Channels) : ChannelCall → StateM σ (Channels × Except Error Unit)
  | .configure key plan => return (cs.configure key plan, .ok ())
  | .openAll => cs.openAll
  | .close => return (cs.close, .ok ())
  | .setSeries key values =>
    match cs.setSeries key values with
    | .ok cs' => return (cs', .ok ())
    | .error e => return (cs, .error e)
  | .load store idx => do return (cs, (← cs.load store idx).2)
  | .save store idx => cs.save store idx

/-- The channels that calls can lead to, each made with whatever files there are by then. -/
inductive Called (σ : Type) [FileAccess (StateM σ)] : Channels → Prop
  | start : Called σ []
  | call {cs : Channels} (h : Called σ cs) (c : ChannelCall) (files : σ) :
      Called σ ((cs.call c : StateM σ _).run files).1.1

/-! ### Opening -/

/-- Why a channel that uses the disk cannot be opened: it has no path, or its file is refused. -/
inductive Refused (σ : Type) [FileAccess (StateM σ)] (c : Channel) : Error → Prop
  | noPath (hdisk : c.plan.usesDisk = true) (hpath : c.plan.path = none) :
      Refused σ c (.noPath c.key)
  | file {path : String} {fault : FileFault} {files files' : σ} (hdisk : c.plan.usesDisk = true)
      (hpath : c.plan.path = some path)
      (hopen : (openFile c.plan path : StateM σ _).run files = (.error fault, files')) :
      Refused σ c (.file path fault)

theorem openFrom_cons (done : Channels) (c : Channel) (cs : Channels) (files : σ) :
    (∃ files', (openFrom done (c :: cs) : StateM σ _).run files =
        (openFrom (done ++ [c.opened]) cs : StateM σ _).run files') ∨
      ∃ e files', (openFrom done (c :: cs) : StateM σ _).run files =
        ((close (done ++ c :: cs), .error e), files') ∧ Refused σ c e := by
  rw [openFrom]
  cases hdisk : c.plan.usesDisk with
  | false =>
    have hidle : c.opened = c := by rw [Channel.opened, hdisk, if_neg Bool.false_ne_true]
    rw [if_neg Bool.false_ne_true, hidle]
    exact .inl ⟨files, rfl⟩
  | true =>
    have hopened : c.opened = ⟨c.key, c.plan, true, c.series⟩ := by
      rw [Channel.opened, hdisk, if_pos rfl]
    rw [if_pos rfl, hopened]
    cases hpath : c.plan.path with
    | none => exact .inr ⟨_, files, rfl, .noPath hdisk hpath⟩
    | some path =>
      dsimp only
      rw [Store.run_bind_state]
      rcases hopen : (openFile c.plan path : StateM σ _).run files with ⟨fault | ⟨⟩, files'⟩
      · exact .inr ⟨_, files', rfl, .file hdisk hpath hopen⟩
      · exact .inl ⟨files', rfl⟩

theorem openFrom_cases (before cs : Channels) (files : σ) :
    (∃ files', (openFrom (before.map Channel.opened) cs : StateM σ _).run files =
        (((before ++ cs).map Channel.opened, .ok ()), files')) ∨
      ∃ e files', (openFrom (before.map Channel.opened) cs : StateM σ _).run files =
        ((close (before ++ cs), .error e), files') ∧ ∃ c ∈ cs, Refused σ c e := by
  induction cs generalizing before files with
  | nil => exact .inl ⟨files, by rw [List.append_nil]; rfl⟩
  | cons c cs ih =>
    rcases openFrom_cons (before.map Channel.opened) c cs files with ⟨files', hrun⟩ |
      ⟨e, files', hrun, hrefused⟩
    · have h := ih (before ++ [c]) files'
      rw [List.map_append, List.map_singleton, ← hrun, List.append_assoc,
        List.singleton_append] at h
      refine h.imp_right ?_
      rintro ⟨e, files', hrun, c', hc', hrefused⟩
      exact ⟨e, files', hrun, c', List.mem_cons_of_mem _ hc', hrefused⟩
    · have hclose : close (before.map Channel.opened ++ c :: cs) = close (before ++ c :: cs) := by
        simp [close, Function.comp_def]
      exact .inr ⟨e, files', hclose ▸ hrun, c, List.mem_cons_self, hrefused⟩

/-- Opening opens every channel that uses the disk, or closes all because one of them is refused. -/
theorem openAll_cases (cs : Channels) (files : σ) :
    (∃ files', (openAll cs : StateM σ _).run files = ((cs.map Channel.opened, .ok ()), files')) ∨
      ∃ e files', (openAll cs : StateM σ _).run files = ((cs.close, .error e), files') ∧
        ∃ c ∈ cs, Refused σ c e :=
  openFrom_cases [] cs files

/-! ### What every call keeps -/

/-- At most one channel for each variable, and open files only where the disk is used. -/
structure Coherent (cs : Channels) : Prop where
  keys : (cs.map (·.key)).Nodup
  opened : ∀ c ∈ cs, c.plan.usesDisk = false → c.isOpen = false

variable {cs cs' : Channels}

theorem Coherent.of_outlines (h : cs.Coherent)
    (houtlines : cs'.map Channel.outline = cs.map Channel.outline) : cs'.Coherent := by
  have hkeys : cs'.map (·.key) = cs.map (·.key) := by
    simpa [Function.comp_def, Channel.outline] using congrArg (List.map (·.key)) houtlines
  refine ⟨hkeys ▸ h.keys, fun c hc hdisk => ?_⟩
  obtain ⟨c', hc', heq⟩ :=
    List.mem_map.1 (houtlines ▸ List.mem_map_of_mem (f := Channel.outline) hc)
  have hplan : c'.outline.plan = c.outline.plan := congrArg _ heq
  have hopen : c'.outline.isOpen = c.outline.isOpen := congrArg _ heq
  refine hopen.symm.trans ?_
  exact h.opened c' hc' (hplan ▸ hdisk)

theorem coherent_nil : Coherent [] := ⟨.nil, fun _ hc => absurd hc List.not_mem_nil⟩

theorem Coherent.configure (h : cs.Coherent) (key : String) (plan : SeriesPlan) :
    (cs.configure key plan).Coherent := by
  constructor
  · rw [Channels.configure, List.map_append, List.map_singleton]
    refine (h.keys.sublist (List.filter_sublist.map _)).append (List.nodup_singleton _) ?_
    simp
  · intro c hc hdisk
    rcases List.mem_append.1 hc with hc | hc
    · exact h.opened c (List.mem_filter.1 hc).1 hdisk
    · rw [List.mem_singleton.1 hc]

theorem Coherent.close (h : cs.Coherent) : cs.close.Coherent := by
  constructor
  · rw [Channels.close, List.map_map]
    exact h.keys
  · intro c hc _
    obtain ⟨c, -, rfl⟩ := List.mem_map.1 hc
    rfl

theorem Coherent.openAll (h : cs.Coherent) (files : σ) :
    ((openAll cs : StateM σ _).run files).1.1.Coherent := by
  rcases openAll_cases cs files with ⟨files', hrun⟩ | ⟨e, files', hrun, -⟩ <;> rw [hrun]
  · refine ⟨by simpa [Function.comp_def] using h.keys, fun c hc hdisk => ?_⟩
    obtain ⟨c, hmem, rfl⟩ := List.mem_map.1 hc
    rw [Channel.opened_plan] at hdisk
    rw [Channel.opened, hdisk, if_neg Bool.false_ne_true]
    exact h.opened c hmem hdisk
  · exact h.close

theorem setSeries_outlines {key : String} {values : List Float}
    (h : cs.setSeries key values = .ok cs') :
    cs'.map Channel.outline = cs.map Channel.outline := by
  unfold setSeries at h
  split_ifs at h
  cases h
  rw [List.map_map]
  refine List.map_congr_left fun c _ => ?_
  simp only [Function.comp_apply]
  split_ifs <;> rfl

theorem saveOne_outline {c c' : Channel} {values : List Float} {idx : Nat} {files files' : σ}
    (h : (saveOne c values idx : StateM σ _).run files = (.ok c', files')) :
    c'.outline = c.outline := by
  rw [saveOne, Store.run_bind_state] at h
  split at h
  · cases h
  · by_cases hram : c.plan.ram = true
    · rw [if_pos hram] at h
      cases h
      rfl
    · rw [if_neg hram] at h
      cases h
      rfl

theorem save_outlines (store : Store) (idx : Nat) (cs : Channels) (files : σ) :
    ((save store idx cs : StateM σ _).run files).1.1.map Channel.outline =
      cs.map Channel.outline := by
  induction cs generalizing files with
  | nil => rfl
  | cons c cs ih =>
    rw [save]
    cases store.flat c.key with
    | error e => rfl
    | ok values =>
      dsimp only
      rw [Store.run_bind_state]
      rcases hone : (saveOne c values.toList idx : StateM σ _).run files with ⟨e | c', files'⟩
      · rfl
      · dsimp only
        rw [Store.run_bind_state, List.map_cons, ← saveOne_outline hone, ← ih files']
        rfl

theorem Coherent.call (h : cs.Coherent) (c : ChannelCall) (files : σ) :
    ((cs.call c : StateM σ _).run files).1.1.Coherent := by
  cases c with
  | configure key plan => exact h.configure key plan
  | openAll => exact h.openAll files
  | close => exact h.close
  | setSeries key values =>
    rw [Channels.call]
    cases hset : cs.setSeries key values with
    | ok cs' => exact h.of_outlines (setSeries_outlines hset)
    | error e => exact h
  | load store idx => exact h
  | save store idx => exact h.of_outlines (save_outlines store idx cs files)

theorem Called.coherent (h : Called σ cs) : cs.Coherent := by
  induction h with
  | start => exact coherent_nil
  | call _ c files ih => exact ih.call c files

/-- After any calls, with any files that come and go between them, there is at most one channel for
each variable and no open file where the disk is not used. Opening the channels then leaves them as
they are but for their files: when it fails, none of them is open, be it that one has no path or that
its file is refused; when it succeeds, exactly those are that read from the disk or write to it. -/
theorem open_all_or_nothing (h : Called σ cs) :
    (cs.map (·.key)).Nodup ∧
    (∀ c ∈ cs, c.plan.reading = false → c.plan.writing = false → c.isOpen = false) ∧
    ∀ (files : σ) (cs' : Channels) (r : Except Error Unit) (files' : σ),
      (openAll cs : StateM σ _).run files = ((cs', r), files') →
      cs'.close = cs.close ∧
      (∀ e, r = .error e → (∀ c ∈ cs', c.isOpen = false) ∧ ∃ c ∈ cs, Refused σ c e) ∧
      (r = .ok () →
        ∀ c ∈ cs', c.isOpen = true ↔ c.plan.reading = true ∨ c.plan.writing = true) := by
  have hcoherent := h.coherent
  refine ⟨hcoherent.keys, fun c hc hreading hwriting => hcoherent.opened c hc ?_, ?_⟩
  · rw [SeriesPlan.usesDisk, hreading, hwriting]
    rfl
  intro files cs' r files' hopen
  rcases openAll_cases cs files with ⟨files₁, hrun⟩ | ⟨e, files₁, hrun, hrefused⟩
  · cases hrun.symm.trans hopen
    refine ⟨by simp [close, Function.comp_def], fun e he => (by cases he), fun _ c hc => ?_⟩
    obtain ⟨c, hmem, rfl⟩ := List.mem_map.1 hc
    rw [Channel.opened_plan, ← Bool.or_eq_true, ← SeriesPlan.usesDisk]
    cases hdisk : c.plan.usesDisk with
    | true => simp [Channel.opened, hdisk]
    | false => simp [Channel.opened, hdisk, hcoherent.opened c hmem hdisk]
  · cases hrun.symm.trans hopen
    refine ⟨by simp [close, Channel.close], fun e' he => ?_, fun hok => (by cases hok)⟩
    cases he
    refine ⟨fun c hc => ?_, hrefused⟩
    obtain ⟨c, -, rfl⟩ := List.mem_map.1 hc
    rfl

def gaugeChannels : Channels :=
  [{ key := "fluxes.q", plan := .writeTo "q.bin", isOpen := true },
    { key := "inputs.p", plan := .readFrom "p.bin" }]

/-- The missing file closes the one that was open. -/
theorem gauge_opens_nothing :
    Called Disk gaugeChannels ∧
      ((openAll gaugeChannels : StateM Disk _).run {}).1 =
        (gaugeChannels.close, .error (.file "p.bin" .notFound)) ∧
      ∀ c ∈ gaugeChannels.close, c.isOpen = false := by
  have hplanned : Called Disk [{ key := "fluxes.q", plan := .writeTo "q.bin" }] :=
    .call .start (.configure "fluxes.q" (.writeTo "q.bin")) ({} : Disk)
  have hopened : Called Disk [{ key := "fluxes.q", plan := .writeTo "q.bin", isOpen := true }] :=
    .call hplanned .openAll ({} : Disk)
  have hcalled : Called Disk gaugeChannels :=
    .call hopened (.configure "inputs.p" (.readFrom "p.bin")) ({} : Disk)
  have hrun : ((openAll gaugeChannels : StateM Disk _).run {}).1 =
      (gaugeChannels.close, .error (.file "p.bin" .notFound)) := rfl
  obtain ⟨-, -, hopen⟩ := open_all_or_nothing hcalled
  obtain ⟨-, hfails, -⟩ := hopen {} _ _ _ (Prod.ext hrun rfl)
  exact ⟨hcalled, hrun, (hfails _ rfl).1⟩

end Channels

end ProcessModel
