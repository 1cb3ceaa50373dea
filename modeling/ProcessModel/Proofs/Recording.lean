import ProcessModel.Proofs.ChannelFrames
import ProcessModel.Proofs.Playback
import ProcessModel.Proofs.Records

/-! Series that are written to a file and kept in memory.

A channel that writes and keeps its series has the same records in both places, whatever the other
channels do, as long as none of them writes to its file. -/

namespace ProcessModel

namespace Store

variable {d : Definition} {s s' : Store} {key : String} {slot slot' : Slot}

theorem Fits.cast_eq (hd : d.Built) (h : Fits d s) (h' : Fits d s') (hslot : s.get? key = some slot)
    (hslot' : s'.get? key = some slot') {x : Float} (hx : x ∈ slot'.data) :
    slot.element.cast x = x := by
  obtain ⟨p, v, hp, rfl, hfits⟩ := h.slots _ _ hslot
  have hfits' := h'.slot_fits hd hp hslot'
  rw [hfits.element]
  exact hfits'.cast x hx

theorem fill_of_cast_eq {data : Array Float} (h : ∀ x ∈ data, slot.element.cast x = x) :
    slot.fill slot.shape data = { slot with data } := by
  have hmap : data.map slot.element.cast = data := by
    rw [Array.map_congr_left h, Array.map_id']
  rw [Slot.fill, hmap]

end Store

namespace Disk

variable {d : Disk} {path : String} {bytes : ByteArray} {offset length : Nat}

theorem readAt_of_holds (h : d.Holds path bytes) (hlength : 0 < length)
    (hoffset : offset ≤ sizeLimit) (hsize : offset + length ≤ bytes.size) :
    ((FileAccess.readAt path offset length : StateM Disk _).run d).1 =
      .ok (bytes.extract offset (offset + length)) := by
  change (checkOffset offset >>= fun _ => _) = _
  rw [checkOffset, if_pos hoffset, ok_bind, if_neg (Nat.ne_of_gt hlength), h.content_eq, ok_bind,
    if_neg (Nat.not_lt.2 hsize)]
  rfl

theorem readAt_past_end (h : d.Holds path bytes) (hlength : 0 < length)
    (hsize : bytes.size < offset + length) :
    ∃ fault, ((FileAccess.readAt path offset length : StateM Disk _).run d).1 = .error fault := by
  change ∃ fault, (checkOffset offset >>= fun _ => _) = .error fault
  by_cases hoffset : offset ≤ sizeLimit
  · rw [checkOffset, if_pos hoffset, ok_bind, if_neg (Nat.ne_of_gt hlength), h.content_eq, ok_bind,
      if_pos hsize]
    exact ⟨_, rfl⟩
  · rw [checkOffset, if_neg hoffset]
    exact ⟨_, rfl⟩

theorem openRead_of_holds (h : d.Holds path bytes) :
    (FileAccess.openRead path : StateM Disk _).run d = (.ok (), d) := by
  obtain ⟨found, hfind, -⟩ := bind_eq_ok h.content_eq
  change (d.find path >>= fun _ => _, d) = _
  rw [hfind]
  rfl

end Disk

namespace Series

variable {length idx : Nat}

/-- Whether the place of a record in a file is a word of 64 bits. -/
def InRange (length idx : Nat) : Prop := idx * length * valueSize < Nat.pow 2 64

theorem recordStart_eq (h : InRange length idx) : recordStart length idx = length * idx := by
  have hlt : idx * length < Nat.pow 2 64 :=
    Nat.lt_of_le_of_lt (Nat.le_mul_of_pos_right _ (by decide)) h
  rw [recordStart, Nat.mod_eq_of_lt hlt, Nat.mul_comm]

theorem recordOffset_eq (h : InRange length idx) :
    recordOffset length idx = 8 * (length * idx) := by
  rw [recordOffset, Nat.mod_eq_of_lt h, valueSize, Nat.mul_comm, Nat.mul_comm idx]

end Series

/-- Write a series to a file and keep it in memory. -/
def SeriesPlan.recordTo (path : String) : SeriesPlan :=
  { writing := true, path := some path, ram := true }

namespace Channels

open ProcessModel.Series

variable {d : Definition} {c : Channel} {cs cs' : Channels} {disk disk' : Disk} {s : Store}
  {idx length : Nat} {key path : String} {records : List (Nat × List Float)}

/-- Whether a channel is the only one of its variable and no other one writes to a file. -/
structure Sole (disk : Disk) (path : String) (c : Channel) (cs : Channels) : Prop where
  mem : c ∈ cs
  keys : (cs.map (·.key)).Nodup
  apart : ∀ o ∈ cs, o.key ≠ c.key → o.plan.writing → ¬ disk.SameFile o.shownPath path

theorem Sole.among (h : Sole disk path c cs) : Among disk path c cs := by
  obtain ⟨before, after, rfl⟩ := List.append_of_mem h.mem
  have hkeys := h.keys
  rw [List.map_append, List.map_cons, List.nodup_middle, List.nodup_cons] at hkeys
  refine ⟨before, after, rfl, fun o ho => ?_⟩
  have hne : o.key ≠ c.key := fun heq =>
    hkeys.1 (by rw [← List.map_append, ← heq]; exact List.mem_map_of_mem ho)
  refine ⟨hne, h.apart o ?_ hne⟩
  rcases List.mem_append.1 ho with ho | ho
  · exact List.mem_append_left _ ho
  · exact List.mem_append_right _ (List.mem_cons_of_mem _ ho)

/-- Whether channels have saved records under a key: the file and the memory hold them. -/
structure Recorded (path key : String) (length : Nat) (records : List (Nat × List Float))
    (cs : Channels) (disk : Disk) : Prop where
  among : Among disk path
    { key, plan := .recordTo path, isOpen := true, series := ofSaves length records } cs
  holds : disk.Holds path (encode (ofSaves length records))
  lengths : ∀ e ∈ records, e.2.length = length
  offsets : ∀ e ∈ records, 8 * (length * e.1) ≤ Disk.sizeLimit

theorem recorded_of_openAll (hsole : Sole disk path { key, plan := .recordTo path } cs)
    (hopen : (openAll cs : StateM Disk _).run disk = ((cs', .ok ()), disk')) :
    Recorded path key length [] cs' disk' := by
  obtain ⟨c', disk₁, disk₂, -, hopens, hspares, hamong⟩ := openAll_among hsole.among hopen
  cases hopens with
  | idle h => cases h
  | read h => cases h
  | write _ hwrite =>
    exact ⟨hamong, hspares.holds _ (Disk.writeFile_holds hwrite),
      fun _ he => absurd he List.not_mem_nil, fun _ he => absurd he List.not_mem_nil⟩

theorem keepRecord_of_ram (h : c.plan.ram = true) (values : List Float) (idx : Nat) :
    keepRecord c values idx = { c with
      series := setRecord c.series (recordStart values.length idx) values } :=
  if_pos h

theorem Recorded.save (h : Recorded path key length records cs disk) (hlength : 0 < length)
    (hvalues : (s.valuesAt key).length = length) (hrange : InRange length idx)
    (hsave : (Channels.save s idx cs : StateM Disk _).run disk = ((cs', .ok ()), disk')) :
    Recorded path key length (records ++ [(idx, s.valuesAt key)]) cs' disk' := by
  obtain ⟨data, c', disk₁, disk₂, hflat, hspares, hone, hspares', hamong⟩ :=
    save_among h.among hsave
  have hdata : data.toList = s.valuesAt key := by
    obtain ⟨slot, hslot, hflat⟩ := bind_eq_ok hflat
    cases hflat
    have hget : s.get? key = some slot := Store.slot_eq_ok hslot
    rw [Store.valuesAt, hget]
    rfl
  obtain ⟨rfl, hoffset, old, hold, hwrite⟩ := saveOne_of_writing rfl hone
  rw [hdata, hvalues, recordOffset_eq hrange] at hoffset hwrite
  obtain rfl : encode (ofSaves length records) = old :=
    Except.ok.inj ((hspares.holds _ h.holds).content_eq.symm.trans hold)
  have hne : s.valuesAt key ≠ [] := List.length_pos_iff.1 (hvalues ▸ hlength)
  rw [patch_encode _ _ hne, setRecord_ofSaves h.lengths hvalues] at hwrite
  refine ⟨?_, hspares'.holds _ (Disk.writeFile_holds hwrite), fun e he => ?_, fun e he => ?_⟩
  · rwa [keepRecord_of_ram rfl, hdata, hvalues, recordStart_eq hrange,
      setRecord_ofSaves h.lengths hvalues] at hamong
  · rcases List.mem_append.1 he with he | he
    · exact h.lengths e he
    · cases List.mem_singleton.1 he
      exact hvalues
  · rcases List.mem_append.1 he with he | he
    · exact h.offsets e he
    · cases List.mem_singleton.1 he
      exact hoffset

def saveAll : List (Nat × Store) → Channels → StateM Disk (Channels × Except Error Unit)
  | [], cs => return (cs, .ok ())
  | (idx, s) :: rest, cs => do
    match ← Channels.save s idx cs with
    | (cs, .ok ()) => saveAll rest cs
    | (cs, .error e) => return (cs, .error e)

/-- The records that saving steps makes of a variable. -/
def recordsOf (key : String) (saves : List (Nat × Store)) : List (Nat × List Float) :=
  saves.map fun e => (e.1, e.2.valuesAt key)

variable {saves : List (Nat × Store)}

theorem Recorded.saveAll (h : Recorded path key length records cs disk) (hlength : 0 < length)
    (hstores : ∀ e ∈ saves, (e.2.valuesAt key).length = length ∧ InRange length e.1)
    (hsaves : (Channels.saveAll saves cs).run disk = ((cs', .ok ()), disk')) :
    Recorded path key length (records ++ recordsOf key saves) cs' disk' := by
  induction saves generalizing records cs disk with
  | nil =>
    cases hsaves
    rwa [recordsOf, List.map_nil, List.append_nil]
  | cons e saves ih =>
    obtain ⟨idx, s⟩ := e
    obtain ⟨hvalues, hrange⟩ := hstores _ List.mem_cons_self
    rw [Channels.saveAll, Store.run_bind_state] at hsaves
    rcases hsave : (Channels.save s idx cs : StateM Disk _).run disk with ⟨⟨cs₁, e | _⟩, disk₁⟩
    · rw [hsave] at hsaves
      cases hsaves
    · rw [hsave] at hsaves
      have hrest := ih (h.save hlength hvalues hrange hsave)
        (fun e he => hstores e (List.mem_cons_of_mem _ he)) hsaves
      rwa [List.append_assoc] at hrest

/-! ### Loading what was saved -/

/-- Whether channels play records back. Loading a step ends as it does without the channel of the
key; if it ends well, the variable has the record and nothing else is different. Steps behind the
last record are not loaded. -/
def PlaysBack (d : Definition) (key : String) (length : Nat) (records : List (Nat × List Float))
    (cs : Channels) (disk : Disk) : Prop :=
  ∀ s slot idx, Store.Reached d s → s.get? key = some slot → slot.data.size = length →
    InRange length idx →
    (idx < stepCount records →
      (loaded cs disk s idx).2 = (loaded (cs.filter (·.key != key)) disk s idx).2 ∧
      ((loaded cs disk s idx).2 = .ok () →
        (loaded cs disk s idx).1.flat key = .ok (recordAt length records idx).toArray ∧
        (loaded cs disk s idx).1 = (loaded (cs.filter (·.key != key)) disk s idx).1.put key
          { slot with data := (recordAt length records idx).toArray })) ∧
    (stepCount records ≤ idx → ∃ e, (loaded cs disk s idx).2 = .error e)

theorem Among.filter_key (h : Among disk path c cs) :
    ∃ before after, cs = before ++ c :: after ∧ (∀ o ∈ before ++ after, o.key ≠ c.key) ∧
      cs.filter (·.key != c.key) = before ++ after := by
  obtain ⟨before, after, rfl, hapart⟩ := h
  refine ⟨before, after, rfl, fun o ho => (hapart o ho).1, ?_⟩
  have hkept : ∀ o ∈ before ++ after, (o.key != c.key) = true := fun o ho =>
    bne_iff_ne.2 (hapart o ho).1
  rw [List.filter_append, List.filter_cons_of_neg (by simp), ← List.filter_append,
    List.filter_eq_self.2 hkept]

theorem cast_recordAt (hd : d.Built) {slot : Slot} (hsaves : ∀ e ∈ saves, Store.Reached d e.2)
    (hs : Store.Reached d s) (hslot : s.get? key = some slot) (idx : Nat) :
    ∀ x ∈ recordAt length (recordsOf key saves) idx, slot.element.cast x = x := by
  intro x hx
  rw [recordAt] at hx
  cases hsaved : saved? (recordsOf key saves) idx with
  | none =>
    rw [hsaved] at hx
    cases List.eq_of_mem_replicate hx
    cases slot.element <;> decide
  | some values =>
    rw [hsaved] at hx
    obtain ⟨e, he, heq⟩ := List.mem_map.1 (mem_of_saved? hsaved)
    cases heq
    rw [Option.getD_some, Store.valuesAt] at hx
    cases hsaved' : e.2.get? key with
    | none =>
      rw [hsaved'] at hx
      exact absurd hx List.not_mem_nil
    | some slot' =>
      rw [hsaved'] at hx
      exact (hs.fits hd).cast_eq hd ((hsaves e he).fits hd) hslot hsaved'
        (Array.mem_toList_iff.1 hx)

theorem playsBack_of_record (hd : d.Built) (hsaves : ∀ e ∈ saves, Store.Reached d e.2)
    (hamong : Among disk path c cs) (hlengths : ∀ e ∈ recordsOf c.key saves, e.2.length = length)
    (hrecord : ∀ idx, InRange length idx → idx < stepCount (recordsOf c.key saves) →
      ((record c length idx : StateM Disk _).run disk).1 =
        .ok (some (recordAt length (recordsOf c.key saves) idx)))
    (hpast : ∀ idx, InRange length idx → stepCount (recordsOf c.key saves) ≤ idx →
      ∃ e, ((record c length idx : StateM Disk _).run disk).1 = .error e) :
    PlaysBack d c.key length (recordsOf c.key saves) cs disk := by
  obtain ⟨before, after, rfl, hothers, hfilter⟩ := hamong.filter_key
  have hbefore := fun o ho => hothers o (List.mem_append_left after ho)
  have hafter := fun o ho => hothers o (List.mem_append_right before ho)
  intro s slot idx hs hslot hsize hrange
  subst hsize
  rw [hfilter]
  refine ⟨fun hlt => ?_, fun hle => ?_⟩
  · obtain ⟨hsame, hstore⟩ := loaded_record hbefore hafter hslot (hrecord idx hrange hlt)
      (length_recordAt hlengths idx)
    rw [Store.fill_of_cast_eq fun x hx =>
      cast_recordAt hd hsaves hs hslot idx x (List.mem_toArray.1 hx)] at hstore
    refine ⟨hsame, fun hok => ?_⟩
    have heq := hstore (hsame.symm.trans hok)
    refine ⟨?_, heq⟩
    rw [heq, Store.flat_put ((get?_loaded hothers disk s idx).trans hslot)]
  · obtain ⟨e, he⟩ := hpast idx hrange hle
    exact loaded_no_record hbefore hslot he

theorem record_of_ram (hlength : 0 < length) (hreading : c.plan.reading = false)
    (hram : c.plan.ram = true) (hseries : c.series = ofSaves length records)
    (hlengths : ∀ e ∈ records, e.2.length = length) (hrange : InRange length idx) :
    ((record c length idx : StateM Disk _).run disk).1 =
      if idx < stepCount records then .ok (some (recordAt length records idx))
      else .error (.run "load_data" (.noStep c.key idx)) := by
  rw [record, hreading, if_neg Bool.false_ne_true, hram, if_pos rfl, hseries,
    recordStart_eq hrange, getRecord?_ofSaves hlength hlengths]
  split_ifs <;> rfl

theorem record_eq_read (hreading : c.plan.reading = true) (hopen : c.isOpen = true)
    (length idx : Nat) (disk : Disk) :
    ((record c length idx : StateM Disk _).run disk).1 =
      (((FileAccess.readAt c.shownPath (recordOffset length idx) (length * valueSize) :
        StateM Disk _).run disk).1.mapError (Error.file c.shownPath)).map (some ∘ decode) := by
  rw [record, if_pos hreading, if_pos hopen, Store.run_bind_state]
  cases ((FileAccess.readAt c.shownPath (recordOffset length idx) (length * valueSize) :
    StateM Disk _).run disk).1 <;> rfl

theorem record_of_file (hlength : 0 < length) (hreading : c.plan.reading = true)
    (hopen : c.isOpen = true) (hholds : disk.Holds c.shownPath (encode (ofSaves length records)))
    (hlengths : ∀ e ∈ records, e.2.length = length)
    (hoffset : 8 * (length * idx) ≤ Disk.sizeLimit) (hrange : InRange length idx)
    (hidx : idx < stepCount records) :
    ((record c length idx : StateM Disk _).run disk).1 =
      .ok (some (recordAt length records idx)) := by
  have hrecord := getRecord?_ofSaves hlength hlengths idx
  rw [if_pos hidx, getRecord?] at hrecord
  split_ifs at hrecord with hlast
  have hsize : 8 * (length * idx) + 8 * length ≤ (encode (ofSaves length records)).size := by
    rw [size_encode]
    omega
  have hread := Disk.readAt_of_holds hholds (Nat.mul_pos (by decide) hlength) hoffset hsize
  rw [record_eq_read hreading hopen, recordOffset_eq hrange, valueSize, Nat.mul_comm length 8,
    hread, ← Option.some.inj hrecord, ← decode_extract]
  rfl

theorem record_past_end (hlength : 0 < length) (hreading : c.plan.reading = true)
    (hopen : c.isOpen = true) (hholds : disk.Holds c.shownPath (encode (ofSaves length records)))
    (hlengths : ∀ e ∈ records, e.2.length = length) (hrange : InRange length idx)
    (hidx : stepCount records ≤ idx) :
    ∃ e, ((record c length idx : StateM Disk _).run disk).1 = .error e := by
  have hsize : (encode (ofSaves length records)).size < 8 * (length * idx) + 8 * length := by
    have hle := Nat.mul_le_mul_left length hidx
    rw [size_encode, length_ofSaves hlengths]
    omega
  obtain ⟨fault, hread⟩ := Disk.readAt_past_end hholds (Nat.mul_pos (by decide) hlength) hsize
  rw [record_eq_read hreading hopen, recordOffset_eq hrange, valueSize, Nat.mul_comm length 8,
    hread]
  exact ⟨_, rfl⟩

/-- The offset of a record is one that files have, as the last one's is. -/
theorem Recorded.offset_le (h : Recorded path key length records cs disk)
    (hidx : idx < stepCount records) : 8 * (length * idx) ≤ Disk.sizeLimit := by
  obtain ⟨e, he, hle⟩ := exists_of_lt_stepCount hidx
  exact Nat.le_trans (Nat.mul_le_mul_left _ (Nat.mul_le_mul_left _ hle)) (h.offsets e he)

theorem Recorded.playsBack (hd : d.Built) (hlength : 0 < length)
    (hsaves : ∀ e ∈ saves, Store.Reached d e.2)
    (h : Recorded path key length (recordsOf key saves) cs disk) :
    PlaysBack d key length (recordsOf key saves) cs disk := by
  refine playsBack_of_record hd hsaves h.among h.lengths (fun idx hrange hlt => ?_)
    fun idx hrange hle => ?_
  · rw [record_of_ram hlength rfl rfl rfl h.lengths hrange, if_pos hlt]
  · rw [record_of_ram hlength rfl rfl rfl h.lengths hrange, if_neg (Nat.not_lt.2 hle)]
    exact ⟨_, rfl⟩

theorem Recorded.playsBack_file (hd : d.Built) (hlength : 0 < length)
    (hsaves : ∀ e ∈ saves, Store.Reached d e.2)
    (h : Recorded path key length (recordsOf key saves) cs disk) {cs₁ cs₂ : Channels}
    (hsole : Sole disk path { key, plan := .readFrom path } cs₁)
    (hopen : (openAll cs₁ : StateM Disk _).run disk = ((cs₂, .ok ()), disk')) :
    PlaysBack d key length (recordsOf key saves) cs₂ disk' := by
  obtain ⟨c', disk₁, disk₂, hspares, hopens, hspares', hamong⟩ := openAll_among hsole.among hopen
  cases hopens with
  | idle h => cases h
  | write h => cases h
  | read _ =>
    have hholds := hspares'.holds _ (hspares.holds _ h.holds)
    refine playsBack_of_record hd hsaves hamong h.lengths (fun idx hrange hlt => ?_)
      fun idx hrange hle => ?_
    · exact record_of_file hlength rfl rfl hholds h.lengths (h.offset_le hlt) hrange hlt
    · exact record_past_end hlength rfl rfl hholds h.lengths hrange hle

theorem Recorded.series? (h : Recorded path key length records cs disk) :
    cs.series? key = some (ofSaves length records) := by
  obtain ⟨before, after, rfl, hapart⟩ := h.among
  have hbefore : before.find? (fun c => c.key == key) = none :=
    List.find?_eq_none.2 fun o ho => by simpa using (hapart o (List.mem_append_left _ ho)).1
  rw [Channels.series?, List.find?_append, hbefore, Option.none_or,
    List.find?_cons_of_pos (by simp)]
  rfl

theorem Recorded.openAll_reader (h : Recorded path key length records cs disk) :
    (openAll [{ key, plan := .readFrom path }] : StateM Disk _).run disk =
      (([{ key, plan := .readFrom path, isOpen := true }], .ok ()), disk) := by
  have hfile : (openFile (.readFrom path) path : StateM Disk _).run disk = (.ok (), disk) :=
    Disk.openRead_of_holds h.holds
  change (openFile (.readFrom path) path >>= fun _ => _ : StateM Disk _).run disk = _
  rw [Store.run_bind_state, hfile]
  rfl

/-- A channel that writes to a file of its own and keeps its series in memory is opened, and steps
are saved in any order. Then the file holds the doubles that are in memory: one record for every
step up to the last one, with the values saved there last, or with zeros. Every step is loaded with
these values, from memory and from the file, and no step behind the last one is. -/
theorem series_recorded (hd : d.Built) (hlength : 0 < length) {cs cs₁ cs₂ : Channels}
    {disk disk₁ disk₂ : Disk} {saves : List (Nat × Store)}
    (hsole : Sole disk path { key, plan := .recordTo path } cs)
    (hopen : (openAll cs : StateM Disk _).run disk = ((cs₁, .ok ()), disk₁))
    (hsaves : (saveAll saves cs₁).run disk₁ = ((cs₂, .ok ()), disk₂))
    (hstores : ∀ e ∈ saves, Store.Reached d e.2 ∧ (e.2.valuesAt key).length = length ∧
      InRange length e.1) :
    ∃ series bytes, cs₂.series? key = some series ∧ disk₂.content path = .ok bytes ∧
      decode bytes = series ∧ bytes.size = 8 * series.length ∧
      series.length = length * stepCount (recordsOf key saves) ∧
      series = (List.range (stepCount (recordsOf key saves))).flatMap
        (recordAt length (recordsOf key saves)) ∧
      (∀ idx, (recordAt length (recordsOf key saves) idx).length = length) ∧
      PlaysBack d key length (recordsOf key saves) cs₂ disk₂ ∧
      (openAll [{ key, plan := .readFrom path }] : StateM Disk _).run disk₂ =
        (([{ key, plan := .readFrom path, isOpen := true }], .ok ()), disk₂) ∧
      ∀ cs₃ cs₄ disk₄, Sole disk₂ path { key, plan := .readFrom path } cs₃ →
        (openAll cs₃ : StateM Disk _).run disk₂ = ((cs₄, .ok ()), disk₄) →
        PlaysBack d key length (recordsOf key saves) cs₄ disk₄ := by
  have hrecorded := (recorded_of_openAll hsole hopen).saveAll hlength
    (fun e he => (hstores e he).2) hsaves
  have hreached := fun e he => (hstores e he).1
  exact ⟨_, _, hrecorded.series?, hrecorded.holds.content_eq, decode_encode _, size_encode _,
    length_ofSaves hrecorded.lengths, rfl, length_recordAt hrecorded.lengths,
    hrecorded.playsBack hd hlength hreached, hrecorded.openAll_reader,
    fun _ _ _ hsole' hopen' => hrecorded.playsBack_file hd hlength hreached hsole' hopen'⟩

def hatcheryChannels : Channels :=
  [{ key := "old_states.n", plan := .recordTo "data/old.bin" },
    { key := "states.n", plan := .recordTo "data/n.bin" }]

def hatcheryDisk : Disk := { entries := [(["data"], .dir 0)] }

def tanks (first second : Float) : Store :=
  Store.after Store.hatchery [.setArray "states.n" [2] #[first, second]]

def hatcherySaves : List (Nat × Store) :=
  [(2, tanks 7.0 8.0), (0, tanks 3.0 4.0), (2, tanks 5.0 6.0)]

theorem tanks_reached (first second : Float) : Store.Reached Store.hatchery (tanks first second) :=
  .change .fresh (.setArray "states.n" [2] #[first, second]) rfl

theorem hatchery_sole :
    Sole hatcheryDisk "data/n.bin" { key := "states.n", plan := .recordTo "data/n.bin" }
      hatcheryChannels := by
  have hold : hatcheryDisk.placeOf "data/old.bin" = .ok ["data", "old.bin"] :=
    toOption_eq_some (by decide +kernel)
  have hnew : hatcheryDisk.placeOf "data/n.bin" = .ok ["data", "n.bin"] :=
    toOption_eq_some (by decide +kernel)
  refine ⟨List.mem_cons_of_mem _ List.mem_cons_self, by decide, fun o ho hne _ hsame => ?_⟩
  rcases List.mem_cons.1 ho with rfl | ho
  · obtain ⟨place, h, h'⟩ := hsame
    cases hold.symm.trans h
    exact absurd (hnew.symm.trans h') (by simp)
  · exact hne (congrArg Channel.key (List.mem_singleton.1 ho))

theorem run_eq_of_toOption {r : (Channels × Except Error Unit) × Disk}
    (h : r.1.2.toOption = some ()) : r = ((r.1.1, .ok ()), r.2) := by
  rw [← toOption_eq_some h]

/-- The step that was never saved is read as zeros, the one that was saved twice as it was saved
last, and there is no fourth step. -/
theorem hatchery_series_recorded :
    ∃ cs₁ disk₁ cs₂ disk₂ bytes,
      (openAll hatcheryChannels : StateM Disk _).run hatcheryDisk = ((cs₁, .ok ()), disk₁) ∧
      (saveAll hatcherySaves cs₁).run disk₁ = ((cs₂, .ok ()), disk₂) ∧
      Sole hatcheryDisk "data/n.bin" { key := "states.n", plan := .recordTo "data/n.bin" }
        hatcheryChannels ∧
      (∀ e ∈ hatcherySaves, Store.Reached Store.hatchery e.2 ∧
        (e.2.valuesAt "states.n").length = 2 ∧ InRange 2 e.1) ∧
      cs₂.series? "states.n" = some [3.0, 4.0, 0.0, 0.0, 5.0, 6.0] ∧
      disk₂.content "data/n.bin" = .ok bytes ∧ decode bytes = [3.0, 4.0, 0.0, 0.0, 5.0, 6.0] ∧
      (loaded cs₂ disk₂ (tanks 0.0 0.0) 2).1.flat "states.n" = .ok #[5.0, 6.0] ∧
      ∃ e, (loaded cs₂ disk₂ (tanks 0.0 0.0) 3).2 = .error e := by
  have hstores : ∀ e ∈ hatcherySaves, Store.Reached Store.hatchery e.2 ∧
      (e.2.valuesAt "states.n").length = 2 ∧ InRange 2 e.1 := by
    intro e he
    simp only [hatcherySaves, List.mem_cons, List.not_mem_nil, or_false] at he
    rcases he with rfl | rfl | rfl <;>
      exact ⟨tanks_reached _ _, by decide +kernel, by unfold InRange; decide⟩
  have hopen := run_eq_of_toOption
    (r := (openAll hatcheryChannels : StateM Disk _).run hatcheryDisk) (by decide +kernel)
  have hsaves := run_eq_of_toOption (r := (saveAll hatcherySaves
    ((openAll hatcheryChannels : StateM Disk _).run hatcheryDisk).1.1).run
      ((openAll hatcheryChannels : StateM Disk _).run hatcheryDisk).2) (by decide +kernel)
  obtain ⟨series, bytes, hseries, hbytes, hdecode, -, -, hrecords, -, hplays, -, -⟩ :=
    series_recorded Store.hatchery_built (by decide) hatchery_sole hopen hsaves hstores
  obtain rfl : series = [3.0, 4.0, 0.0, 0.0, 5.0, 6.0] := hrecords.trans (by decide +kernel)
  have hslot : ((tanks 0.0 0.0).get? "states.n").map (·.data.size) = some 2 := by decide +kernel
  obtain ⟨slot, hslot, hsize⟩ := Option.map_eq_some_iff.1 hslot
  have hplays := fun idx => hplays _ slot idx (tanks_reached 0.0 0.0) hslot hsize
  have hrecord : recordAt 2 (recordsOf "states.n" hatcherySaves) 2 = [5.0, 6.0] := by
    decide +kernel
  obtain ⟨-, hload⟩ := (hplays 2 (by unfold InRange; decide)).1 (by decide +kernel)
  have hflat := (hload (toOption_eq_some (by decide +kernel))).1
  rw [hrecord] at hflat
  exact ⟨_, _, _, _, bytes, hopen, hsaves, hatchery_sole, hstores, hseries, hbytes, hdecode, hflat,
    (hplays 3 (by unfold InRange; decide)).2 (by decide +kernel)⟩

end Channels

end ProcessModel
