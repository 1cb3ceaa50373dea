import Mathlib.Data.List.Basic
import ProcessModel.Proofs.Bytes

/-! What a series holds after records were saved.

A series of records of one length is one record for every step up to the last one that was saved:
what was saved there last, or zeros. Setting one more record keeps it that way. -/

namespace ProcessModel

namespace Series

def saved? (saves : List (Nat × List Float)) (idx : Nat) : Option (List Float) :=
  (saves.reverse.find? fun e => e.1 == idx).map (·.2)

def stepCount (saves : List (Nat × List Float)) : Nat :=
  saves.foldr (fun e n => max (e.1 + 1) n) 0

/-- The record of a step: what was last saved there, or zeros. -/
def recordAt (length : Nat) (saves : List (Nat × List Float)) (idx : Nat) : List Float :=
  (saved? saves idx).getD (List.replicate length 0.0)

/-- One record for every step up to the last one that was saved. -/
def ofSaves (length : Nat) (saves : List (Nat × List Float)) : List Float :=
  (List.range (stepCount saves)).flatMap (recordAt length saves)

variable {length idx : Nat} {saves : List (Nat × List Float)} {values : List Float}

theorem saved?_concat (saves : List (Nat × List Float)) (e : Nat × List Float) (idx : Nat) :
    saved? (saves ++ [e]) idx = if e.1 = idx then some e.2 else saved? saves idx := by
  rw [saved?, List.reverse_concat, List.find?_cons]
  split_ifs with h
  · rw [beq_iff_eq.2 h]
    rfl
  · rw [beq_eq_false_iff_ne.2 h]
    rfl

theorem recordAt_concat (saves : List (Nat × List Float)) (e : Nat × List Float) (idx : Nat) :
    recordAt length (saves ++ [e]) idx = if e.1 = idx then e.2 else recordAt length saves idx := by
  rw [recordAt, saved?_concat]
  split_ifs <;> rfl

theorem stepCount_concat (saves : List (Nat × List Float)) (e : Nat × List Float) :
    stepCount (saves ++ [e]) = max (stepCount saves) (e.1 + 1) := by
  unfold stepCount
  induction saves with
  | nil => simp
  | cons e' saves ih => rw [List.cons_append, List.foldr_cons, ih, List.foldr_cons, Nat.max_assoc]

theorem mem_of_saved? (h : saved? saves idx = some values) : (idx, values) ∈ saves := by
  obtain ⟨e, hfind, rfl⟩ := Option.map_eq_some_iff.1 h
  have hidx := List.find?_some hfind
  obtain rfl := eq_of_beq hidx
  exact List.mem_reverse.1 (List.mem_of_find?_eq_some hfind)

theorem lt_stepCount {e : Nat × List Float} (h : e ∈ saves) : e.1 < stepCount saves := by
  unfold stepCount
  induction saves with
  | nil => cases h
  | cons e' saves ih =>
    rw [List.foldr_cons]
    rcases List.mem_cons.1 h with rfl | h
    · exact Nat.le_max_left _ _
    · exact Nat.lt_of_lt_of_le (ih h) (Nat.le_max_right _ _)

theorem exists_of_lt_stepCount (h : idx < stepCount saves) : ∃ e ∈ saves, idx ≤ e.1 := by
  unfold stepCount at h
  induction saves with
  | nil => cases h
  | cons e saves ih =>
    rw [List.foldr_cons] at h
    rcases Nat.lt_or_ge idx (e.1 + 1) with hlt | hge
    · exact ⟨e, List.mem_cons_self, Nat.le_of_lt_succ hlt⟩
    · obtain ⟨e', he', hle⟩ := ih (by omega)
      exact ⟨e', List.mem_cons_of_mem _ he', hle⟩

theorem saved?_of_stepCount_le (h : stepCount saves ≤ idx) : saved? saves idx = none := by
  cases hsaved : saved? saves idx with
  | none => rfl
  | some values =>
    have hlt := lt_stepCount (mem_of_saved? hsaved)
    exact absurd h (Nat.not_le.2 hlt)

theorem length_recordAt (h : ∀ e ∈ saves, e.2.length = length) (idx : Nat) :
    (recordAt length saves idx).length = length := by
  unfold recordAt
  cases hsaved : saved? saves idx with
  | none => exact List.length_replicate
  | some values => exact h _ (mem_of_saved? hsaved)

theorem length_ofSaves (h : ∀ e ∈ saves, e.2.length = length) :
    (ofSaves length saves).length = length * stepCount saves := by
  rw [ofSaves, length_flatMap fun idx _ => length_recordAt h idx, List.length_range]

theorem range_eq_append_cons {n : Nat} (h : idx < n) :
    List.range n = List.range idx ++ idx :: (List.range n).drop (idx + 1) := by
  have hdrop : (List.range n).drop idx = idx :: (List.range n).drop (idx + 1) := by
    rw [List.drop_eq_getElem_cons (by rwa [List.length_range]), List.getElem_range]
  have htake : (List.range n).take idx = List.range idx := by
    rw [List.take_range, Nat.min_eq_left (Nat.le_of_lt h)]
  rw [← hdrop, ← htake, List.take_append_drop]

theorem flatMap_recordAt (n : Nat) :
    (List.range n).flatMap (recordAt length saves) =
      ((List.range (stepCount saves)).take n).flatMap (recordAt length saves) ++
        List.replicate (length * (n - stepCount saves)) 0.0 := by
  rcases Nat.le_total n (stepCount saves) with hle | hle
  · rw [Nat.sub_eq_zero_of_le hle, Nat.mul_zero, List.replicate_zero, List.append_nil,
      List.take_range, Nat.min_eq_left hle]
  · obtain ⟨gap, rfl⟩ := Nat.exists_eq_add_of_le hle
    have hzeros : ∀ i, recordAt length saves (stepCount saves + i) = List.replicate length 0.0 :=
      fun i => by rw [recordAt, saved?_of_stepCount_le (Nat.le_add_right _ _), Option.getD_none]
    rw [List.range_add, List.flatMap_append, List.take_of_length_le (by simp), List.flatMap_map,
      Nat.add_sub_cancel_left]
    congr 1
    refine List.eq_replicate_iff.2 ⟨?_, fun x hx => ?_⟩
    · rw [length_flatMap fun i _ => by rw [hzeros, List.length_replicate], List.length_range]
    · obtain ⟨i, -, hx⟩ := List.mem_flatMap.1 hx
      rw [hzeros] at hx
      exact List.eq_of_mem_replicate hx

theorem setRecord_ofSaves (h : ∀ e ∈ saves, e.2.length = length)
    (hvalues : values.length = length) (idx : Nat) :
    setRecord (ofSaves length saves) (length * idx) values =
      ofSaves length (saves ++ [(idx, values)]) := by
  have hbehind : (List.range (max (stepCount saves) (idx + 1))).drop (idx + 1) =
      (List.range (stepCount saves)).drop (idx + 1) := by
    rw [List.range_eq_range', List.range_eq_range', List.drop_range', List.drop_range']
    congr 1
    omega
  have hlt : idx < max (stepCount saves) (idx + 1) := Nat.le_max_right _ _
  rw [setRecord_eq, length_ofSaves h, hvalues, ← Nat.mul_sub, ← Nat.mul_succ, ofSaves,
    take_flatMap fun i _ => length_recordAt h i, drop_flatMap fun i _ => length_recordAt h i,
    ← flatMap_recordAt, ofSaves, stepCount_concat, range_eq_append_cons hlt, hbehind,
    List.flatMap_append, List.flatMap_cons, recordAt_concat, if_pos rfl, List.append_assoc]
  congr 1
  · refine List.flatMap_congr fun i hi => ?_
    rw [recordAt_concat, if_neg (Nat.ne_of_gt (List.mem_range.1 hi))]
  · congr 1
    refine List.flatMap_congr fun i hi => ?_
    obtain ⟨j, hj, rfl⟩ := List.mem_iff_getElem.1 hi
    rw [recordAt_concat, if_neg]
    rw [List.getElem_drop, List.getElem_range]
    omega

theorem getRecord?_ofSaves (hlength : 0 < length) (h : ∀ e ∈ saves, e.2.length = length)
    (idx : Nat) :
    getRecord? (ofSaves length saves) (length * idx) length =
      if idx < stepCount saves then some (recordAt length saves idx) else none := by
  have hiff : length * idx + length ≤ length * stepCount saves ↔ idx < stepCount saves := by
    rw [← Nat.mul_succ, Nat.mul_le_mul_left_iff hlength, Nat.succ_le_iff]
  rw [getRecord?, length_ofSaves h]
  by_cases hlt : idx < stepCount saves
  · rw [if_pos (hiff.2 hlt), if_pos hlt, ofSaves, drop_flatMap fun i _ => length_recordAt h i,
      List.drop_eq_getElem_cons (by rwa [List.length_range]), List.flatMap_cons,
      List.getElem_range, List.take_left' (length_recordAt h idx)]
  · rw [if_neg (mt hiff.1 hlt), if_neg hlt]

end Series

end ProcessModel
