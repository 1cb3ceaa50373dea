import ProcessModel.Proofs.Bounds

/-! Two loops with one body.

A loop is given by what happens at its head, which decides whether there is one more turn. Two loops
that have the same body and start in the same frame run in lockstep as long as their heads do the
same. -/

namespace ProcessModel

namespace Interpreter

variable {ι κ : Type}

/-- Run `body` after the head `head i`, then after the head it names, and so on. A head that names
no other one ends the loop. -/
def turns (head : ι → Exec (Option ι)) (body : Exec Flow) : Nat → ι → Exec Flow
  | 0, _ => throw .exhausted
  | k + 1, i => do
    match ← head i with
    | none => return .next
    | some j =>
      match ← body with
      | .ret v => return .ret v
      | .next => turns head body k j

def runs (A : Nat → ι → Exec (Option ι)) (body : Nat → Exec Flow) (i : ι) (k : Nat) : Exec Flow :=
  turns (A k) (body k) k i

/-- What a loop does after a head: the end, or its body and the turns from the next head on. -/
def after (body : Exec Flow) (rest : ι → Exec Flow) : Option ι → Exec Flow
  | none => return .next
  | some j => do
    match ← body with
    | .ret v => return .ret v
    | .next => rest j

theorem turns_succ (head : ι → Exec (Option ι)) (body : Exec Flow) (k : Nat) (i : ι) :
    turns head body (k + 1) i = head i >>= after body (turns head body k) := by
  rw [turns]
  refine congrArg (head i >>= ·) (funext fun next => ?_)
  cases next <;> rfl

theorem after_refines {body body' : Exec Flow} {rest rest' : ι → Exec Flow}
    (hb : Refines body body') (hr : ∀ j, Refines (rest j) (rest' j)) (next : Option ι) :
    Refines (after body rest next) (after body' rest' next) := by
  cases next with
  | none => exact .refl _
  | some j =>
    refine .bind hb fun flow => ?_
    cases flow with
    | ret v => exact .refl _
    | next => exact hr j

theorem turns_refines {head head' : ι → Exec (Option ι)} {body body' : Exec Flow}
    (hh : ∀ i, Refines (head i) (head' i)) (hb : Refines body body') {n k : Nat} (hn : n ≤ k)
    (i : ι) : Refines (turns head body n i) (turns head' body' k i) := by
  induction n generalizing k i with
  | zero => exact refines_exhausted _
  | succ n ih =>
    obtain ⟨k, rfl⟩ : ∃ j, k = j + 1 := ⟨k - 1, by omega⟩
    rw [turns_succ, turns_succ]
    exact .bind (hh i) (after_refines hb fun j => ih (by omega) j)

section Loop

variable {A : Nat → ι → Exec (Option ι)} {body : Nat → Exec Flow}

/-- More of the bound changes nothing of what the heads and the body of a loop end with. -/
structure Steadies (A : Nat → ι → Exec (Option ι)) (body : Nat → Exec Flow) : Prop where
  head : ∀ i, Grows fun k => A k i
  body : Grows body

theorem Steadies.runs (hA : Steadies A body) (i : ι) : Grows (runs A body i) :=
  fun n k hn => turns_refines (fun i => hA.head i n k hn) (hA.body n k hn) hn i

theorem Steadies.after (hA : Steadies A body) (next : Option ι) :
    Grows fun k => after (body k) (fun j => Interpreter.runs A body j k) next :=
  fun n k hn => after_refines (hA.body n k hn) (fun j => hA.runs j n k hn) next

variable {i : ι} {g : Frame} {r : Except Error Flow × Frame}

theorem ends_runs_iff (hA : Steadies A body) :
    Ends (runs A body i) g r ↔
      Ends (fun k => A k i >>= after (body k) fun j => runs A body j k) g r := by
  constructor
  · rintro ⟨n, hn⟩
    refine ⟨n, Refines.effect (fun s => ?_) hn⟩
    cases n with
    | zero => exact .inl rfl
    | succ n =>
      rw [runs, turns_succ]
      refine Refines.bind (.refl _) (after_refines (.refl _) fun j => ?_) s
      exact turns_refines (fun _ => .refl _) (.refl _) n.le_succ j
  · rintro ⟨n, hn⟩
    refine ⟨n + 1, Refines.effect (fun s => ?_) hn⟩
    rw [runs, turns_succ]
    have hle := n.le_succ
    refine Refines.bind (hA.head i n _ hle) (after_refines (hA.body n _ hle) fun j => ?_) s
    exact turns_refines (fun i => hA.head i n _ hle) (hA.body n _ hle) (Nat.le_refl n) j

variable {h : Frame}

variable (hA : Steadies A body)
include hA

theorem Ends.of_head {next : Option ι} (hi : Ends (fun k => A k i) g (.ok next, h))
    (hr : Ends (fun k => after (body k) (fun j => runs A body j k) next) h r) :
    Ends (runs A body i) g r :=
  (ends_runs_iff hA).2 (hi.bind (hA.head i) hA.after hr)

theorem Ends.of_head_failed {e : Error} (hi : Ends (fun k => A k i) g (.error e, h)) :
    Ends (runs A body i) g (.error e, h) :=
  (ends_runs_iff hA).2 hi.bind_error

theorem Ends.of_body {j : ι} {h' : Frame} (hb : Ends body h (.ok .next, h'))
    (hr : Ends (runs A body j) h' r) :
    Ends (fun k => after (body k) (fun j => runs A body j k) (some j)) h r := by
  refine Ends.bind hA.body (fun flow => ?_) hb hr
  cases flow with
  | ret v => exact .const _
  | next => exact hA.runs j

theorem ends_runs_turn {j : ι} {h' : Frame} (hi : Ends (fun k => A k i) g (.ok (some j), h))
    (hb : Ends body h (.ok .next, h')) : Ends (runs A body i) g r ↔ Ends (runs A body j) h' r := by
  constructor
  · intro hr
    obtain ⟨n, hn⟩ := (ends_runs_iff hA).1 hr
    rcases effect_bind_cases hn with ⟨e, s, hs, -⟩ | ⟨next, s, hs, hrest⟩
    · cases Ends.unique (hA.head i) ⟨n, hs⟩ hi
    · cases Ends.unique (hA.head i) ⟨n, hs⟩ hi
      rcases effect_bind_cases hrest with ⟨e, s, hs, -⟩ | ⟨flow, s, hs, hflow⟩
      · cases Ends.unique hA.body ⟨n, hs⟩ hb
      · cases Ends.unique hA.body ⟨n, hs⟩ hb
        exact ⟨n, hflow⟩
  · exact fun hr => .of_head hA hi (.of_body hA hb hr)

end Loop

section Pair

/-- At a head that both loops stand before, both fail alike, both end, or both go on, in the same
frame. -/
def InStep (A : Nat → ι → Exec (Option ι)) (B : Nat → κ → Exec (Option κ)) (i : ι) (j : κ)
    (g : Frame) : Prop :=
  (∃ e h, Ends (fun k => A k i) g (.error e, h) ∧ Ends (fun k => B k j) g (.error e, h)) ∨
  (∃ h, Ends (fun k => A k i) g (.ok none, h) ∧ Ends (fun k => B k j) g (.ok none, h)) ∨
  ∃ i' j' h, Ends (fun k => A k i) g (.ok (some i'), h) ∧ Ends (fun k => B k j) g (.ok (some j'), h)

/-- The heads that two loops reach with the same frames, turn by turn. -/
inductive Together (A : Nat → ι → Exec (Option ι)) (B : Nat → κ → Exec (Option κ))
    (body : Nat → Exec Flow) (i₀ : ι) (j₀ : κ) (g₀ : Frame) : ι → κ → Frame → Prop
  | start : Together A B body i₀ j₀ g₀ i₀ j₀ g₀
  | turn {i i' : ι} {j j' : κ} {g h h' : Frame} : Together A B body i₀ j₀ g₀ i j g →
    Ends (fun k => A k i) g (.ok (some i'), h) → Ends (fun k => B k j) g (.ok (some j'), h) →
    Ends body h (.ok .next, h') → Together A B body i₀ j₀ g₀ i' j' h'

variable {A : Nat → ι → Exec (Option ι)} {B : Nat → κ → Exec (Option κ)} {body : Nat → Exec Flow}
  {i i₀ : ι} {j j₀ : κ} {g g₀ : Frame}

theorem InStep.symm (h : InStep A B i j g) : InStep B A j i g := by
  rcases h with ⟨e, h, hA, hB⟩ | ⟨h, hA, hB⟩ | ⟨i', j', h, hA, hB⟩
  · exact .inl ⟨e, h, hB, hA⟩
  · exact .inr (.inl ⟨h, hB, hA⟩)
  · exact .inr (.inr ⟨j', i', h, hB, hA⟩)

theorem inStep_iff_of_ends (hA : Grows fun k => A k i) {next : Option ι} {t : Frame}
    (h : Ends (fun k => A k i) g (.ok next, t)) :
    InStep A B i j g ↔ ∃ y, Ends (fun k => B k j) g (.ok y, t) ∧ y.isSome = next.isSome := by
  constructor
  · rintro (⟨e, t', hi, -⟩ | ⟨t', hi, hj⟩ | ⟨i', j', t', hi, hj⟩) <;> cases Ends.unique hA h hi
    · exact ⟨none, hj, rfl⟩
    · exact ⟨some j', hj, rfl⟩
  · rintro ⟨y, hj, hy⟩
    cases next with
    | none =>
      obtain rfl : y = none := by simpa using hy
      exact .inr (.inl ⟨t, h, hj⟩)
    | some i' =>
      obtain ⟨j', rfl⟩ := Option.isSome_iff_exists.1 hy
      exact .inr (.inr ⟨i', j', t, h, hj⟩)

theorem Together.symm (h : Together A B body i₀ j₀ g₀ i j g) :
    Together B A body j₀ i₀ g₀ j i g := by
  induction h with
  | start => exact .start
  | turn _ hA hB hb ih => exact .turn ih hB hA hb

variable (hA : Steadies A body)
include hA

theorem Together.sameEnds (hB : Steadies B body) (h : Together A B body i₀ j₀ g₀ i j g)
    (hsame : SameEnds (runs A body i₀) (runs B body j₀) g₀) :
    SameEnds (runs A body i) (runs B body j) g := by
  induction h with
  | start => exact hsame
  | turn _ hi hj hb ih =>
    intro r
    exact (ends_runs_turn hA hi hb).symm.trans ((ih r).trans (ends_runs_turn hB hj hb))

theorem Together.ends (hB : Steadies B body)
    (hpart : ∀ i j g, Together A B body i₀ j₀ g₀ i j g → ¬InStep A B i j g →
      ∀ r, Ends (runs A body i) g r → Ends (runs B body j) g r)
    (h : Together A B body i₀ j₀ g₀ i j g) {n k : Nat} {r : Except Error Flow × Frame}
    (hr : effect (turns (A n) (body n) k i g) = some r) : Ends (runs B body j) g r := by
  induction k generalizing i j g with
  | zero => cases hr
  | succ k ih =>
    by_cases hstep : InStep A B i j g
    · rw [turns_succ] at hr
      rcases effect_bind_cases hr with ⟨e, s, hs, rfl⟩ | ⟨next, s, hs, hrest⟩
      · rcases hstep with ⟨e', t, hi, hj⟩ | ⟨t, hi, -⟩ | ⟨i', j', t, hi, -⟩ <;>
          cases Ends.unique (hA.head i) ⟨n, hs⟩ hi
        exact .of_head_failed hB hj
      · rcases hstep with ⟨e', t, hi, -⟩ | ⟨t, hi, hj⟩ | ⟨i', j', t, hi, hj⟩ <;>
          cases Ends.unique (hA.head i) ⟨n, hs⟩ hi
        · exact .of_head hB hj ⟨n, hrest⟩
        · rcases effect_bind_cases hrest with ⟨e, t, ht, rfl⟩ | ⟨flow, t, ht, hflow⟩
          · exact .of_head hB hj (Ends.bind_error ⟨n, ht⟩)
          · cases flow with
            | ret v => exact .of_head hB hj ⟨n, (congrArg effect (effect_bind_ok ht)).trans hflow⟩
            | next =>
              have hnext := ih (.turn h hi hj ⟨n, ht⟩) hflow
              exact .of_head hB hj (.of_body hB ⟨n, ht⟩ hnext)
    · refine hpart i j g h hstep r ⟨max n (k + 1), Refines.effect ?_ hr⟩
      have hn := Nat.le_max_left n (k + 1)
      exact turns_refines (fun i => hA.head i n _ hn) (hA.body n _ hn) (Nat.le_max_right _ _) i

/-- A loop takes another turn after a head. -/
def Goes (A : Nat → ι → Exec (Option ι)) (i : ι) (g : Frame) : Prop :=
  ∃ i' h, Ends (fun k => A k i) g (.ok (some i'), h)

/-- A loop never comes past a head. -/
def Hangs (A : Nat → ι → Exec (Option ι)) (i : ι) (g : Frame) : Prop :=
  ∀ x, ¬Ends (fun k => A k i) g x

/-- Two loops end alike although they part at a head. At least one of them has to take another turn
for this, unless both are lost at the head. -/
structure Rejoins (A : Nat → ι → Exec (Option ι)) (B : Nat → κ → Exec (Option κ))
    (body : Nat → Exec Flow) (i : ι) (j : κ) (g : Frame) : Prop where
  apart : Goes A i g ∨ Goes B j g ∨ Hangs A i g ∧ Hangs B j g
  ends : SameEnds (runs A body i) (runs B body j) g

theorem ends_runs_cases (hgoes : ¬Goes A i g) {r : Except Error Flow × Frame}
    (hr : Ends (runs A body i) g r) :
    (∃ e h, Ends (fun k => A k i) g (.error e, h) ∧ r = (.error e, h)) ∨
      ∃ h, Ends (fun k => A k i) g (.ok none, h) ∧ r = (.ok .next, h) := by
  obtain ⟨n, hn⟩ := (ends_runs_iff hA).1 hr
  rcases effect_bind_cases hn with ⟨e, h, he, rfl⟩ | ⟨next, h, hnext, hrest⟩
  · exact .inl ⟨e, h, ⟨n, he⟩, rfl⟩
  · cases next with
    | some i' => exact absurd ⟨i', h, n, hnext⟩ hgoes
    | none =>
      cases hrest
      exact .inr ⟨h, ⟨n, hnext⟩, rfl⟩

theorem inStep_of_sameEnds (hB : Steadies B body) (h : SameEnds (runs A body i) (runs B body j) g)
    (hgoes : ¬Goes A i g) (hgoes' : ¬Goes B j g) (hends : ¬Hangs A i g) : InStep A B i j g := by
  obtain ⟨⟨x, t⟩, hx⟩ := not_forall_not.1 hends
  match x with
  | .error e =>
    have hr := (h _).1 (.of_head_failed hA hx)
    rcases ends_runs_cases hB hgoes' hr with ⟨e', t', hj, heq⟩ | ⟨t', -, heq⟩ <;> cases heq
    exact .inl ⟨e, t, hx, hj⟩
  | .ok none =>
    have hr := (h _).1 (.of_head hA hx (r := (.ok .next, t)) ⟨0, rfl⟩)
    rcases ends_runs_cases hB hgoes' hr with ⟨e', t', -, heq⟩ | ⟨t', hj, heq⟩ <;> cases heq
    exact .inr (.inl ⟨t, hx, hj⟩)
  | .ok (some i') => exact absurd ⟨i', t, hx⟩ hgoes

theorem rejoins_of_sameEnds (hB : Steadies B body) (h : SameEnds (runs A body i) (runs B body j) g)
    (hstep : ¬InStep A B i j g) : Rejoins A B body i j g := by
  refine ⟨?_, h⟩
  by_contra hapart
  simp only [not_or, not_and_or] at hapart
  obtain ⟨hgoes, hgoes', hends | hends⟩ := hapart
  · exact hstep (inStep_of_sameEnds hA hB h hgoes hgoes' hends)
  · exact hstep (inStep_of_sameEnds hB hA (fun r => (h r).symm) hgoes' hgoes hends).symm

/-- Two loops with one body end alike exactly if, at every head that they reach together, they are in
step or rejoin. -/
theorem sameEnds_iff_inStep (hB : Steadies B body) :
    SameEnds (runs A body i₀) (runs B body j₀) g₀ ↔
      ∀ i j g, Together A B body i₀ j₀ g₀ i j g →
        InStep A B i j g ∨ Rejoins A B body i j g := by
  refine ⟨fun h i j g ht => ?_, fun h r => ⟨?_, ?_⟩⟩
  · by_cases hstep : InStep A B i j g
    · exact .inl hstep
    · exact .inr (rejoins_of_sameEnds hA hB (ht.sameEnds hA hB h) hstep)
  · rintro ⟨n, hn⟩
    refine Together.ends hA hB (fun i j g ht hstep r => ?_) .start hn
    exact (((h i j g ht).resolve_left hstep).ends r).1
  · rintro ⟨n, hn⟩
    refine Together.ends hB hA (fun j i g ht hstep r => ?_) .start hn
    exact (((h i j g ht.symm).resolve_left (fun hs => hstep hs.symm)).ends r).2

end Pair

end Interpreter

end ProcessModel
