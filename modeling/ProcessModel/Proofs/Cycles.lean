import Mathlib.Data.Fintype.Pigeonhole
import Mathlib.Logic.Relation
import ProcessModel.Manifest

/-! Cycles of references between manifests.

Pruning drops the links that lead to a manifest without links. Where it changes nothing, every link
is followed by another one, so that a walk along the links comes back to a manifest it has met. -/

namespace ProcessModel.Manifest

open Relation

def Linked (links : List Link) (p q : String) : Prop := (p, q) ∈ links

variable {links : List Link} {l : Link}

theorem mem_prune : l ∈ prune links ↔ l ∈ links ∧ ∃ q, Linked links l.2 q := by
  unfold prune Linked
  rw [List.mem_filter, List.any_eq_true]
  refine and_congr_right fun _ => ⟨?_, ?_⟩
  · rintro ⟨k, hk, heq⟩
    exact ⟨k.2, by rwa [← beq_iff_eq.1 heq]⟩
  · rintro ⟨q, hq⟩
    exact ⟨(l.2, q), hq, beq_self_eq_true _⟩

theorem exists_link_of_transGen {p q : String} (hcycle : TransGen (Linked links) p p)
    (h : TransGen (Linked links) q p) : ∃ q', Linked links q q' ∧ TransGen (Linked links) q' p := by
  obtain ⟨q', hlink, hrest⟩ := TransGen.head'_iff.1 h
  exact ⟨q', hlink, TransGen.trans_right hrest hcycle⟩

theorem mem_repeat_prune {p : String} (hcycle : TransGen (Linked links) p p) (n : Nat)
    (hl : l ∈ links) (h : TransGen (Linked links) l.2 p) : l ∈ Nat.repeat prune n links := by
  induction n generalizing l with
  | zero => exact hl
  | succ n ih =>
    obtain ⟨q, hlink, hq⟩ := exists_link_of_transGen hcycle h
    exact mem_prune.2 ⟨ih hl h, q, ih hlink hq⟩

theorem repeat_prune_fixed (links : List Link) (n : Nat) :
    prune (Nat.repeat prune n links) = Nat.repeat prune n links ∨
      (Nat.repeat prune n links).length + n ≤ links.length := by
  induction n with
  | zero => exact .inr le_rfl
  | succ n ih =>
    have hstep : Nat.repeat prune (n + 1) links = prune (Nat.repeat prune n links) := rfl
    rw [hstep]
    by_cases hfixed : prune (Nat.repeat prune n links) = Nat.repeat prune n links
    · exact .inl (congrArg prune hfixed)
    · have hlength := ih.resolve_left hfixed
      have hsub : (prune (Nat.repeat prune n links)).Sublist (Nat.repeat prune n links) :=
        List.filter_sublist
      have hlt := lt_of_le_of_ne hsub.length_le fun heq => hfixed (hsub.eq_of_length heq)
      exact .inr (by omega)

theorem repeat_prune_subset (n : Nat) (h : l ∈ Nat.repeat prune n links) : l ∈ links := by
  induction n with
  | zero => exact h
  | succ n ih => exact ih (mem_prune.1 h).1

theorem transGen_of_steps {α : Type} {r : α → α → Prop} {u : Nat → α}
    (h : ∀ i, r (u i) (u (i + 1))) (i k : Nat) : TransGen r (u i) (u (i + k + 1)) := by
  induction k with
  | zero => exact .single (h i)
  | succ k ih => exact ih.tail (h _)

theorem exists_cycle_of_fixed (hfixed : prune links = links) (hne : links ≠ []) :
    ∃ p, TransGen (Linked links) p p := by
  have hnext : ∀ l : { l // l ∈ links }, ∃ k : { l // l ∈ links }, k.1.1 = l.1.2 := by
    rintro ⟨l, hl⟩
    rw [← hfixed] at hl
    obtain ⟨-, q, hq⟩ := mem_prune.1 hl
    exact ⟨⟨(l.2, q), hq⟩, rfl⟩
  choose next hfollows using hnext
  obtain ⟨first, hfirst⟩ := List.exists_mem_of_ne_nil links hne
  -- a walk from link to link meets one of them twice, since there are finitely many
  let walk : Nat → { l // l ∈ links } := fun n => next^[n] ⟨first, hfirst⟩
  have hstep : ∀ i, Linked links (walk i).1.1 (walk (i + 1)).1.1 := by
    intro i
    have hsucc : walk (i + 1) = next (walk i) := Function.iterate_succ_apply' _ _ _
    rw [hsucc, hfollows]
    exact (walk i).2
  obtain ⟨i, j, hij, heq⟩ := Finite.exists_ne_map_eq_of_infinite walk
  wlog hlt : i < j generalizing i j
  · exact this j i hij.symm heq.symm (by omega)
  obtain ⟨k, rfl⟩ := Nat.exists_eq_add_of_lt hlt
  have hcycle := transGen_of_steps (u := fun n => (walk n).1.1) hstep i k
  rw [← heq] at hcycle
  exact ⟨_, hcycle⟩

/-- Links are found cyclic exactly if a walk along them leads from a manifest to itself. -/
theorem isCyclic_iff (links : List Link) :
    isCyclic links = true ↔ ∃ p, TransGen (Linked links) p p := by
  have hempty : isCyclic links = true ↔ Nat.repeat prune links.length links ≠ [] := by
    rw [isCyclic, Bool.not_eq_true', ← Bool.not_eq_true, List.isEmpty_iff]
  rw [hempty]
  constructor
  · intro hne
    have hfixed := (repeat_prune_fixed links links.length).resolve_right fun hlength =>
      hne (List.length_eq_zero_iff.1 (by omega))
    obtain ⟨p, hcycle⟩ := exists_cycle_of_fixed hfixed hne
    exact ⟨p, TransGen.mono (fun _ _ => repeat_prune_subset _) _ _ hcycle⟩
  · rintro ⟨p, hcycle⟩
    obtain ⟨q, hlink, hq⟩ := exists_link_of_transGen hcycle hcycle
    exact List.ne_nil_of_mem (mem_repeat_prune hcycle _ hlink hq)

end ProcessModel.Manifest
