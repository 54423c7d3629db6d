import Mathlib.Algebra.BigOperators.Group.Finset.Piecewise
import Mathlib.Algebra.GroupWithZero.Nat
import Mathlib.Algebra.Order.BigOperators.Group.Finset
import Mathlib.Data.Fintype.BigOperators
import Mathlib.Data.Fintype.Card
import Mathlib.Logic.Relation

/-!
# Weight — sums over places that hold messages

Termination arguments for messages that move between finitely many places add
up weights over the places. Two facts about such sums: one that changes in a
single term, and one over a batch of messages sorted by place. And where
messages multiply as they move, but only along a graph without cycles, there
is a weight by which each outweighs all it can turn into.
-/

namespace Weight

open Finset

variable {ι α : Type*} [Fintype ι]

/-- Two sums that differ in one term. -/
theorem sum_add_eq_of_eq_off [DecidableEq ι] {f g : ι → ℕ} (i : ι)
    (h : ∀ j, j ≠ i → f j = g j) : ∑ j, f j + g i = ∑ j, g j + f i := by
  have hrest : ∑ j ∈ univ.erase i, f j = ∑ j ∈ univ.erase i, g j :=
    sum_congr rfl fun j hj => h j (ne_of_mem_erase hj)
  have hf := add_sum_erase univ f (mem_univ i)
  have hg := add_sum_erase univ g (mem_univ i)
  omega

/-- A batch of messages, summed place by place. -/
theorem sum_batch [DecidableEq ι] (w : ι → ℕ) (batch : List (ι × α)) :
    ∑ i, (batch.filter fun x => x.1 = i).length * w i = (batch.map fun x => w x.1).sum := by
  induction batch with
  | nil => simp
  | cons x batch ih =>
      have hterm (i : ι) : ((x :: batch).filter fun y => y.1 = i).length * w i =
          (if x.1 = i then w i else 0) + (batch.filter fun y => y.1 = i).length * w i := by
        by_cases hx : x.1 = i
        · simp [hx, Nat.add_mul, Nat.add_comm]
        · simp [hx]
      rw [List.map_cons, List.sum_cons, ← ih, Finset.sum_congr rfl fun i _ => hterm i,
        sum_add_distrib]
      simp

/-- **Weights without cycles**: if no way along `next` leads back to where it
began, each place can outweigh the places after it together, by two. -/
theorem exists_weight {ι : Type*} [Finite ι] (next : ι → List ι)
    (hacyclic : ∀ i, ¬ Relation.TransGen (fun i j => j ∈ next i) i i) :
    ∃ w : ι → ℕ, ∀ i, ((next i).map w).sum + 2 = w i := by
  have hwf : WellFounded (fun j i => j ∈ next i) := by
    have : Std.Irrefl (Relation.TransGen fun j i => j ∈ next i) :=
      ⟨fun i hi => hacyclic i (Relation.transGen_swap.mp hi)⟩
    exact Subrelation.wf (fun h => Relation.TransGen.single h)
      (Finite.wellFounded_of_trans_of_irrefl (Relation.TransGen fun j i => j ∈ next i))
  let w : ι → ℕ := hwf.fix fun i rec => ((next i).attach.map fun j => rec j.1 j.2).sum + 2
  refine ⟨w, fun i => ?_⟩
  have hw : w i = ((next i).attach.map fun j => w j.1).sum + 2 := hwf.fix_eq _ i
  rw [hw]
  congr 2
  exact (List.attach_map_val ..).symm

end Weight
