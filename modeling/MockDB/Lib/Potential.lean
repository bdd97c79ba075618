import Mathlib.Algebra.BigOperators.Fin
import Mathlib.Algebra.Order.BigOperators.Group.Finset
import Mathlib.Data.Fintype.BigOperators

/-!
# Work paid by a potential

A machine takes steps, and each step costs some work. If every step is paid by what it takes
from a potential, or by a counter that it moves forward, then so is a run, whatever its
length. `sum_change` is for a potential that is a sum over the parties of the machine, where
a step lowers that of one party and raises those of the others by little, and `sum_one` for one
where it leaves those of the others.
-/

namespace Potential

variable {S A : Type*} (step : S → A → S) (cost : S → A → Nat)

/-- The work of a run. -/
def work : S → List A → Nat
  | _, [] => 0
  | s, a :: steps => cost s a + work (step s a) steps

variable {step cost} {I : S → Prop} {potential count : S → Nat} {price : Nat}

/-- **Runs are paid like steps.** -/
theorem work_le (hinv : ∀ s a, I s → I (step s a))
    (hpaid : ∀ s a, I s → cost s a + potential (step s a) + price * count s
      ≤ potential s + price * count (step s a)) (steps : List A) {s : S} (h : I s) :
    work step cost s steps + potential (steps.foldl step s) + price * count s
      ≤ potential s + price * count (steps.foldl step s) := by
  induction steps generalizing s with
  | nil => rw [work, Nat.zero_add]; rfl
  | cons a steps ih =>
      have hstep := hpaid s a h
      have hrest := ih (hinv s a h)
      rw [work, List.foldl_cons]
      omega

/-- One party's share changes, and each of the others gains at most `c`. -/
theorem sum_change {ι : Type*} [Fintype ι] [DecidableEq ι] {f g : ι → Nat} (i : ι) {c : Nat}
    (hothers : ∀ j, j ≠ i → g j ≤ f j + c) :
    ∑ j, g j + f i ≤ ∑ j, f j + g i + (Fintype.card ι - 1) * c := by
  have hsum : ∑ j ∈ Finset.univ.erase i, g j
      ≤ ∑ j ∈ Finset.univ.erase i, f j + (Fintype.card ι - 1) * c := by
    calc ∑ j ∈ Finset.univ.erase i, g j
        ≤ ∑ j ∈ Finset.univ.erase i, (f j + c) :=
          Finset.sum_le_sum fun j hj => hothers j (Finset.ne_of_mem_erase hj)
      _ = ∑ j ∈ Finset.univ.erase i, f j + (Fintype.card ι - 1) * c := by
          rw [Finset.sum_add_distrib, Finset.sum_const, smul_eq_mul,
            Finset.card_erase_of_mem (Finset.mem_univ i), Finset.card_univ]
  have hf := Finset.add_sum_erase Finset.univ f (Finset.mem_univ i)
  have hg := Finset.add_sum_erase Finset.univ g (Finset.mem_univ i)
  omega

/-- One party's share changes, and the others keep theirs. -/
theorem sum_one {ι : Type*} [Fintype ι] [DecidableEq ι] {f g : ι → Nat} (i : ι)
    (hothers : ∀ j, j ≠ i → g j = f j) : ∑ j, g j + f i = ∑ j, f j + g i := by
  have hle := sum_change (f := f) (g := g) i (c := 0) fun j hj => Nat.le_of_eq (hothers j hj)
  have hge := sum_change (f := g) (g := f) i (c := 0) fun j hj =>
    Nat.le_of_eq (hothers j hj).symm
  omega

end Potential
