import MockDB.Lib.ListOrder
import Mathlib.Algebra.GroupWithZero.Nat
import Mathlib.Logic.Function.Basic

/-!
# Interleavings

What several parties do, in one sequence that keeps the order of each. There are finitely many
such sequences of finite lists, and `interleavings` has them all.
-/

namespace Interleaving

variable {C D R St : Type*}

/-- What party `i` does in a sequence. -/
def ofParty (order : List (Nat × C)) (i : Nat) : List C :=
  (order.filter fun c => c.1 = i).map Prod.snd

@[simp] theorem ofParty_nil (i : Nat) : ofParty ([] : List (Nat × C)) i = [] := rfl

@[simp] theorem ofParty_cons_self (i : Nat) (c : C) (order : List (Nat × C)) :
    ofParty ((i, c) :: order) i = c :: ofParty order i := by
  simp [ofParty]

@[simp] theorem ofParty_cons_ne {i j : Nat} (h : i ≠ j) (c : C) (order : List (Nat × C)) :
    ofParty ((i, c) :: order) j = ofParty order j := by
  simp [ofParty, h]

/-- Each party does all it has to do, in its order. -/
def Interleaves (calls : Nat → List C) (order : List (Nat × C)) : Prop :=
  ∀ i, ofParty order i = calls i

theorem Interleaves.mem {calls : Nat → List C} {order : List (Nat × C)}
    (h : Interleaves calls order) {c : Nat × C} (hc : c ∈ order) : c.2 ∈ calls c.1 := by
  rw [← h c.1]
  exact List.mem_map_of_mem (List.mem_filter.mpr ⟨hc, decide_eq_true rfl⟩)

theorem interleaves_cons {calls : Nat → List C} {i : Nat} {c : C} {order : List (Nat × C)} :
    Interleaves calls ((i, c) :: order)
      ↔ ∃ rest, calls i = c :: rest ∧ Interleaves (Function.update calls i rest) order := by
  constructor
  · intro h
    refine ⟨ofParty order i, ?_, fun j => ?_⟩
    · rw [← h i, ofParty_cons_self]
    · by_cases hj : j = i
      · subst hj
        rw [Function.update_self]
      · rw [Function.update_of_ne hj, ← h j, ofParty_cons_ne (Ne.symm hj)]
  · rintro ⟨rest, hcalls, h⟩ j
    by_cases hj : j = i
    · subst hj
      rw [ofParty_cons_self, h j, Function.update_self, hcalls]
    · rw [ofParty_cons_ne (Ne.symm hj), h j, Function.update_of_ne hj]

/-- A sequence of what calls stand for is one of the calls. -/
theorem Interleaves.exists_calls {f : C → D} {calls : Nat → List C} {order : List (Nat × D)}
    (h : Interleaves (fun i => (calls i).map f) order) :
    ∃ order' : List (Nat × C), order = order'.map (fun c => (c.1, f c.2))
      ∧ Interleaves calls order' := by
  induction order generalizing calls with
  | nil =>
      refine ⟨[], rfl, fun i => ?_⟩
      exact (List.map_eq_nil_iff.mp (h i).symm).symm
  | cons d order ih =>
      obtain ⟨i, d⟩ := d
      obtain ⟨rest, hrest, h⟩ := interleaves_cons.mp h
      obtain ⟨c, cs, hcalls, rfl, rfl⟩ := List.map_eq_cons_iff.mp hrest
      have hupdate : Function.update (fun i => (calls i).map f) i (cs.map f)
          = fun j => (Function.update calls i cs j).map f := by
        funext j
        by_cases hj : j = i
        · subst hj
          rw [Function.update_self, Function.update_self]
        · rw [Function.update_of_ne hj, Function.update_of_ne hj]
      rw [hupdate] at h
      obtain ⟨order', rfl, horder⟩ := ih h
      exact ⟨(i, c) :: order', rfl, interleaves_cons.mpr ⟨cs, hcalls, horder⟩⟩

/-! ## All of them -/

/-- The sequences of `n` calls. -/
def sequences : Nat → List (List C) → List (List (Nat × C))
  | 0, _ => [[]]
  | n + 1, calls => (List.range calls.length).flatMap fun i =>
      match calls[i]? with
      | some (c :: rest) => (sequences n (calls.set i rest)).map fun order => (i, c) :: order
      | _ => []

/-- All sequences of the calls of some parties, numbered from zero. -/
def interleavings (calls : List (List C)) : List (List (Nat × C)) :=
  sequences (calls.map List.length).sum calls

theorem mem_sequences {calls : List (List C)} {order : List (Nat × C)}
    (h : Interleaves (fun i => calls.getD i []) order) :
    order.length = (calls.map List.length).sum ∧ order ∈ sequences order.length calls := by
  induction order generalizing calls with
  | nil =>
      refine ⟨?_, List.mem_singleton.mpr rfl⟩
      have hnil : ∀ l ∈ calls, l = [] := by
        intro l hl
        obtain ⟨i, hi⟩ := List.mem_iff_getElem?.mp hl
        have hget : [] = calls.getD i [] := h i
        rw [List.getD_eq_getElem?_getD, hi] at hget
        exact hget.symm
      refine (List.sum_eq_zero_iff_forall_eq_nat.mpr fun n hn => ?_).symm
      obtain ⟨l, hl, rfl⟩ := List.mem_map.mp hn
      rw [hnil l hl]
      rfl
  | cons d order ih =>
      obtain ⟨i, c⟩ := d
      obtain ⟨rest, hcalls, h⟩ := interleaves_cons.mp h
      have hget : calls[i]? = some (c :: rest) := by
        rw [List.getD_eq_getElem?_getD] at hcalls
        cases hi : calls[i]? with
        | none => rw [hi] at hcalls; cases hcalls
        | some l => rw [hi] at hcalls; exact congrArg some hcalls
      obtain ⟨hi, hc⟩ := List.getElem?_eq_some_iff.mp hget
      have hset : Function.update (fun i => calls.getD i []) i rest
          = fun j => (calls.set i rest).getD j [] := by
        funext j
        rw [List.getD_eq_getElem?_getD]
        by_cases hj : j = i
        · subst hj
          rw [Function.update_self, List.getElem?_set_self hi]
          rfl
        · rw [Function.update_of_ne hj, List.getElem?_set_ne (Ne.symm hj),
            List.getD_eq_getElem?_getD]
      rw [hset] at h
      obtain ⟨hlength, hmem⟩ := ih h
      constructor
      · obtain ⟨before, after, hsplit, -, hset⟩ := @List.exists_of_set _ i rest calls hi
        rw [hc] at hsplit
        rw [List.length_cons, hlength, hset, hsplit]
        simp only [List.map_append, List.map_cons, List.sum_append, List.sum_cons,
          List.length_cons]
        omega
      · refine List.mem_flatMap.mpr ⟨i, List.mem_range.mpr hi, ?_⟩
        rw [hget]
        exact List.mem_map_of_mem hmem

theorem mem_interleavings {calls : List (List C)} {order : List (Nat × C)}
    (h : Interleaves (fun i => calls.getD i []) order) : order ∈ interleavings calls := by
  obtain ⟨hlength, hmem⟩ := mem_sequences h
  rw [hlength] at hmem
  exact hmem

/-- Of parties below `n`. -/
theorem Interleaves.mem_interleavings {calls : Nat → List C} {order : List (Nat × C)}
    (h : Interleaves calls order) {n : Nat} (hn : ∀ i, n ≤ i → calls i = []) :
    order ∈ interleavings ((List.range n).map calls) := by
  refine Interleaving.mem_interleavings fun i => ?_
  show ofParty order i = ((List.range n).map calls).getD i []
  rw [h i, List.getD_eq_getElem?_getD, List.getElem?_map]
  by_cases hi : i < n
  · rw [List.getElem?_range hi]
    rfl
  · rw [List.getElem?_eq_none (by simpa using hi)]
    exact hn i (Nat.le_of_not_lt hi)

/-! ## Serving them -/

/-- Calls served one after another, by what one call does. -/
def serveAll (step : C → St → R × St) : List (Nat × C) → St → List (Nat × R) × St
  | [], st => ([], st)
  | (i, c) :: order, st =>
      let (r, st) := step c st
      let (replies, st) := serveAll step order st
      ((i, r) :: replies, st)

/-- Replies seen through `f`, where a step says what is seen of them. -/
theorem serveAll_map {step : C → St → R × St} {R' : Type*} {step' : C → St → R' × St} {f : R → R'}
    (h : ∀ c st, step' c st = (f (step c st).1, (step c st).2)) (order : List (Nat × C)) (st : St) :
    serveAll step' order st
      = ((serveAll step order st).1.map fun r => (r.1, f r.2), (serveAll step order st).2) := by
  induction order generalizing st with
  | nil => rfl
  | cons c order ih =>
      obtain ⟨i, c⟩ := c
      simp only [serveAll, h, ih, List.map_cons]

theorem ofParty_map (f : C → D) (order : List (Nat × C)) (i : Nat) :
    ofParty (order.map fun c => (c.1, f c.2)) i = (ofParty order i).map f := by
  simp [ofParty, List.filter_map, Function.comp_def]

end Interleaving
