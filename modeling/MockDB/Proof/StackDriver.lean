import MockDB.Applications.Drivers
import MockDB.Lib.ListOrder
import MockDB.Proof.RejectedPost
import MockDB.Proof.TreiberIntegrity
import MockDB.Proof.TreiberProgress

/-!
# The stack's driver

No value is pushed by two calls of `do_operations`. So the values that calls have popped are
counted against those that were pushed, on any store: each is taken off the stack by as many
calls as return it. On a linearizable store that is at most one, and `check_pop_valid` finds
nothing.
-/

namespace MockDB

open Stack

/-- What a call returns goes by what it is. -/
theorem ends_roams {V : Type} [Zero V] {t : Int} {vs vs' : Int → List (V × Int)}
    {size size' : Nat} {pc : Pc V} {op : StackOp V} {r : StackRet V} (hop : InCode op pc)
    (hm : Roams t vs size pc (.done r) vs' size') :
    (∃ val, op = .push val ∧ r = .pushed) ∨ (op = .pop ∧ ∃ val, r = .popped val) := by
  cases hm with
  | push val id cur => exact Or.inl ⟨val, hop, rfl⟩
  | popEmpty => exact Or.inr ⟨hop, none, rfl⟩
  | popMissing cur hno => exact Or.inr ⟨hop, none, rfl⟩
  | pop cur head => exact Or.inr ⟨hop, some head.1, rfl⟩

/-- On a linearizable store no value comes off the stack more often than it went on. -/
theorem StackInv.count_popped_le {V : Type} [Zero V] [DecidableEq V] {s : Stack V}
    (h : StackInv s) (v : V) :
    (s.log.filterMap poppedVal).count v ≤ (s.log.filterMap pushedVal).count v := by
  obtain ⟨hd, l, hs, -⟩ := h.shared
  rw [h.poppedVals, h.pushedVals, (hs.perm.map Prod.snd).count_eq, List.map_append,
    List.count_append]
  exact Nat.le_add_right _ _

namespace RunStack

/-! ## The loop of the check -/

theorem repeatValue_iff (results uniqueVals : List Int) :
    repeatValue results uniqueVals = false
      ↔ (∀ e ∈ results, e ≠ 0 → e ∉ uniqueVals) ∧ (results.filter (· ≠ 0)).Nodup := by
  induction results generalizing uniqueVals with
  | nil => simp [repeatValue]
  | cons e rest ih =>
      unfold repeatValue
      by_cases he : e = 0
      · simp [he, ih]
      · simp only [ne_eq, he, not_false_eq_true, if_true, decide_eq_false_iff_not, not_or]
        rw [Bool.not_eq_true, ih]
        simp only [List.mem_cons, not_or, List.filter_cons, he, not_false_eq_true, decide_true,
          if_true, List.nodup_cons, List.mem_filter]
        grind

/-! ## The calls -/

/-- From place `k` on a row pushes the values after `t * 10 + k`, each at most once. -/
theorem count_calls (t : Digit) (row : List Bool) (k : Nat) (v : Int) :
    ((row.zipIdx k).map fun (isPush, i) =>
        if isPush then StackOp.push (t.1 * 10 + (i + 1)) else .pop).count (.push v)
      ≤ if t.1 * 10 + k < v ∧ v ≤ t.1 * 10 + k + row.length then 1 else 0 := by
  induction row generalizing k with
  | nil => exact Nat.zero_le _
  | cons isPush row ih =>
      have hrest := ih (k + 1)
      rw [List.zipIdx_cons, List.map_cons, List.count_cons, List.length_cons]
      cases isPush with
      | false =>
          have hother : (StackOp.pop == StackOp.push v) = false := rfl
          simp only [Bool.false_eq_true, if_false, hother, Nat.add_zero]
          refine Nat.le_trans hrest ?_
          split
          · rw [if_pos (by push_cast at *; omega)]
          · exact Nat.zero_le _
      | true =>
          by_cases hv : v = t.1 * 10 + (k + 1)
          · have hone : ∀ b : Bool, (if b = true then 1 else 0) ≤ 1 := by decide
            rw [if_neg (by push_cast; omega)] at hrest
            refine Nat.le_trans (Nat.add_le_add hrest (hone _)) ?_
            rw [if_pos (by push_cast; omega)]
          · have hother :
                (StackOp.push (t.1 * 10 + ((k : Int) + 1)) == StackOp.push v) = false := by
              simpa using fun heq => hv heq.symm
            simp only [if_true, hother, Bool.false_eq_true, if_false, Nat.add_zero]
            refine Nat.le_trans hrest ?_
            split
            · rw [if_pos (by push_cast at *; omega)]
            · exact Nat.zero_le _

/-- With nine calls at most a thread pushes no value of another one. -/
theorem count_doOperations (t : Digit) {row : List Bool} (hrow : row.length ≤ 9) (v : Int) :
    (doOperations t row).count (.push v) ≤ if v / 10 = t.1 then 1 else 0 := by
  refine Nat.le_trans (count_calls t row 0 v) ?_
  split
  · rw [if_pos (by omega)]
  · exact Nat.zero_le _

/-- No value is pushed by two calls. -/
theorem sum_doOperations {operations : Digit → List Bool}
    (hrows : ∀ t, (operations t).length ≤ 9) (v : Int) :
    ∑ i, (doOperations (digit i) (operations (digit i))).count (.push v) ≤ 1 := by
  calc ∑ i, (doOperations (digit i) (operations (digit i))).count (.push v)
      ≤ ∑ i, if v / 10 = (digit i).1 then 1 else 0 :=
        Finset.sum_le_sum fun i _ => count_doOperations (digit i) (hrows _) v
    _ = (Finset.univ.filter fun i => v / 10 = (digit i).1).card := (Finset.card_filter _ _).symm
    _ ≤ 1 := by
        refine Finset.card_le_one.mpr fun i hi j hj => ?_
        have hi' := (Finset.mem_filter.mp hi).2
        have hj' := (Finset.mem_filter.mp hj).2
        exact digit_injective (Subtype.ext (hi'.symm.trans hj'))

/-! ## One turn -/

namespace Iteration

/-- What a turn does. -/
theorem turn_cases (d : Iteration) (t : Digit) (draws : Draws) :
    d.turn t draws = d
      ∨ (∃ op rest, d.stack.threads t = none ∧ d.todo t = op :: rest
        ∧ d.turn t draws = { d with
            stack := d.stack.step (.invoke t op)
            todo := Function.update d.todo t rest })
      ∨ (∃ c op ret, d.stack.threads t = some ⟨c, op, .done ret⟩
        ∧ d.turn t draws = { d with
            stack := d.stack.step (.ret t)
            popValues := Function.update d.popValues t (d.popValues t ++ popped ret) })
      ∨ ∃ th, d.stack.threads t = some th ∧ (∀ r, th.pc ≠ .done r)
        ∧ d.turn t draws = { d with stack := d.stack.step (.move t draws) } := by
  unfold turn
  split
  · rename_i ht
    split
    · exact Or.inl rfl
    · rename_i op rest htodo
      exact Or.inr (Or.inl ⟨op, rest, ht, htodo, rfl⟩)
  · rename_i c op ret ht
    exact Or.inr (Or.inr (Or.inl ⟨c, op, ret, ht, rfl⟩))
  · rename_i th hnd ht
    refine Or.inr (Or.inr (Or.inr ⟨th, ht, fun r hr => ?_, rfl⟩))
    exact hnd th.call th.op r (by rw [← hr])

/-- The stack takes one step at most. -/
theorem turn_stack (d : Iteration) (t : Digit) (draws : Draws) :
    (d.turn t draws).stack = d.stack ∨ ∃ a, (d.turn t draws).stack = d.stack.step a := by
  rcases d.turn_cases t draws with h | ⟨op, rest, -, -, h⟩ | ⟨c, op, ret, -, h⟩ | ⟨th, -, -, h⟩
  · exact Or.inl (congrArg stack h)
  · exact Or.inr ⟨.invoke t op, congrArg stack h⟩
  · exact Or.inr ⟨.ret t, congrArg stack h⟩
  · exact Or.inr ⟨.move t draws, congrArg stack h⟩

/-- **What the stack keeps, the driver keeps.** -/
theorem run_stack {P : Stack Int → Prop} (hstep : ∀ s a, P s → P (s.step a))
    (turns : List (Digit × Draws)) {d : Iteration} (h : P d.stack) : P (d.run turns).stack := by
  induction turns generalizing d with
  | nil => exact h
  | cons turn turns ih =>
      refine ih (d := d.turn turn.1 turn.2) ?_
      rcases d.turn_stack turn.1 turn.2 with heq | ⟨a, heq⟩
      · rw [heq]; exact h
      · rw [heq]; exact hstep _ a h

/-- Whether the thread is still to push `v`. -/
def pushing (v : Int) : Option (StackThread Int) → Nat
  | none => 0
  | some ⟨_, _, .done _⟩ => 0
  | some ⟨_, op, _⟩ => [op].count (.push v)

/-- Whether the thread has `v` to return. -/
def returning (v : Int) : Option (StackThread Int) → Nat
  | some ⟨_, _, .done ret⟩ => (popped ret).count v
  | _ => 0

theorem pushing_inside {v : Int} (th : StackThread Int) (hpc : ∀ r, th.pc ≠ .done r) :
    pushing v (some th) = [th.op].count (.push v) := by
  obtain ⟨c, op, pc⟩ := th
  cases pc with
  | done r => exact absurd rfl (hpc r)
  | _ => rfl

theorem returning_inside {v : Int} (th : StackThread Int) (hpc : ∀ r, th.pc ≠ .done r) :
    returning v (some th) = 0 := by
  obtain ⟨c, op, pc⟩ := th
  cases pc with
  | done r => exact absurd rfl (hpc r)
  | _ => rfl

/-- The pushes of `v` that a thread has still to do. -/
def pushesLeft (v : Int) (d : Iteration) (t : Digit) : Nat :=
  (d.todo t).count (.push v) + pushing v (d.stack.threads t)

/-- The pops of a thread that have taken `v` off the stack. -/
def popsMade (v : Int) (d : Iteration) (t : Digit) : Nat :=
  (d.popValues t).count v + returning v (d.stack.threads t)

/-- **Each value is accounted for**: what was to be pushed is on its way or was, and what was
popped is with the threads. -/
structure Accounted (v : Int) (total : Nat) (d : Iteration) : Prop where
  sound : StackSound d.stack
  pushes : (d.stack.log.filterMap pushedVal).count v + ∑ i, d.pushesLeft v (digit i) = total
  pops : ∑ i, d.popsMade v (digit i) = (d.stack.log.filterMap poppedVal).count v

/-- It is enough to look at the thread whose turn it is. -/
theorem Accounted.of_turn {v : Int} {total : Nat} {d d' : Iteration} (h : Accounted v total d)
    (t : Digit) (hsound : StackSound d'.stack)
    (hothers : ∀ u, u ≠ t → d'.todo u = d.todo u ∧ d'.popValues u = d.popValues u
      ∧ d'.stack.threads u = d.stack.threads u)
    (hpush : (d'.stack.log.filterMap pushedVal).count v + d'.pushesLeft v t
      = (d.stack.log.filterMap pushedVal).count v + d.pushesLeft v t)
    (hpop : d'.popsMade v t + (d.stack.log.filterMap poppedVal).count v
      = d.popsMade v t + (d'.stack.log.filterMap poppedVal).count v) :
    Accounted v total d' := by
  obtain ⟨i, rfl⟩ := exists_digit t
  have hne : ∀ j, j ≠ i → digit j ≠ digit i := fun j hj heq => hj (digit_injective heq)
  have hleft := Potential.sum_one (f := fun j => d.pushesLeft v (digit j))
    (g := fun j => d'.pushesLeft v (digit j)) i fun j hj => by
      obtain ⟨htodo, -, hthread⟩ := hothers _ (hne j hj)
      unfold pushesLeft
      rw [htodo, hthread]
  have hmade := Potential.sum_one (f := fun j => d.popsMade v (digit j))
    (g := fun j => d'.popsMade v (digit j)) i fun j hj => by
      obtain ⟨-, hvalues, hthread⟩ := hothers _ (hne j hj)
      unfold popsMade
      rw [hvalues, hthread]
  have hpushes := h.pushes
  have hpops := h.pops
  exact ⟨hsound, by omega, by omega⟩

/-- A move pushes `v`, or leaves it to be pushed. -/
theorem pushed_logged (v : Int) {th : StackThread Int} {t : Int} {vs vs' : Int → List (Int × Int)}
    {size size' : Nat} {pc' : Pc Int} (hop : InCode th.op th.pc)
    (hm : Roams t vs size th.pc pc' vs' size') :
    ((logged th pc').filterMap pushedVal).count v + pushing v (some { th with pc := pc' })
      = [th.op].count (.push v) := by
  by_cases hdone : ∃ r, pc' = .done r
  · obtain ⟨r, rfl⟩ := hdone
    obtain ⟨c, op, pc⟩ := th
    rcases ends_roams hop hm with ⟨val, rfl, rfl⟩ | ⟨rfl, val, rfl⟩
    · show [val].count v + 0 = [StackOp.push val].count (.push v)
      simp [List.count_singleton]
    · rfl
  · rw [pushing_inside { th with pc := pc' } fun r hr => hdone ⟨r, hr⟩]
    cases pc' with
    | done r => exact absurd ⟨r, rfl⟩ hdone
    | _ => exact Nat.zero_add _

/-- What a move takes off the stack is for the thread to return. -/
theorem popped_logged {v : Int} (hv : v ≠ 0) {th : StackThread Int} {t : Int}
    {vs vs' : Int → List (Int × Int)} {size size' : Nat} {pc' : Pc Int}
    (hop : InCode th.op th.pc) (hm : Roams t vs size th.pc pc' vs' size') :
    returning v (some { th with pc := pc' }) = ((logged th pc').filterMap poppedVal).count v := by
  by_cases hdone : ∃ r, pc' = .done r
  · obtain ⟨r, rfl⟩ := hdone
    obtain ⟨c, op, pc⟩ := th
    rcases ends_roams hop hm with ⟨val, rfl, rfl⟩ | ⟨rfl, val, rfl⟩
    · rfl
    · cases val with
      | none => exact List.count_eq_zero.mpr fun hmem => hv (List.mem_singleton.mp hmem)
      | some val => rfl
  · rw [returning_inside { th with pc := pc' } fun r hr => hdone ⟨r, hr⟩]
    cases pc' with
    | done r => exact absurd ⟨r, rfl⟩ hdone
    | _ => rfl

variable {v : Int} {total : Nat} {d : Iteration}

theorem Accounted.invoke (h : Accounted v total d) {t : Digit} {op : StackOp Int}
    {rest : List (StackOp Int)} (ht : d.stack.threads t = none) (htodo : d.todo t = op :: rest) :
    Accounted v total { d with
      stack := d.stack.step (.invoke t op)
      todo := Function.update d.todo t rest } := by
  have hthreads : (d.stack.step (.invoke t op)).threads
      = Function.update d.stack.threads t (some ⟨d.stack.calls, op, op.start⟩) := by
    unfold Stack.step; dsimp only; rw [ht]
  have hlog : (d.stack.step (.invoke t op)).log = d.stack.log := by
    unfold Stack.step; dsimp only; rw [ht]
  have hstart : ∀ r, op.start ≠ .done r := by cases op <;> exact fun r hr => nomatch hr
  refine h.of_turn t (stackSound_step h.sound (.invoke t op)) (fun u hu => ?_) ?_ ?_
  · simp only [hthreads, Function.update_of_ne hu, and_self]
  · unfold pushesLeft
    dsimp only
    rw [hthreads, hlog, ht, htodo, Function.update_self, Function.update_self,
      pushing_inside _ hstart, List.count_cons, List.count_cons, List.count_nil, Nat.zero_add]
    rfl
  · unfold popsMade
    dsimp only
    rw [hthreads, hlog, ht, Function.update_self, returning_inside _ hstart]
    rfl

theorem Accounted.ret (h : Accounted v total d) {t : Digit} {c : Nat} {op : StackOp Int}
    {ret : StackRet Int} (ht : d.stack.threads t = some ⟨c, op, .done ret⟩) :
    Accounted v total { d with
      stack := d.stack.step (.ret t)
      popValues := Function.update d.popValues t (d.popValues t ++ popped ret) } := by
  have hthreads : (d.stack.step (.ret t)).threads = Function.update d.stack.threads t none := by
    unfold Stack.step; dsimp only; rw [ht]
  have hlog : (d.stack.step (.ret t)).log = d.stack.log := by
    unfold Stack.step; dsimp only; rw [ht]
  refine h.of_turn t (stackSound_step h.sound (.ret t)) (fun u hu => ?_) ?_ ?_
  · simp only [hthreads, Function.update_of_ne hu, and_self]
  · unfold pushesLeft
    dsimp only
    rw [hthreads, hlog, ht, Function.update_self]
    rfl
  · unfold popsMade
    dsimp only
    rw [hthreads, hlog, ht, Function.update_self, Function.update_self, List.count_append]
    rfl

/-- The values that calls push and pop are other than the `0` of an empty stack. -/
theorem Accounted.move (h : Accounted v total d) (hv : v ≠ 0) {t : Digit}
    {th : StackThread Int} (ht : d.stack.threads t = some th) (hpc : ∀ r, th.pc ≠ .done r)
    (draws : Draws) :
    Accounted v total { d with stack := d.stack.step (.move t draws) } := by
  obtain ⟨hmine, hcode⟩ := h.sound.pcs t th ht
  obtain ⟨pc', w', hmove, -, hm⟩ := step_roams h.sound.reach h.sound.sound.head t.1 draws hpc
  have hstep := step_move ht hpc hmove
  have hthreads : (d.stack.step (.move t draws)).threads t = some { th with pc := pc' } := by
    rw [hstep]
    exact Function.update_self _ _ _
  have hlog : (d.stack.step (.move t draws)).log = d.stack.log ++ logged th pc' := by rw [hstep]
  refine h.of_turn t (stackSound_step h.sound (.move t draws)) (fun u hu => ?_) ?_ ?_
  · simp only [hstep, Function.update_of_ne hu, and_self]
  · unfold pushesLeft
    dsimp only
    rw [hthreads, hlog, ht, pushing_inside th hpc, List.filterMap_append, List.count_append]
    rw [Nat.add_assoc, Nat.add_left_comm _ ((d.todo t).count _), pushed_logged v hcode hm]
  · unfold popsMade
    dsimp only
    rw [hthreads, hlog, ht, returning_inside th hpc, List.filterMap_append, List.count_append]
    rw [popped_logged hv hcode hm, Nat.add_zero, Nat.add_right_comm, Nat.add_assoc]

theorem Accounted.turn (h : Accounted v total d) (hv : v ≠ 0) (t : Digit) (draws : Draws) :
    Accounted v total (d.turn t draws) := by
  rcases d.turn_cases t draws with heq | ⟨op, rest, ht, htodo, heq⟩ | ⟨c, op, ret, ht, heq⟩
    | ⟨th, ht, hpc, heq⟩
  · rw [heq]; exact h
  · rw [heq]; exact h.invoke ht htodo
  · rw [heq]; exact h.ret ht
  · rw [heq]; exact h.move hv ht hpc draws

theorem accounted_init (v : Int) (sel : ReadResponseSelector) (operations : Digit → List Bool) :
    Accounted v (∑ i, (doOperations (digit i) (operations (digit i))).count (.push v))
      (init sel operations) where
  sound := stackSound_init sel
  pushes := Nat.zero_add _
  pops := Finset.sum_eq_zero fun _ _ => rfl

theorem accounted_run (hv : v ≠ 0) (sel : ReadResponseSelector)
    (operations : Digit → List Bool) (turns : List (Digit × Draws)) :
    Accounted v (∑ i, (doOperations (digit i) (operations (digit i))).count (.push v))
      ((init sel operations).run turns) :=
  List.foldlRecOn turns _ (accounted_init v sel operations) fun _ h turn _ =>
    h.turn hv turn.1 turn.2

end Iteration

/-! ## The values popped -/

section Popped

variable {v : Int} {rows : Digit → List Bool}

theorem count_le_popsMade (v : Int) (d : Iteration) (t : Digit) :
    (d.popValues t).count v ≤ d.popsMade v t := Nat.le_add_right _ _

/-- What is popped some thread had to push. -/
theorem exists_push (hv : v ≠ 0) {sel : ReadResponseSelector} {turns : List (Digit × Draws)}
    {t : Digit} (hmem : v ∈ ((Iteration.init sel rows).run turns).popValues t) :
    ∃ t', .push v ∈ doOperations t' (rows t') := by
  have h := Iteration.accounted_run hv sel rows turns
  obtain ⟨i, rfl⟩ := exists_digit t
  have hmade : 0 < ∑ i, ((Iteration.init sel rows).run turns).popsMade v (digit i) :=
    Nat.lt_of_lt_of_le (List.count_pos_iff.mpr hmem) (Nat.le_trans (count_le_popsMade v _ _)
      (Finset.single_le_sum (f := fun j => Iteration.popsMade v _ (digit j))
        (fun _ _ => Nat.zero_le _) (Finset.mem_univ i)))
  rw [h.pops] at hmade
  have hpushed := List.count_pos_iff.mpr (h.sound.popped_pushed v (List.count_pos_iff.mp hmade))
  obtain ⟨j, -, hj⟩ := Finset.exists_ne_zero_of_sum_ne_zero
    (s := Finset.univ) (f := fun j => (doOperations (digit j) (rows (digit j))).count (.push v))
    (by have := h.pushes; omega)
  exact ⟨digit j, List.count_pos_iff.mp (Nat.pos_of_ne_zero hj)⟩

/-- On a linearizable store one pop at most returns a value. -/
theorem sum_popsMade (hrows : ∀ t, (rows t).length ≤ 9) (hv : v ≠ 0)
    (turns : List (Digit × Draws)) :
    ∑ i, ((Iteration.init .linearizable rows).run turns).popsMade v (digit i) ≤ 1 := by
  have h := Iteration.accounted_run hv .linearizable rows turns
  obtain ⟨-, hinv⟩ := Iteration.run_stack (P := fun s => ThreadsInv s ∧ StackInv s)
    (fun s a h => stack_step h.1 h.2 a) turns (d := Iteration.init .linearizable rows)
    ⟨threadsInv_init .linearizable, stackInv_init⟩
  have hpopped := hinv.count_popped_le v
  have hone := sum_doOperations hrows v
  have hpushes := h.pushes
  rw [h.pops]
  omega

/-- So two pops that return it are one. -/
theorem eq_of_popped {d : Iteration} (hone : ∑ i, d.popsMade v (digit i) ≤ 1) {t t' : Digit}
    {i j : Nat} (hi : (d.popValues t)[i]? = some v) (hj : (d.popValues t')[j]? = some v) :
    t = t' ∧ i = j := by
  have hmade : ∀ {u k}, (d.popValues u)[k]? = some v → 0 < d.popsMade v u := fun hk =>
    Nat.lt_of_lt_of_le (List.count_pos_iff.mpr (List.mem_of_getElem? hk))
      (count_le_popsMade v d _)
  obtain ⟨k, rfl⟩ := exists_digit t
  obtain ⟨k', rfl⟩ := exists_digit t'
  have hsame : k = k' := by
    by_contra hne
    have hpair := Finset.sum_le_sum_of_subset (f := fun k => d.popsMade v (digit k))
      (Finset.subset_univ {k, k'})
    rw [Finset.sum_pair hne] at hpair
    have := hmade hi
    have := hmade hj
    omega
  subst hsame
  refine ⟨rfl, ?_⟩
  have hcount : (d.popValues (digit k)).count v ≤ 1 :=
    Nat.le_trans (count_le_popsMade v d _) (Nat.le_trans
      (Finset.single_le_sum (f := fun k => d.popsMade v (digit k)) (fun _ _ => Nat.zero_le _)
        (Finset.mem_univ k)) hone)
  exact ListOrder.eq_of_count_le_one hcount hi hj

end Popped

/-! ## The results -/

/-- An assignment adds what is assigned at most. -/
theorem count_set_le (results : List Int) (i : Nat) (val v : Int) :
    (results.set i val).count v ≤ results.count v + [val].count v := by
  by_cases hi : i < results.length
  · rw [List.count_set hi, List.count_singleton]
    exact Nat.add_le_add_right (Nat.sub_le _ _) _
  · rw [List.set_eq_of_length_le (Nat.not_lt.mp hi)]
    exact Nat.le_add_right _ _

theorem count_writeResults (t : Digit) (popValues results : List Int) (v : Int) :
    (writeResults t popValues results).count v ≤ results.count v + popValues.count v := by
  have key : ∀ k, ((popValues.zipIdx k).foldl
      (fun results pop => results.set ((t.1 - 1).toNat * 2 + pop.2) pop.1) results).count v
        ≤ results.count v + popValues.count v := by
    induction popValues generalizing results with
    | nil => exact fun k => Nat.le_refl _
    | cons val rest ih =>
        intro k
        have hset := count_set_le results ((t.1 - 1).toNat * 2 + k) val v
        rw [List.zipIdx_cons, List.foldl_cons, ← List.singleton_append, List.count_append,
          ← Nat.add_assoc]
        exact Nat.le_trans (ih _ (k + 1)) (Nat.add_le_add_right hset _)
  exact key 0

theorem count_results {v : Int} (hv : v ≠ 0) (d : Iteration) :
    (results d).count v ≤ ∑ i, d.popsMade v (digit i) := by
  have hzero : (List.replicate 6 (0 : Int)).count v = 0 :=
    List.count_eq_zero.mpr fun hmem => hv (List.eq_of_mem_replicate hmem)
  have hwrites : ∀ (ts : List Digit) (l : List Int),
      (ts.foldl (fun results t => writeResults t (d.popValues t) results) l).count v
        ≤ l.count v + (ts.map fun t => (d.popValues t).count v).sum := by
    intro ts
    induction ts with
    | nil => exact fun l => Nat.le_refl _
    | cons t ts ih =>
        intro l
        rw [List.foldl_cons, List.map_cons, List.sum_cons, ← Nat.add_assoc]
        exact Nat.le_trans (ih _) (Nat.add_le_add_right (count_writeResults t _ l v) _)
  calc (results d).count v
      ≤ (sessions.map fun t => (d.popValues t).count v).sum := by
        have hall := hwrites sessions (List.replicate 6 0)
        rwa [hzero, Nat.zero_add] at hall
    _ = ∑ i ∈ {0, 1, 2}, (d.popValues (digit i)).count v := by simp [sessions, digit]
    _ ≤ ∑ i ∈ {0, 1, 2}, d.popsMade v (digit i) :=
        Finset.sum_le_sum fun i _ => count_le_popsMade v d _
    _ ≤ ∑ i, d.popsMade v (digit i) := Finset.sum_le_sum_of_subset (Finset.subset_univ _)

/-- The first thread runs to its end, then the second, and the third is shown old heads. -/
def repeatedTurns : List (Digit × Draws) :=
  List.replicate 21 (digit 0, newestDraws) ++ List.replicate 40 (digit 1, newestDraws)
    ++ List.replicate 20 (digit 2, nthDraws 2)

/--
**What `check_pop_valid` finds.** Whatever the store, a value that a pop returned is one that
some thread had to push. On a linearizable store no two pops return the same value, in any
order of the threads' steps, and the check finds nothing. On a causal one the fixed run may
come to an end at which it finds one.
-/
theorem repeatValue_results (rows : Digit → List Bool) (hrows : ∀ t, (rows t).length ≤ 9) :
    (∀ sel turns t, ∀ v ∈ ((Iteration.init sel rows).run turns).popValues t, v ≠ 0 →
        ∃ t', .push v ∈ doOperations t' (rows t'))
      ∧ (∀ turns,
        (∀ (t t' : Digit) (i j : Nat) (v : Int), v ≠ 0 →
            (((Iteration.init .linearizable rows).run turns).popValues t)[i]? = some v →
            (((Iteration.init .linearizable rows).run turns).popValues t')[j]? = some v →
            t = t' ∧ i = j)
          ∧ repeatValue (results ((Iteration.init .linearizable rows).run turns)) [] = false)
      ∧ ∃ turns, joined ((Iteration.init .causal operations).run turns) = true
          ∧ repeatValue (results ((Iteration.init .causal operations).run turns)) [] = true := by
  refine ⟨fun sel turns t v hmem hv => exists_push hv hmem, fun turns => ⟨?_, ?_⟩,
    repeatedTurns, by decide +kernel⟩
  · intro t t' i j v hv hi hj
    exact eq_of_popped (sum_popsMade hrows hv turns) hi hj
  · rw [repeatValue_iff]
    refine ⟨fun e _ _ => List.not_mem_nil, List.nodup_iff_count_le_one.mpr fun v => ?_⟩
    by_cases hv : v = 0
    · rw [List.count_eq_zero.mpr (by simp [hv])]
      exact Nat.zero_le 1
    · exact Nat.le_trans (List.filter_sublist.count_le v)
        (Nat.le_trans (count_results hv _) (sum_popsMade hrows hv turns))

theorem repeatValue_results_operations :
    (∀ sel turns t, ∀ v ∈ ((Iteration.init sel operations).run turns).popValues t, v ≠ 0 →
        ∃ t', .push v ∈ doOperations t' (operations t'))
      ∧ (∀ turns,
        (∀ (t t' : Digit) (i j : Nat) (v : Int), v ≠ 0 →
            (((Iteration.init .linearizable operations).run turns).popValues t)[i]? = some v →
            (((Iteration.init .linearizable operations).run turns).popValues t')[j]? = some v →
            t = t' ∧ i = j)
          ∧ repeatValue (results ((Iteration.init .linearizable operations).run turns)) []
            = false)
      ∧ ∃ turns, joined ((Iteration.init .causal operations).run turns) = true
          ∧ repeatValue (results ((Iteration.init .causal operations).run turns)) [] = true := by
  refine repeatValue_results operations fun t => ?_
  unfold operations
  split_ifs <;> decide

end RunStack

end MockDB
