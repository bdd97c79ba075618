import MockDB.Lib.Potential
import MockDB.Proof.TreiberLinear

/-!
# The Treiber stack makes progress

A call that fails to update the head has been overtaken by one that succeeded, so threads
that keep moving keep ending calls, and a thread that moves alone ends its own. The
potential of a thread is the number of moves up to the end of its call, plus the three
that reading the head again takes if the head it has read is no longer the head. An update
of the head pays for the eight other threads it may send back.
-/

namespace MockDB

open Linearizability

variable {V : Type}

/-- The moves to the end of a call that is not overtaken. A new call is priced in advance. -/
def Pc.ahead : Pc V → Nat
  | .pushSize _ => 5
  | .pushInsert _ _ => 4
  | .pushReadHead _ _ => 3
  | .pushLink _ _ _ => 2
  | .pushUpdate _ _ _ => 1
  | .popReadHead => 3
  | .popReadNode _ => 2
  | .popUpdate _ _ => 1
  | .done _ => 5

/-- The head that a thread goes by. -/
def Pc.headRead : Pc V → Option Int
  | .pushLink _ _ cur | .pushUpdate _ _ cur | .popReadNode cur | .popUpdate cur _ => some cur
  | _ => none

/-- The moves that a retry adds, if what was read is not the head `h`. -/
def retryCost (h : Int) (read : Option Int) : Nat :=
  if read = none ∨ read = some h then 0 else 3

theorem retryCost_le (h : Int) (read : Option Int) : retryCost h read ≤ 3 := by
  unfold retryCost
  split <;> omega

theorem retryCost_fresh (h : Int) : retryCost h (some h) = 0 := if_pos (Or.inr rfl)

theorem retryCost_stale {h cur : Int} (hne : cur ≠ h) : retryCost h (some cur) = 3 := by
  simp [retryCost, hne]

/-- What a thread may still cost where the head is `h`. -/
def Pc.potential (h : Int) (pc : Pc V) : Nat := pc.ahead + retryCost h pc.headRead

theorem Pc.one_le_potential (h : Int) (pc : Pc V) : 1 ≤ pc.potential h := by
  have hahead : 1 ≤ pc.ahead := by cases pc <;> simp [Pc.ahead]
  exact Nat.le_trans hahead (Nat.le_add_right _ _)

theorem Pc.potential_le_five (h : Int) (pc : Pc V) : pc.potential h ≤ 5 := by
  have hretry := fun read => retryCost_le h read
  unfold Pc.potential
  cases pc with
  | pushSize | pushInsert | pushReadHead | popReadHead | done => exact Nat.le_of_ble_eq_true rfl
  | pushLink val id cur => exact Nat.add_le_add_left (hretry _) 2
  | pushUpdate val id cur => exact Nat.le_succ_of_le (Nat.add_le_add_left (hretry _) 1)
  | popReadNode cur => exact Nat.add_le_add_left (hretry _) 2
  | popUpdate cur head => exact Nat.le_succ_of_le (Nat.add_le_add_left (hretry _) 1)

/-- Another head sends a thread back at most once. -/
theorem Pc.potential_le_add (h h' : Int) (pc : Pc V) : pc.potential h' ≤ pc.potential h + 3 := by
  unfold Pc.potential
  have := retryCost_le h' pc.headRead
  omega

namespace Stack

/-- Where the thread of a session is. -/
def potentialAt (s : Stack V) (h : Int) (t : Digit) : Nat :=
  match s.threads t with
  | none => 5
  | some th => th.pc.potential h

/-- The id that the head of the stack has. -/
def head (s : Stack V) : Int := (s.world.latest 0).elim (-1) Prod.snd

/-- The nine sessions. -/
def digit (i : Fin 9) : Digit := ⟨i.val + 1, by omega, by omega⟩

theorem digit_injective : Function.Injective digit := by
  intro i j hij
  have hval : (i.val + 1 : Int) = j.val + 1 := congrArg Subtype.val hij
  exact Fin.ext (by omega)

theorem exists_digit (t : Digit) : ∃ i, digit i = t := by
  have := t.2
  exact ⟨⟨(t.1 - 1).toNat, by omega⟩, Subtype.ext (by simp only [digit]; omega)⟩

def potential (s : Stack V) : Nat := ∑ i, s.potentialAt s.head (digit i)

/-- The step is one of a thread inside a call. -/
def isMove (s : Stack V) : StackStep V → Bool
  | .move t _ =>
      match s.threads t with
      | none => false
      | some ⟨_, _, .done _⟩ => false
      | some _ => true
  | _ => false

theorem potentialAt_le_five (s : Stack V) (h : Int) (t : Digit) : s.potentialAt h t ≤ 5 := by
  unfold potentialAt
  cases s.threads t with
  | none => exact Nat.le_refl _
  | some th => exact Pc.potential_le_five h th.pc

theorem potential_le (s : Stack V) : s.potential ≤ 45 := by
  calc s.potential ≤ ∑ _i : Fin 9, 5 := Finset.sum_le_sum fun i _ => s.potentialAt_le_five _ _
    _ = 45 := by simp

/-- One thread goes from `th` to `th'`, and the head from `h` to `h'`. -/
theorem potential_update {s s' : Stack V} {t : Digit} {x : Option (StackThread V)}
    (hthreads : s'.threads = Function.update s.threads t x) {c : Nat}
    (hothers : ∀ pc : Pc V, pc.potential s'.head ≤ pc.potential s.head + c) :
    s'.potential + s.potentialAt s.head t
      ≤ s.potential + s'.potentialAt s'.head t + 8 * c := by
  obtain ⟨i, rfl⟩ := exists_digit t
  have hsum := Potential.sum_change (f := fun j => s.potentialAt s.head (digit j))
    (g := fun j => s'.potentialAt s'.head (digit j)) i (c := c) fun j hj => by
      have hne : digit j ≠ digit i := fun heq => hj (digit_injective heq)
      have hsame : s'.threads (digit j) = s.threads (digit j) := by
        rw [hthreads, Function.update_of_ne hne]
      unfold potentialAt
      rw [hsame]
      cases s.threads (digit j) with
      | none => exact Nat.le_add_right _ _
      | some th => exact hothers th.pc
  rw [Fintype.card_fin] at hsum
  exact hsum

end Stack

section Moves

variable [Zero V]

/-- An update of the head fails only where the head is no longer the one that was read. -/
theorem updateHead_stale {w w' : World Int (V × Int)} {z : V} {h : Int} (hr : Reachable w)
    (hsel : w.store.readSelector = .linearizable) (h0 : w.latest 0 = some (z, h))
    {oldHead newHead s : Int} {draws : Draws}
    (hupd : updateHead w oldHead newHead s draws = (false, w')) : oldHead ≠ h := by
  obtain ⟨w'', -, -, -, ⟨-, htrue, -⟩ | ⟨hne, -, -⟩⟩ :=
    updateHead_eq hr hsel h0 oldHead newHead s draws
  · rw [htrue] at hupd
    cases hupd
  · exact fun heq => hne heq.symm

/-- **A move that does not end its call** comes closer to the end. -/
theorem step_potential {w w' : World Int (V × Int)} {z : V} {h : Int} (hr : Reachable w)
    (hsel : w.store.readSelector = .linearizable) (h0 : w.latest 0 = some (z, h)) {s : Int}
    {draws : Draws} {pc pc' : Pc V} (hpc : ∀ r, pc ≠ .done r)
    (hstep : pc.step w s draws = (pc', w')) (hgo : ∀ r, pc' ≠ .done r) :
    pc'.potential h + 1 ≤ pc.potential h := by
  obtain ⟨pc'', w'', hstep', -, -, hm⟩ := step_moves hr hsel h0 s draws hpc
  obtain ⟨rfl, rfl⟩ := Prod.mk.inj (hstep'.symm.trans hstep)
  generalize w''.latest = view', w''.store.getSize = size' at hm
  cases hm with
  | size val => exact Nat.le_refl _
  | insert val id => exact Nat.le_refl _
  | readHead val id =>
      show 2 + retryCost h (some h) + 1 ≤ 3
      rw [retryCost_fresh]
  | link val id cur =>
      show 1 + retryCost h (some cur) + 1 ≤ 2 + retryCost h (some cur)
      omega
  | push val id => exact absurd rfl (hgo _)
  | pushRetry val id cur =>
      have hstale : cur ≠ h := by
        cases hupd : updateHead w cur id s draws with
        | mk updated w₁ =>
            cases updated with
            | true => simp [Pc.step, hupd] at hstep
            | false => exact updateHead_stale hr hsel h0 hupd
      show 3 + 0 + 1 ≤ 1 + retryCost h (some cur)
      rw [retryCost_stale hstale]
  | popEmpty hh => exact absurd rfl (hgo _)
  | popHead hh =>
      show 2 + retryCost h (some h) + 1 ≤ 3
      rw [retryCost_fresh]
  | popNode cur head hnode =>
      show 1 + retryCost h (some cur) + 1 ≤ 2 + retryCost h (some cur)
      omega
  | popMissing cur hnode => exact absurd rfl (hgo _)
  | pop head => exact absurd rfl (hgo _)
  | popRetry cur head =>
      have hstale : cur ≠ h := by
        cases hupd : updateHead w cur head.2 s draws with
        | mk updated w₁ =>
            cases updated with
            | true => simp [Pc.step, hupd] at hstep
            | false => exact updateHead_stale hr hsel h0 hupd
      show 3 + 0 + 1 ≤ 1 + retryCost h (some cur)
      rw [retryCost_stale hstale]

/-- A move that does not end its call leaves the head where it is. -/
theorem head_moves {t : Digit} {view view' : Int → Option (V × Int)} {size size' : Nat}
    {pushes : List (Int × V)} {h : Int} {pc pc' : Pc V} (hp : PcInv t view size pushes pc)
    (hm : Moves t.1 view size h pc pc' view' size') (hgo : ∀ r, pc' ≠ .done r) :
    view' 0 = view 0 := by
  cases hm with
  | insert val id =>
      obtain ⟨⟨n, -, hid⟩, -⟩ := hp
      exact Function.update_of_ne (Int.ne_of_lt (NodeOf.pos ⟨n, hid⟩)) _ _
  | link val id cur => exact Function.update_of_ne (Int.ne_of_lt (Private.own hp).pos) _ _
  | push val id => exact absurd rfl (hgo _)
  | pop head => exact absurd rfl (hgo _)
  | _ => rfl

end Moves

section Run

variable [Zero V] {s : Stack V}

theorem StackInv.head_eq (h : StackInv s) : ∃ z, s.world.latest 0 = some (z, s.head) := by
  obtain ⟨hd, l, hs, -⟩ := h.shared
  obtain ⟨z, h0⟩ := hs.head
  refine ⟨z, ?_⟩
  unfold Stack.head
  rw [h0]
  rfl

/-- What a move of a thread inside a call makes of the stack. -/
theorem step_move {t : Digit} {th : StackThread V} (ht : s.threads t = some th)
    (hpc : ∀ r, th.pc ≠ .done r) {draws : Draws} {pc' : Pc V} {w' : World Int (V × Int)}
    (hstep : th.pc.step s.world t.1 draws = (pc', w')) :
    s.step (.move t draws) = { s with
      world := w'
      threads := Function.update s.threads t (some { th with pc := pc' })
      log := s.log ++ Stack.logged th pc'
      pushes := s.pushes ++ Stack.pushedNode th.pc pc'
      pops := s.pops ++ Stack.poppedNode th.pc pc' } := by
  unfold Stack.step
  dsimp only
  split
  · rename_i hno; rw [ht] at hno; cases hno
  · rename_i c op r hd; rw [ht] at hd; cases hd; exact absurd rfl (hpc r)
  · rename_i th' _ hth
    obtain rfl := Option.some.inj (ht.symm.trans hth)
    rw [hstep]

/-- What a move of a thread inside a call does to the potential and to the log. -/
theorem stack_move_paid (h : StackInv s) {t : Digit} {th : StackThread V}
    (ht : s.threads t = some th) (hpc : ∀ r, th.pc ≠ .done r) (draws : Draws) :
    ((∃ th' r, (s.step (.move t draws)).threads t = some th' ∧ th'.pc = .done r)
        ∧ (s.step (.move t draws)).log.length = s.log.length + 1
        ∧ (s.step (.move t draws)).potential ≤ s.potential + 28)
      ∨ (s.step (.move t draws)).log = s.log
        ∧ (s.step (.move t draws)).potential + 1 ≤ s.potential
        ∧ ∃ th', (s.step (.move t draws)).threads t = some th'
          ∧ th'.pc.potential (s.step (.move t draws)).head + 1 ≤ th.pc.potential s.head := by
  obtain ⟨z, h0⟩ := h.head_eq
  obtain ⟨pc', w', hstep, -, -, hm⟩ := step_moves h.reach h.strong h0 t.1 draws hpc
  have hmove := step_move ht hpc hstep
  generalize hs' : s.step (.move t draws) = s' at hmove ⊢
  have hthreads : s'.threads = Function.update s.threads t (some { th with pc := pc' }) := by
    rw [hmove]
  have hself : s'.threads t = some { th with pc := pc' } := by
    rw [hthreads, Function.update_self]
  have hold : s.potentialAt s.head t = th.pc.potential s.head := by
    unfold Stack.potentialAt; rw [ht]
  have hnew : s'.potentialAt s'.head t = pc'.potential s'.head := by
    unfold Stack.potentialAt; rw [hself]
  by_cases hdone : ∃ r, pc' = .done r
  · -- the thread itself starts over, and may send back the eight others
    left
    obtain ⟨r, rfl⟩ := hdone
    have hsum := Stack.potential_update hthreads (c := 3)
      fun pc => Pc.potential_le_add s.head s'.head pc
    have hone := Pc.one_le_potential s.head th.pc
    have hfive := Pc.potential_le_five s'.head (.done r : Pc V)
    refine ⟨⟨_, r, hself, rfl⟩, ?_, by omega⟩
    rw [hmove]
    exact List.length_append
  · right
    have hgo : ∀ r, pc' ≠ .done r := fun r hr => hdone ⟨r, hr⟩
    have hhead : s'.head = s.head := by
      unfold Stack.head
      rw [hmove]
      dsimp only
      rw [head_moves (h.pcs t th ht).1 hm hgo]
    have hcloser := step_potential h.reach h.strong h0 hpc hstep hgo
    have hsum := Stack.potential_update hthreads (c := 0) fun pc => by
      rw [hhead]; exact Nat.le_refl _
    refine ⟨?_, ?_, _, hself, ?_⟩
    · rw [hmove]
      cases pc' with
      | done r => exact absurd rfl (hgo r)
      | _ => exact List.append_nil _
    · rw [hhead] at hnew hsum
      omega
    · rw [hhead]
      exact hcloser

/-- **Each step is paid** by the potential, or by the call it ends. -/
theorem stack_paid (h : StackInv s) (a : StackStep V) :
    (s.isMove a).toNat + (s.step a).potential + 29 * s.log.length
      ≤ s.potential + 29 * (s.step a).log.length := by
  -- a step that leaves the world as it is leaves the head
  have hframe : ∀ {t : Digit} {x : Option (StackThread V)} {s' : Stack V},
      s'.world = s.world → s'.log = s.log →
      s'.threads = Function.update s.threads t x → s.potentialAt s.head t = 5 →
      s'.potential + 29 * s.log.length ≤ s.potential + 29 * s'.log.length := by
    intro t x s' hworld hlog hthreads hfive
    have hhead : s'.head = s.head := by unfold Stack.head; rw [hworld]
    have hsum := Stack.potential_update hthreads (c := 0) fun pc => by
      rw [hhead]; exact Nat.le_refl _
    have hle := s'.potentialAt_le_five s'.head t
    rw [hlog]
    omega
  cases a with
  | invoke t op =>
      show 0 + _ + _ ≤ _
      rw [Nat.zero_add]
      cases ht : s.threads t with
      | some th => simp only [Stack.step, ht]; exact Nat.le_refl _
      | none =>
          simp only [Stack.step, ht]
          refine hframe rfl rfl rfl ?_
          unfold Stack.potentialAt
          rw [ht]
  | move t draws =>
      cases ht : s.threads t with
      | none => simp [Stack.step, Stack.isMove, ht]
      | some th =>
          by_cases hdone : ∃ r, th.pc = .done r
          · obtain ⟨r, hr⟩ := hdone
            obtain ⟨c, op, pc⟩ := th
            obtain rfl : pc = .done r := hr
            simp [Stack.step, Stack.isMove, ht]
          · have hle : (s.isMove (.move t draws)).toNat ≤ 1 := Bool.toNat_le _
            rcases stack_move_paid h ht (fun r hr => hdone ⟨r, hr⟩) draws with
              ⟨-, hlog, hpot⟩ | ⟨hlog, hpot, -⟩
            · omega
            · rw [hlog]; omega
  | ret t =>
      show 0 + _ + _ ≤ _
      rw [Nat.zero_add]
      unfold Stack.step
      dsimp only
      split
      · rename_i c op r ht
        refine hframe rfl rfl rfl ?_
        unfold Stack.potentialAt
        rw [ht]
        rfl
      · exact Nat.le_refl _

/-- How many of the steps are moves of threads inside calls. -/
def Stack.moves (s : Stack V) (steps : List (StackStep V)) : Nat :=
  Potential.work Stack.step (fun s a => (s.isMove a).toNat) s steps

/--
**Threads that keep moving keep ending calls.** Whatever was done to a stack on a linearizable
store and whoever moves next: threads inside calls make at most 29 moves for each call that
takes effect, and 45 more. So out of 46 moves at least one ends a call.
-/
theorem treiber_lock_free (before after : List (StackStep V)) :
    let s := (Stack.init .linearizable).run before
    s.moves after ≤ 29 * ((s.run after).log.length - s.log.length) + 45 := by
  intro s
  obtain ⟨hth, h⟩ : ThreadsInv s ∧ StackInv s :=
    stack_run before (threadsInv_init .linearizable) stackInv_init
  have hpaid := Potential.work_le (I := fun s : Stack V => ThreadsInv s ∧ StackInv s)
    (fun s a h => stack_step h.1 h.2 a) (fun s a h => stack_paid h.2 a) after ⟨hth, h⟩
  have hle := s.potential_le
  unfold Stack.moves
  unfold Stack.run at hpaid ⊢
  omega

/-- A thread at the end of its call stays there. -/
theorem run_moves_done (draws : List Draws) {t : Digit} {th : StackThread V} {r : StackRet V}
    (ht : s.threads t = some th) (hr : th.pc = .done r) :
    (s.run (draws.map (.move t))).threads t = some th := by
  obtain ⟨c, op, pc⟩ := th
  obtain rfl : pc = .done r := hr
  have hstay : ∀ d, s.step (.move t d) = s := fun d => by simp [Stack.step, ht]
  induction draws with
  | nil => exact ht
  | cons d draws ih =>
      show ((s.step (.move t d)).run (draws.map (.move t))).threads t = _
      rw [hstay d]
      exact ih

/--
**A thread that moves alone ends its call** within five moves, wherever the others have
stopped.
-/
theorem treiber_obstruction_free (before : List (StackStep V)) (t : Digit) (draws : List Draws)
    (hmoves : 5 ≤ draws.length) :
    let s := (Stack.init .linearizable).run before
    ∀ th, s.threads t = some th →
      ∃ th' r, (s.run (draws.map (.move t))).threads t = some th' ∧ th'.pc = .done r := by
  intro s
  obtain ⟨hth, h⟩ : ThreadsInv s ∧ StackInv s :=
    stack_run before (threadsInv_init .linearizable) stackInv_init
  suffices hgen : ∀ (draws : List Draws) {s : Stack V} {th : StackThread V}, ThreadsInv s →
      StackInv s → s.threads t = some th →
      (∀ r, th.pc ≠ .done r) → th.pc.potential s.head ≤ draws.length →
      ∃ th' r, (s.run (draws.map (.move t))).threads t = some th' ∧ th'.pc = .done r by
    intro th ht
    by_cases hdone : ∃ r, th.pc = .done r
    · obtain ⟨r, hr⟩ := hdone
      exact ⟨th, r, run_moves_done draws ht hr, hr⟩
    · exact hgen draws hth h ht (fun r hr => hdone ⟨r, hr⟩)
        (Nat.le_trans (Pc.potential_le_five _ _) hmoves)
  intro draws
  induction draws with
  | nil =>
      intro s th _ _ _ _ hle
      have := Pc.one_le_potential s.head th.pc
      exact absurd hle (by simp only [List.length_nil]; omega)
  | cons d draws ih =>
      intro s th hth h ht hpc hle
      obtain ⟨hth', h'⟩ := stack_step hth h (.move t d)
      rcases stack_move_paid h ht hpc d with
        ⟨⟨th', r, ht', hr⟩, -, -⟩ | ⟨-, -, th', ht', hpot⟩
      · exact ⟨th', r, run_moves_done draws ht' hr, hr⟩
      · by_cases hdone : ∃ r, th'.pc = .done r
        · obtain ⟨r, hr⟩ := hdone
          exact ⟨th', r, run_moves_done draws ht' hr, hr⟩
        · refine ih hth' h' ht' (fun r hr => hdone ⟨r, hr⟩) ?_
          rw [List.length_cons] at hle
          omega

/-- Session 2 has stopped inside its `push`, and session 1 pushes. -/
theorem treiber_obstruction_free_example :
    let s : Stack Nat := (Stack.init .linearizable).run
      [.invoke ⟨2, by decide⟩ (.push 7), .move ⟨2, by decide⟩ zeroDraws,
        .invoke ⟨1, by decide⟩ (.push 5)]
    ∃ th' r, (s.run ((List.replicate 5 zeroDraws).map (.move ⟨1, by decide⟩))).threads
      ⟨1, by decide⟩ = some th' ∧ th'.pc = .done r :=
  treiber_obstruction_free _ ⟨1, by decide⟩ (List.replicate 5 zeroDraws) (by decide) _ rfl

end Run

end MockDB
