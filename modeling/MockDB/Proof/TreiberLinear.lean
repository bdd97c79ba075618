import MockDB.Proof.TreiberStep

/-!
# Linearizability of the Treiber stack

A call takes effect where it updates the head, or reads from it that the stack is empty.
In that order the calls do what a list does; the nodes pushed and not yet popped are those
of the list.
-/

namespace MockDB

open Linearizability

variable {V : Type}

/-- A stack. -/
def lifo : Spec (List V) (StackOp V) (StackRet V) where
  init := []
  step s
    | .push val => (val :: s, .pushed)
    | .pop =>
        match s with
        | [] => ([], .popped none)
        | val :: rest => (rest, .popped (some val))

/-- The value an entry of the log put on the stack. -/
def pushedVal (e : Entry Nat (StackOp V) (StackRet V)) : Option V :=
  match e.op, e.ret with
  | .push val, .pushed => some val
  | _, _ => none

/-- The value an entry of the log took off the stack. -/
def poppedVal (e : Entry Nat (StackOp V) (StackRet V)) : Option V :=
  match e.op, e.ret with
  | .pop, .popped val => val
  | _, _ => none

/-- The thread is in the code of its call. -/
def InCode (op : StackOp V) : Pc V → Prop
  | .pushSize val | .pushInsert val _ | .pushReadHead val _ | .pushLink val _ _
  | .pushUpdate val _ _ => op = .push val
  | .popReadHead | .popReadNode _ | .popUpdate _ _ => op = .pop
  | .done _ => True

theorem inCode_start (op : StackOp V) : InCode op op.start := by
  cases op with
  | push val => rfl
  | pop => rfl

section Moves

variable [Zero V] {t : Int} {view view' : Int → Option (V × Int)} {size size' : Nat} {h : Int}
  {pc pc' : Pc V} {op : StackOp V} {l l' : List (Int × V)}

theorem inCode_moves (hop : InCode op pc) (hm : Moves t view size h pc pc' view' size') :
    InCode op pc' := by
  cases hm <;> first | exact hop | trivial

/-- **A call that ends does to the stack what the list does**; a call that goes on does
nothing yet. -/
theorem lifo_moves (hop : InCode op pc) (hm : Moves t view size h pc pc' view' size')
    (heff : StackEffect l l' pc pc') :
    (∀ r, pc' = .done r → lifo.step (l.map Prod.snd) op = (l'.map Prod.snd, r))
      ∧ ((∀ r, pc' ≠ .done r) → l' = l) := by
  cases hm with
  | size val => exact ⟨fun _ hr => (nomatch hr), fun _ => heff⟩
  | insert val id => exact ⟨fun _ hr => (nomatch hr), fun _ => heff⟩
  | readHead val id => exact ⟨fun _ hr => (nomatch hr), fun _ => heff⟩
  | link val id cur => exact ⟨fun _ hr => (nomatch hr), fun _ => heff⟩
  | push val id =>
      obtain rfl : op = .push val := hop
      obtain rfl : l' = (id, val) :: l := heff
      exact ⟨fun r hr => by (cases hr; rfl), fun hno => absurd rfl (hno _)⟩
  | pushRetry val id cur => exact ⟨fun _ hr => (nomatch hr), fun _ => heff⟩
  | popEmpty hh =>
      obtain rfl : op = .pop := hop
      obtain ⟨rfl, rfl⟩ : l = [] ∧ l' = [] := heff
      exact ⟨fun r hr => by (cases hr; rfl), fun hno => absurd rfl (hno _)⟩
  | popHead hh => exact ⟨fun _ hr => (nomatch hr), fun _ => heff⟩
  | popNode cur head hnode => exact ⟨fun _ hr => (nomatch hr), fun _ => heff⟩
  | popMissing cur hnode =>
      obtain rfl : op = .pop := hop
      obtain ⟨rfl, rfl⟩ : l = [] ∧ l' = [] := heff
      exact ⟨fun r hr => by (cases hr; rfl), fun hno => absurd rfl (hno _)⟩
  | pop head =>
      obtain rfl : op = .pop := hop
      obtain rfl : l = (h, head.1) :: l' := heff
      exact ⟨fun r hr => by (cases hr; rfl), fun hno => absurd rfl (hno _)⟩
  | popRetry cur head => exact ⟨fun _ hr => (nomatch hr), fun _ => heff⟩

/-- The log and the two lists of nodes record the same values. -/
theorem recorded_moves (c : Nat) (hop : InCode op pc)
    (hm : Moves t view size h pc pc' view' size') :
    (Stack.logged ⟨c, op, pc⟩ pc').filterMap pushedVal = (Stack.pushedNode pc pc').map Prod.snd
      ∧ (Stack.logged ⟨c, op, pc⟩ pc').filterMap poppedVal
          = (Stack.poppedNode pc pc').map Prod.snd := by
  cases hm <;> cases hop <;> exact ⟨rfl, rfl⟩

end Moves

/-! ## Calls and threads -/

/-- How threads, events and the log hang together. -/
structure ThreadsInv (s : Stack V) : Prop where
  made : ∀ t th, s.threads t = some th → .inv th.call th.op ∈ s.events
  known : ∀ c op, .inv c op ∈ s.events → c < s.calls
  own : ∀ t u th th', s.threads t = some th → s.threads u = some th' → th.call = th'.call → t = u
  /-- A call in the log that has not returned is about to. -/
  ended : ∀ e ∈ s.log, ∀ t th, s.threads t = some th → th.call = e.id → th.pc = .done e.ret
  returning : ∀ t th r, s.threads t = some th → th.pc = .done r →
    ∃ e ∈ s.log, e.id = th.call ∧ e.ret = r
  linear : IsLinearization s.events s.log

/-- What the store and the log say about the stack. -/
structure StackInv [Zero V] (s : Stack V) : Prop where
  reach : Reachable s.world
  strong : s.world.store.readSelector = .linearizable
  shared : ∃ h l, Shared s.world.latest s.world.store.getSize s.pushes s.pops h l
    ∧ lifo.after s.log = l.map Prod.snd
  pcs : ∀ t th, s.threads t = some th →
    PcInv t s.world.latest s.world.store.getSize s.pushes th.pc ∧ InCode th.op th.pc
  legal : lifo.Legal s.log
  pushedVals : s.log.filterMap pushedVal = s.pushes.map Prod.snd
  poppedVals : s.log.filterMap poppedVal = s.pops.map Prod.snd

section Step

variable [Zero V] {s : Stack V}

theorem threadsInv_init (sel : ReadResponseSelector) : ThreadsInv (Stack.init sel : Stack V) where
  made := by intro t th ht; cases ht
  known := by intro c op hc; cases hc
  own := by intro t u th th' ht; cases ht
  ended := by intro e he; cases he
  returning := by intro t th r ht; cases ht
  linear := isLinearization_nil

omit [Zero V] in
/-- A thread after one thread moved. -/
theorem threads_update {threads : Digit → Option (StackThread V)} {t u : Digit}
    {x : Option (StackThread V)} {th : StackThread V}
    (h : Function.update threads t x u = some th) :
    (u = t ∧ x = some th) ∨ (u ≠ t ∧ threads u = some th) := by
  by_cases hut : u = t
  · subst hut
    rw [Function.update_self] at h
    exact Or.inl ⟨rfl, h⟩
  · rw [Function.update_of_ne hut] at h
    exact Or.inr ⟨hut, h⟩

omit [Zero V] in
/-- Calls of different threads stay different when a thread goes on with one of its own. -/
theorem own_update {threads : Digit → Option (StackThread V)} {t : Digit} {x : StackThread V}
    (hown : ∀ u u' th th', threads u = some th → threads u' = some th' →
      th.call = th'.call → u = u')
    (hnew : ∀ u th, u ≠ t → threads u = some th → th.call ≠ x.call) (u u' : Digit)
    (th th' : StackThread V) (hu : Function.update threads t (some x) u = some th)
    (hu' : Function.update threads t (some x) u' = some th') (hcall : th.call = th'.call) :
    u = u' := by
  rcases threads_update hu with ⟨rfl, heq⟩ | ⟨hne, hold⟩
  · obtain rfl := Option.some.inj heq
    rcases threads_update hu' with ⟨rfl, -⟩ | ⟨hne', hold'⟩
    · rfl
    · exact absurd hcall.symm (hnew u' th' hne' hold')
  · rcases threads_update hu' with ⟨rfl, heq⟩ | ⟨-, hold'⟩
    · obtain rfl := Option.some.inj heq
      exact absurd hcall (hnew u th hne hold)
    · exact hown u u' th th' hold hold' hcall

theorem threadsInv_invoke (h : ThreadsInv s) (t : Digit) (op : StackOp V) :
    ThreadsInv (s.step (.invoke t op)) := by
  unfold Stack.step
  dsimp only
  split
  · exact h
  · -- the new number is nobody's
    have hnew : ∀ u th, s.threads u = some th → th.call ≠ s.calls :=
      fun u th hu => Nat.ne_of_lt (h.known _ _ (h.made u th hu))
    refine ⟨?_, ?_, ?_, ?_, ?_, ?_⟩
    · intro u th hu
      rcases threads_update hu with ⟨-, heq⟩ | ⟨-, hu⟩
      · obtain rfl := Option.some.inj heq
        exact List.mem_append_right _ (List.mem_singleton_self _)
      · exact List.mem_append_left _ (h.made u th hu)
    · intro c op' hc
      rcases List.mem_append.mp hc with hc | hc
      · exact Nat.lt_succ_of_lt (h.known c op' hc)
      · rw [(Event.inv.inj (List.mem_singleton.mp hc)).1]
        exact Nat.lt_succ_self _
    · exact own_update h.own fun u th _ hold => hnew u th hold
    · intro e he u th hu hcall
      rcases threads_update hu with ⟨-, heq⟩ | ⟨-, hold⟩
      · obtain rfl := Option.some.inj heq
        have hlt := h.known _ _ (h.linear.invoked e he)
        rw [← hcall] at hlt
        exact absurd hlt (Nat.lt_irrefl _)
      · exact h.ended e he u th hold hcall
    · intro u th r hu hpc
      rcases threads_update hu with ⟨-, heq⟩ | ⟨-, hold⟩
      · obtain rfl := Option.some.inj heq
        cases op <;> cases hpc
      · exact h.returning u th r hold hpc
    · exact h.linear.invoke fun op' hop => Nat.lt_irrefl _ (h.known _ op' hop)

omit [Zero V] in
/-- A thread inside its call goes on from `pc` to `pc'`. -/
theorem threadsInv_move (h : ThreadsInv s) {t : Digit} {c : Nat} {op : StackOp V} {pc pc' : Pc V}
    (ht : s.threads t = some ⟨c, op, pc⟩) (hpc : ∀ r, pc ≠ .done r) (world : World Int (V × Int)) :
    ThreadsInv { s with
      world := world
      threads := Function.update s.threads t (some ⟨c, op, pc'⟩)
      log := s.log ++ Stack.logged ⟨c, op, pc⟩ pc'
      pushes := s.pushes ++ Stack.pushedNode pc pc'
      pops := s.pops ++ Stack.poppedNode pc pc' } := by
  have hnot : c ∉ s.log.map (·.id) := by
    intro hmem
    obtain ⟨e, he, hid⟩ := List.mem_map.mp hmem
    exact hpc _ (h.ended e he t _ ht hid.symm)
  have hlog : ∀ e ∈ Stack.logged ⟨c, op, pc⟩ pc', e.id = c ∧ pc' = .done e.ret := by
    intro e he
    cases pc' with
    | done r =>
        obtain rfl := List.mem_singleton.mp he
        exact ⟨rfl, rfl⟩
    | _ => cases he
  refine ⟨?_, h.known, ?_, ?_, ?_, ?_⟩
  · intro u th hu
    rcases threads_update hu with ⟨rfl, heq⟩ | ⟨-, hold⟩
    · obtain rfl := Option.some.inj heq
      exact h.made u ⟨c, op, pc⟩ ht
    · exact h.made u th hold
  · refine own_update h.own fun u th hne hold hcall => hne ?_
    exact h.own u t th ⟨c, op, pc⟩ hold ht hcall
  · intro e he u th hu hcall
    rcases List.mem_append.mp he with he' | he'
    · rcases threads_update hu with ⟨rfl, heq⟩ | ⟨-, hold⟩
      · obtain rfl := Option.some.inj heq
        exact absurd (List.mem_map.mpr ⟨e, he', hcall.symm⟩) hnot
      · exact h.ended e he' u th hold hcall
    · obtain ⟨hid, hdone⟩ := hlog e he'
      rcases threads_update hu with ⟨rfl, heq⟩ | ⟨hut, hold⟩
      · obtain rfl := Option.some.inj heq
        exact hdone
      · exact absurd (h.own u t th ⟨c, op, pc⟩ hold ht (hcall.trans hid)) hut
  · intro u th r hu hdone
    rcases threads_update hu with ⟨rfl, heq⟩ | ⟨-, hold⟩
    · obtain rfl := Option.some.inj heq
      obtain rfl : pc' = .done r := hdone
      exact ⟨_, List.mem_append_right _ (List.mem_singleton_self _), rfl, rfl⟩
    · obtain ⟨e, he, hid⟩ := h.returning u th r hold hdone
      exact ⟨e, List.mem_append_left _ he, hid⟩
  · cases pc' with
    | done r => exact h.linear.takeEffect (e := ⟨c, op, r⟩) (h.made t ⟨c, op, pc⟩ ht) hnot
    | _ => exact (List.append_nil s.log).symm ▸ h.linear

theorem threadsInv_ret (h : ThreadsInv s) (t : Digit) : ThreadsInv (s.step (.ret t)) := by
  unfold Stack.step
  dsimp only
  split
  · rename_i c op r ht
    have hold : ∀ u th, Function.update s.threads t none u = some th → s.threads u = some th := by
      intro u th hu
      rcases threads_update hu with ⟨-, heq⟩ | ⟨-, hu⟩
      · cases heq
      · exact hu
    refine ⟨?_, ?_, ?_, ?_, ?_, ?_⟩
    · exact fun u th hu => List.mem_append_left _ (h.made u th (hold u th hu))
    · intro c' op' hc
      rcases List.mem_append.mp hc with hc | hc
      · exact h.known c' op' hc
      · cases List.mem_singleton.mp hc
    · exact fun u u' th th' hu hu' => h.own u u' th th' (hold u th hu) (hold u' th' hu')
    · exact fun e he u th hu => h.ended e he u th (hold u th hu)
    · exact fun u th r hu => h.returning u th r (hold u th hu)
    · obtain ⟨e, he, hid, hret⟩ := h.returning t _ r ht rfl
      rw [show c = e.id from hid.symm, ← hret]
      exact h.linear.respond he
  · exact h

/-! ## The stack -/

theorem stackInv_init : StackInv (Stack.init .linearizable : Stack V) := by
  have hr : Reachable (World.init .linearizable : World Int (V × Int)) := .init .linearizable
  have hlat : (newStack .linearizable : World Int (V × Int)).latest
      = Function.update (fun _ : Int => none) 0 (some ((0 : V), (-1 : Int))) :=
    latest_put hr 0 (0, -1) defaultSession
  refine ⟨hr.put 0 _ _, rfl, ⟨-1, [], ⟨⟨0, ?_⟩, .nil, ?_, ?_, List.nodup_nil, .nil⟩, rfl⟩, ?_,
    Spec.legal_nil lifo, rfl, rfl⟩
  · show (newStack .linearizable : World Int (V × Int)).latest 0 = _
    rw [hlat, Function.update_self]
  · intro k hk
    by_contra hno
    refine hk ?_
    show (newStack .linearizable : World Int (V × Int)).latest k = none
    rw [hlat, Function.update_of_ne (fun h0 => hno (Or.inl h0))]
  · intro p hp; cases hp
  · intro t th ht; cases ht

/-- **A thread moves.** -/
theorem stackInv_move (h : StackInv s) {t : Digit} {th : StackThread V}
    (ht : s.threads t = some th) (hpc : ∀ r, th.pc ≠ .done r) (draws : Draws) :
    ∃ pc' world, th.pc.step s.world t.1 draws = (pc', world) ∧ StackInv { s with
      world := world
      threads := Function.update s.threads t (some { th with pc := pc' })
      log := s.log ++ Stack.logged th pc'
      pushes := s.pushes ++ Stack.pushedNode th.pc pc'
      pops := s.pops ++ Stack.poppedNode th.pc pc' } := by
  obtain ⟨hd, l, hs, hafter⟩ := h.shared
  obtain ⟨z, h0⟩ := hs.head
  obtain ⟨hmine, hcode⟩ := h.pcs t th ht
  obtain ⟨pc', world, hstep, hr', hsel', hm⟩ := step_moves h.reach h.strong h0 t.1 draws hpc
  obtain ⟨hd', l', hk, heff⟩ := shared_moves hs hmine hm
  obtain ⟨hend, hgo⟩ := lifo_moves hcode hm heff
  obtain ⟨hpush, hpop⟩ := recorded_moves th.call hcode hm
  refine ⟨pc', world, hstep, hr', hsel', ⟨hd', l', hk.shared, ?_⟩, ?_, ?_, ?_, ?_⟩
  · cases pc' with
    | done r =>
        show lifo.after (s.log ++ [⟨th.call, th.op, r⟩]) = l'.map Prod.snd
        rw [Spec.after_concat, hafter, hend r rfl]
    | _ =>
        rw [show Stack.logged th _ = [] from rfl, List.append_nil, hafter,
          hgo (fun r hr => by cases hr)]
  · intro u x hu
    rcases threads_update hu with ⟨rfl, heq⟩ | ⟨hut, hold⟩
    · obtain rfl := Option.some.inj heq
      exact ⟨hk.mine, inCode_moves hcode hm⟩
    · exact ⟨hk.others u hut _ (h.pcs u x hold).1, (h.pcs u x hold).2⟩
  · cases pc' with
    | done r =>
        refine Spec.legal_concat (e := ⟨th.call, th.op, r⟩) h.legal ?_
        rw [hafter, hend r rfl]
    | _ => exact (List.append_nil s.log).symm ▸ h.legal
  · rw [List.filterMap_append, List.map_append, h.pushedVals]
    exact congrArg _ hpush
  · rw [List.filterMap_append, List.map_append, h.poppedVals]
    exact congrArg _ hpop

/-- **Every step** keeps both invariants. -/
theorem stack_step (hth : ThreadsInv s) (h : StackInv s) (a : StackStep V) :
    ThreadsInv (s.step a) ∧ StackInv (s.step a) := by
  cases a with
  | invoke t op =>
      refine ⟨threadsInv_invoke hth t op, ?_⟩
      unfold Stack.step
      dsimp only
      split
      · exact h
      · refine ⟨h.reach, h.strong, h.shared, ?_, h.legal, h.pushedVals, h.poppedVals⟩
        intro u th hu
        rcases threads_update hu with ⟨-, heq⟩ | ⟨-, hold⟩
        · obtain rfl := Option.some.inj heq
          refine ⟨?_, inCode_start op⟩
          cases op with
          | push val => trivial
          | pop => trivial
        · exact h.pcs u th hold
  | move t draws =>
      unfold Stack.step
      dsimp only
      split
      · exact ⟨hth, h⟩
      · exact ⟨hth, h⟩
      · rename_i th hnd ht
        have hpc : ∀ r, th.pc ≠ .done r := by
          intro r hr
          exact hnd th.call th.op r (by rw [← hr])
        obtain ⟨pc', world, hstep, hinv⟩ := stackInv_move h ht hpc draws
        rw [hstep]
        exact ⟨threadsInv_move hth ht hpc world, hinv⟩
  | ret t =>
      refine ⟨threadsInv_ret hth t, ?_⟩
      unfold Stack.step
      dsimp only
      split
      · refine ⟨h.reach, h.strong, h.shared, ?_, h.legal, h.pushedVals, h.poppedVals⟩
        intro u th hu
        rcases threads_update hu with ⟨-, heq⟩ | ⟨-, hold⟩
        · cases heq
        · exact h.pcs u th hold
      · exact h

theorem stack_run (steps : List (StackStep V)) {s : Stack V} (hth : ThreadsInv s)
    (h : StackInv s) : ThreadsInv (s.run steps) ∧ StackInv (s.run steps) := by
  induction steps generalizing s with
  | nil => exact ⟨hth, h⟩
  | cons a steps ih =>
      obtain ⟨hth', h'⟩ := stack_step hth h a
      exact ih hth' h'

end Step

/-- **The Treiber stack is linearizable** when its store is. Whatever the interleaving, the
order in which calls update the head, or find the stack empty, linearizes them to a stack.
No node is pushed twice or popped twice, and the nodes pushed and not popped are those the
head leads to, with the values that the stack then has. -/
theorem treiber_linearizable [Zero V] (steps : List (StackStep V)) :
    let s := (Stack.init .linearizable).run steps
    IsLinearization s.events s.log ∧ lifo.Legal s.log
      ∧ s.log.filterMap pushedVal = s.pushes.map Prod.snd
      ∧ s.log.filterMap poppedVal = s.pops.map Prod.snd
      ∧ (s.pushes.map Prod.fst).Nodup ∧ (s.pops.map Prod.fst).Nodup
      ∧ ∃ z h l, s.world.latest 0 = some (z, h) ∧ Chain s.world.latest (-1) h l
          ∧ s.pushes.Perm (s.pops ++ l) ∧ lifo.after s.log = l.map Prod.snd := by
  intro s
  obtain ⟨hth, h⟩ : ThreadsInv s ∧ StackInv s :=
    stack_run steps (threadsInv_init .linearizable) stackInv_init
  obtain ⟨hd, l, hs, hafter⟩ := h.shared
  obtain ⟨z, hz⟩ := hs.head
  have hpops : (s.pops.map Prod.fst).Nodup := by
    have := (hs.perm.map Prod.fst).nodup_iff.mp hs.unique
    rw [List.map_append] at this
    exact (List.nodup_append.mp this).1
  exact ⟨hth.linear, h.legal, h.pushedVals, h.poppedVals, hs.unique, hpops, z, hd, l, hz, hs.chain,
    hs.perm, hafter⟩

end MockDB
