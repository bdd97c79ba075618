import MockDB.Applications.TreiberStack
import MockDB.Lib.Chain
import MockDB.Proof.Latest

/-!
# The Treiber stack, one step at a time

Under the linearizable selector a step of `push` or `pop` acts on the latest values and
the number of keys alone, and `Moves` lists what it can do to them. The list of nodes that
the head leads to changes at the two successful updates of the head only. Every other
write goes to a node that no thread but its writer knows of, because ids are never handed
out twice and nodes that were once on the stack are never written again.
-/

namespace MockDB

open Linearizability

variable {V : Type} [Zero V]

/-- What a step of session `t` does where the head is `h`. -/
inductive Moves (t : Int) (view : Int → Option (V × Int)) (size : Nat) (h : Int) :
    Pc V → Pc V → (Int → Option (V × Int)) → Nat → Prop
  | size (val : V) :
      Moves t view size h (.pushSize val) (.pushInsert val (size * 10 + t)) view size
  | insert (val : V) (id : Int) :
      Moves t view size h (.pushInsert val id) (.pushReadHead val id)
        (Function.update view id (some (val, -1))) (if view id = none then size + 1 else size)
  | readHead (val : V) (id : Int) :
      Moves t view size h (.pushReadHead val id) (.pushLink val id h) view size
  | link (val : V) (id cur : Int) :
      Moves t view size h (.pushLink val id cur) (.pushUpdate val id cur)
        (Function.update view id (some (val, cur))) (if view id = none then size + 1 else size)
  | push (val : V) (id : Int) :
      Moves t view size h (.pushUpdate val id h) (.done .pushed)
        (Function.update view 0 (some (0, id))) size
  | pushRetry (val : V) (id cur : Int) :
      Moves t view size h (.pushUpdate val id cur) (.pushReadHead val id) view size
  | popEmpty (hh : h = -1) :
      Moves t view size h .popReadHead (.done (.popped none)) view size
  | popHead (hh : h ≠ -1) :
      Moves t view size h .popReadHead (.popReadNode h) view size
  | popNode (cur : Int) (head : V × Int) (hnode : view cur = some head) :
      Moves t view size h (.popReadNode cur) (.popUpdate cur head) view size
  | popMissing (cur : Int) (hnode : view cur = none) :
      Moves t view size h (.popReadNode cur) (.done (.popped none)) view size
  | pop (head : V × Int) :
      Moves t view size h (.popUpdate h head) (.done (.popped (some head.1)))
        (Function.update view 0 (some (0, head.2))) size
  | popRetry (cur : Int) (head : V × Int) :
      Moves t view size h (.popUpdate cur head) .popReadHead view size

/-! ## The code makes these moves -/

section Code

variable {w : World Int (V × Int)} {z : V} {h : Int}

/-- `update_head` swings the head iff it is still the old one. -/
theorem updateHead_eq (hr : Reachable w) (hsel : w.store.readSelector = .linearizable)
    (h0 : w.latest 0 = some (z, h)) (oldHead newHead s : Int) (draws : Draws) :
    ∃ w', Reachable w' ∧ w'.store.readSelector = .linearizable
      ∧ w'.store.getSize = w.store.getSize
      ∧ ((h = oldHead ∧ updateHead w oldHead newHead s draws = (true, w')
          ∧ w'.latest = Function.update w.latest 0 (some (0, newHead)))
        ∨ (h ≠ oldHead ∧ updateHead w oldHead newHead s draws = (false, w')
          ∧ w'.latest = w.latest)) := by
  obtain ⟨w', hget, hr', hsel', hlat, hsize⟩ := get_ok hr hsel h0 s draws
  by_cases hh : h = oldHead
  · refine ⟨w'.put 0 (0, newHead) s, hr'.put 0 _ s, hsel', ?_, Or.inl ⟨hh, ?_, ?_⟩⟩
    · rw [getSize_put hr', if_neg (by rw [hlat, h0]; exact Option.some_ne_none _)]
      exact hsize
    · simp only [updateHead, hget, hh, if_true]
    · rw [latest_put hr', hlat]
  · refine ⟨w', hr', hsel', hsize, Or.inr ⟨hh, ?_, hlat⟩⟩
    simp only [updateHead, hget, hh, if_false]

/-- **Every step is a move.** -/
theorem step_moves (hr : Reachable w) (hsel : w.store.readSelector = .linearizable)
    (h0 : w.latest 0 = some (z, h)) (s : Int) (draws : Draws) {pc : Pc V}
    (hpc : ∀ r, pc ≠ .done r) :
    ∃ pc' w', pc.step w s draws = (pc', w') ∧ Reachable w'
      ∧ w'.store.readSelector = .linearizable
      ∧ Moves s w.latest w.store.getSize h pc pc' w'.latest w'.store.getSize := by
  have hput : ∀ (id : Int) (v : V × Int), (w.put id v defaultSession).latest
      = Function.update w.latest id (some v) := fun id v => latest_put hr id v _
  cases pc with
  | pushSize val => exact ⟨_, _, rfl, hr, hsel, .size val⟩
  | pushInsert val id =>
      refine ⟨_, _, rfl, hr.put id _ _, hsel, ?_⟩
      rw [hput, getSize_put hr]
      exact .insert val id
  | pushReadHead val id =>
      obtain ⟨w', hget, hr', hsel', hlat, hsize⟩ := get_ok hr hsel h0 s draws
      refine ⟨.pushLink val id h, w', by simp only [Pc.step, hget], hr', hsel', ?_⟩
      rw [hlat, hsize]
      exact .readHead val id
  | pushLink val id cur =>
      refine ⟨_, _, rfl, hr.put id _ _, hsel, ?_⟩
      rw [hput, getSize_put hr]
      exact .link val id cur
  | pushUpdate val id cur =>
      obtain ⟨w', hr', hsel', hsize, ⟨rfl, hupd, hlat⟩ | ⟨-, hupd, hlat⟩⟩ :=
        updateHead_eq hr hsel h0 cur id s draws
      · refine ⟨.done .pushed, w', by simp only [Pc.step, hupd, if_true],
          hr', hsel', ?_⟩
        rw [hsize, hlat]
        exact .push val id
      · refine ⟨.pushReadHead val id, w', by simp only [Pc.step, hupd, if_neg Bool.false_ne_true],
          hr', hsel', ?_⟩
        rw [hsize, hlat]
        exact .pushRetry val id cur
  | popReadHead =>
      obtain ⟨w', hget, hr', hsel', hlat, hsize⟩ := get_ok hr hsel h0 s draws
      by_cases hh : h = -1
      · refine ⟨.done (.popped none), w', by simp only [Pc.step, hget, if_pos hh], hr', hsel', ?_⟩
        rw [hlat, hsize]
        exact .popEmpty hh
      · refine ⟨.popReadNode h, w', by simp only [Pc.step, hget, if_neg hh], hr', hsel', ?_⟩
        rw [hlat, hsize]
        exact .popHead hh
  | popReadNode cur =>
      cases hn : w.latest cur with
      | none =>
          obtain ⟨w', hget, hr', hsel', hlat, hsize⟩ := get_error hr hsel hn s draws
          refine ⟨.done (.popped none), w', by simp only [Pc.step, hget], hr', hsel', ?_⟩
          rw [hlat, hsize]
          exact .popMissing cur hn
      | some head =>
          obtain ⟨w', hget, hr', hsel', hlat, hsize⟩ := get_ok hr hsel hn s draws
          refine ⟨.popUpdate cur head, w', by simp only [Pc.step, hget], hr', hsel', ?_⟩
          rw [hlat, hsize]
          exact .popNode cur head hn
  | popUpdate cur head =>
      obtain ⟨w', hr', hsel', hsize, ⟨rfl, hupd, hlat⟩ | ⟨-, hupd, hlat⟩⟩ :=
        updateHead_eq hr hsel h0 cur head.2 s draws
      · refine ⟨.done (.popped (some head.1)), w', by simp only [Pc.step, hupd, if_true],
          hr', hsel', ?_⟩
        rw [hsize, hlat]
        exact .pop head
      · refine ⟨.popReadHead, w', by simp only [Pc.step, hupd, if_neg Bool.false_ne_true],
          hr', hsel', ?_⟩
        rw [hsize, hlat]
        exact .popRetry cur head
  | done r => exact absurd rfl (hpc r)

end Code

/-! ## What the moves keep -/

omit [Zero V] in
/-- `id` is one that the thread of digit `t` makes up for its nodes. -/
def NodeOf (t : Digit) (id : Int) : Prop := ∃ n : Nat, id = n * 10 + t.1

theorem NodeOf.pos {t : Digit} {id : Int} (h : NodeOf t id) : 0 < id := by
  obtain ⟨n, rfl⟩ := h
  have := t.2.1
  omega

/-- Different threads make up different ids. -/
theorem NodeOf.ne {t u : Digit} {id id' : Int} (h : NodeOf t id) (h' : NodeOf u id')
    (htu : u ≠ t) : id' ≠ id := by
  obtain ⟨n, rfl⟩ := h
  obtain ⟨m, rfl⟩ := h'
  have hne : u.1 ≠ t.1 := fun he => htu (Subtype.ext he)
  have := t.2
  have := u.2
  omega

/-- A node that only its writer knows of. -/
structure Private (t : Digit) (view : Int → Option (V × Int)) (pushes : List (Int × V))
    (id : Int) : Prop where
  own : NodeOf t id
  present : view id ≠ none
  unpushed : ∀ p ∈ pushes, p.1 ≠ id

/-- What the thread of digit `t` may rely on at each point of its call. -/
def PcInv (t : Digit) (view : Int → Option (V × Int)) (size : Nat) (pushes : List (Int × V)) :
    Pc V → Prop
  | .pushSize _ => True
  | .pushInsert _ id => (∃ n : Nat, n ≤ size ∧ id = n * 10 + t.1) ∧ view id = none
  | .pushReadHead _ id => Private t view pushes id
  | .pushLink _ id _ => Private t view pushes id
  | .pushUpdate val id cur => Private t view pushes id ∧ view id = some (val, cur)
  | .popReadHead => True
  | .popReadNode cur => ∃ p ∈ pushes, p.1 = cur
  | .popUpdate cur head => (cur, head.1) ∈ pushes ∧ view cur = some head
  | .done _ => True

/-- The latest values make a stack of the nodes in `l`: those pushed and not yet popped. -/
structure Shared (view : Int → Option (V × Int)) (size : Nat) (pushes pops : List (Int × V))
    (h : Int) (l : List (Int × V)) : Prop where
  head : ∃ z, view 0 = some (z, h)
  chain : Chain view (-1) h l
  /-- Keys are made from the number of keys there were before. -/
  keys : ∀ k, view k ≠ none → k = 0 ∨ ∃ (n : Nat) (t : Digit), n < size ∧ k = n * 10 + t.1
  /-- Nodes once pushed stay as they are. -/
  nodes : ∀ p ∈ pushes, (∃ t, NodeOf t p.1) ∧ ∃ next, view p.1 = some (p.2, next)
  unique : (pushes.map Prod.fst).Nodup
  perm : pushes.Perm (pops ++ l)

section Keep

variable {view : Int → Option (V × Int)} {size : Nat} {pushes pops : List (Int × V)} {h : Int}
  {l : List (Int × V)} {t : Digit}

omit [Zero V] in
theorem Shared.mem (hs : Shared view size pushes pops h l) {p : Int × V} (hp : p ∈ l) :
    p ∈ pushes := hs.perm.mem_iff.mpr (List.mem_append_right _ hp)

omit [Zero V] in
theorem Shared.node_pos (hs : Shared view size pushes pops h l) {p : Int × V} (hp : p ∈ pushes) :
    0 < p.1 := by
  obtain ⟨⟨u, hu⟩, -⟩ := hs.nodes p hp
  exact hu.pos

omit [Zero V] in
/-- Writing a node that is not on the stack and never was. -/
theorem Shared.write (hs : Shared view size pushes pops h l) {id : Int} (x : V × Int)
    (hid : NodeOf t id) (hnot : ∀ p ∈ pushes, p.1 ≠ id) {size' : Nat} (hsize : size ≤ size')
    (hkey : ∃ n : Nat, n < size' ∧ id = n * 10 + t.1) :
    Shared (Function.update view id (some x)) size' pushes pops h l where
  head := by
    obtain ⟨z, hz⟩ := hs.head
    exact ⟨z, by rw [Function.update_of_ne (Int.ne_of_lt hid.pos)]; exact hz⟩
  chain := hs.chain.update x fun p hp => hnot p (hs.mem hp)
  keys := by
    intro k hk
    by_cases hki : k = id
    · obtain ⟨n, hn, heq⟩ := hkey
      exact Or.inr ⟨n, t, hn, hki.trans heq⟩
    · rw [Function.update_of_ne hki] at hk
      rcases hs.keys k hk with h0 | ⟨n, u, hn, heq⟩
      · exact Or.inl h0
      · exact Or.inr ⟨n, u, Nat.lt_of_lt_of_le hn hsize, heq⟩
  nodes := by
    intro p hp
    obtain ⟨hu, next, hnext⟩ := hs.nodes p hp
    exact ⟨hu, next, by rw [Function.update_of_ne (hnot p hp)]; exact hnext⟩
  unique := hs.unique
  perm := hs.perm

omit [Zero V] in
/-- Swinging the head to `h'`, where the chain `l'` starts. -/
theorem Shared.swing (hs : Shared view size pushes pops h l) {h' : Int} (z : V)
    {pushes' pops' l' : List (Int × V)} (hchain : Chain view (-1) h' l')
    (hl' : ∀ p ∈ l', p ∈ pushes') (hunique : (pushes'.map Prod.fst).Nodup)
    (hnodes : ∀ p ∈ pushes', (∃ u, NodeOf u p.1) ∧ ∃ next, view p.1 = some (p.2, next))
    (hperm : pushes'.Perm (pops' ++ l')) :
    Shared (Function.update view 0 (some (z, h'))) size pushes' pops' h' l' where
  head := ⟨z, Function.update_self ..⟩
  chain := by
    refine hchain.update _ fun p hp => ?_
    obtain ⟨⟨u, hu⟩, -⟩ := hnodes p (hl' p hp)
    exact Int.ne_of_gt hu.pos
  keys := by
    intro k hk
    by_cases hk0 : k = 0
    · exact Or.inl hk0
    · rw [Function.update_of_ne hk0] at hk
      exact hs.keys k hk
  nodes := by
    intro p hp
    obtain ⟨⟨u, hu⟩, next, hnext⟩ := hnodes p hp
    exact ⟨⟨u, hu⟩, next, by rw [Function.update_of_ne (Int.ne_of_gt hu.pos)]; exact hnext⟩
  unique := hunique
  perm := hperm

omit [Zero V] in
/-- The head swings to a node that links to the old one. -/
theorem Shared.push (hs : Shared view size pushes pops h l) {id : Int} {val : V} (z : V)
    (hown : NodeOf t id) (hnot : ∀ p ∈ pushes, p.1 ≠ id) (hnode : view id = some (val, h)) :
    Shared (Function.update view 0 (some (z, id))) size (pushes ++ [(id, val)]) pops id
      ((id, val) :: l) := by
  have hneg : id ≠ -1 := by have := hown.pos; omega
  refine hs.swing z (.cons hneg hnode hs.chain) ?_ ?_ ?_ ?_
  · intro p hp
    rcases List.mem_cons.mp hp with rfl | hp
    · exact List.mem_append_right _ (List.mem_singleton_self _)
    · exact List.mem_append_left _ (hs.mem hp)
  · rw [List.map_append, List.map_singleton]
    refine ListOrder.nodup_concat.mpr ⟨fun hmem => ?_, hs.unique⟩
    obtain ⟨p, hp, heq⟩ := List.mem_map.mp hmem
    exact hnot p hp heq
  · intro p hp
    rcases List.mem_append.mp hp with hp | hp
    · exact hs.nodes p hp
    · rw [List.mem_singleton.mp hp]
      exact ⟨⟨t, hown⟩, h, hnode⟩
  · exact (List.perm_append_singleton _ _).trans
      ((hs.perm.cons (id, val)).trans List.perm_middle.symm)

omit [Zero V] in
/-- The head swings to the node below it. -/
theorem Shared.pop {v : V} (hs : Shared view size pushes pops h ((h, v) :: l)) {next : Int}
    (z : V) (hchain : Chain view (-1) next l) :
    Shared (Function.update view 0 (some (z, next))) size pushes (pops ++ [(h, v)]) next l := by
  refine hs.swing z hchain (fun p hp => hs.mem (List.mem_cons_of_mem _ hp)) hs.unique hs.nodes ?_
  rw [List.append_assoc]
  exact hs.perm

omit [Zero V] in
/-- **Frame**: what another thread relies on does not change, whether `t` writes the head
or a node of its own that is not yet pushed. -/
theorem PcInv.frame {u : Digit} (hut : u ≠ t) {pc : Pc V} (hp : PcInv u view size pushes pc)
    {k : Int} {x : V × Int}
    (hk : k = 0 ∨ NodeOf t k) (hnot : ∀ p ∈ pushes, p.1 ≠ k) {size' : Nat} (hsize : size ≤ size')
    {new : List (Int × V)} (hnew : ∀ p ∈ new, NodeOf t p.1) :
    PcInv u (Function.update view k (some x)) size' (pushes ++ new) pc := by
  -- nothing `t` writes is a node of `u`
  have hne : ∀ {id : Int}, NodeOf u id → id ≠ k := by
    intro id hid
    rcases hk with rfl | hk
    · exact Int.ne_of_gt hid.pos
    · exact hk.ne hid hut
  have hpriv : ∀ {id : Int}, Private u view pushes id →
      Private u (Function.update view k (some x)) (pushes ++ new) id := by
    intro id hid
    refine ⟨hid.own, by rw [Function.update_of_ne (hne hid.own)]; exact hid.present, ?_⟩
    intro p hp'
    rcases List.mem_append.mp hp' with hp' | hp'
    · exact hid.unpushed p hp'
    · exact fun he => (hnew p hp').ne hid.own hut he.symm
  cases pc with
  | pushSize val => trivial
  | pushInsert val id =>
      obtain ⟨⟨n, hn, hid⟩, hnone⟩ := hp
      exact ⟨⟨n, Nat.le_trans hn hsize, hid⟩,
        by rw [Function.update_of_ne (hne ⟨n, hid⟩)]; exact hnone⟩
  | pushReadHead val id => exact hpriv hp
  | pushLink val id cur => exact hpriv hp
  | pushUpdate val id cur =>
      exact ⟨hpriv hp.1, by rw [Function.update_of_ne (hne hp.1.own)]; exact hp.2⟩
  | popReadHead => trivial
  | popReadNode cur =>
      obtain ⟨p, hp, hcur⟩ := hp
      exact ⟨p, List.mem_append_left _ hp, hcur⟩
  | popUpdate cur head =>
      exact ⟨List.mem_append_left _ hp.1,
        by rw [Function.update_of_ne (hnot _ hp.1)]; exact hp.2⟩
  | done r => trivial

omit [Zero V] in
/-- An id made from the number of keys there are is no key yet. -/
theorem Shared.fresh (hs : Shared view size pushes pops h l) (t : Digit) :
    view (size * 10 + t.1) = none := by
  by_contra hne
  have := t.2
  rcases hs.keys _ hne with h0 | ⟨n, u, hn, heq⟩
  · omega
  · have := u.2
    omega

/-- What a move leads to: the nodes pushed and popped are recorded, the thread that moved
may rely on what its new place in the code promises, and so may all others. -/
structure Keeps (t : Digit) (view : Int → Option (V × Int)) (size : Nat)
    (pushes pops : List (Int × V)) (l : List (Int × V)) (pc pc' : Pc V)
    (view' : Int → Option (V × Int)) (size' : Nat) (h' : Int) (l' : List (Int × V)) : Prop where
  shared : Shared view' size' (pushes ++ Stack.pushedNode pc pc')
    (pops ++ Stack.poppedNode pc pc') h' l'
  mine : PcInv t view' size' (pushes ++ Stack.pushedNode pc pc') pc'
  others : ∀ u, u ≠ t → ∀ pcu, PcInv u view size pushes pcu →
    PcInv u view' size' (pushes ++ Stack.pushedNode pc pc') pcu

omit [Zero V] in
/-- A move that only reads. -/
theorem Keeps.of_read (hs : Shared view size pushes pops h l) {pc pc' : Pc V}
    (hpush : Stack.pushedNode pc pc' = []) (hpop : Stack.poppedNode pc pc' = [])
    (hmine : PcInv t view size pushes pc') :
    Keeps t view size pushes pops l pc pc' view size h l where
  shared := by rw [hpush, hpop, List.append_nil, List.append_nil]; exact hs
  mine := by rw [hpush, List.append_nil]; exact hmine
  others := by
    intro u _ pcu hpcu
    rw [hpush, List.append_nil]
    exact hpcu

omit [Zero V] in
/-- A move that writes a node of its own that is not on the stack and never was. -/
theorem Keeps.of_write (hs : Shared view size pushes pops h l) {id : Int} {x : V × Int}
    (hid : NodeOf t id) (hnot : ∀ p ∈ pushes, p.1 ≠ id) {size' : Nat} (hsize : size ≤ size')
    (hkey : ∃ n : Nat, n < size' ∧ id = n * 10 + t.1) {pc pc' : Pc V}
    (hpush : Stack.pushedNode pc pc' = []) (hpop : Stack.poppedNode pc pc' = [])
    (hmine : PcInv t (Function.update view id (some x)) size' pushes pc') :
    Keeps t view size pushes pops l pc pc' (Function.update view id (some x)) size' h l where
  shared := by
    rw [hpush, hpop, List.append_nil, List.append_nil]
    exact hs.write x hid hnot hsize hkey
  mine := by rw [hpush, List.append_nil]; exact hmine
  others := by
    intro u hut pcu hpcu
    rw [hpush]
    exact hpcu.frame hut (Or.inr hid) hnot hsize (fun p hp => by cases hp)

omit [Zero V] in
/-- What a move does to the nodes the head leads to. -/
def StackEffect (l l' : List (Int × V)) : Pc V → Pc V → Prop
  | .pushUpdate val id _, .done _ => l' = (id, val) :: l
  | .popUpdate cur head, .done _ => l = (cur, head.1) :: l'
  | _, .done _ => l = [] ∧ l' = []
  | _, _ => l' = l

/-- **Every move keeps the stack a stack**, and what each thread relies on. -/
theorem shared_moves (hs : Shared view size pushes pops h l) {pc pc' : Pc V}
    (hp : PcInv t view size pushes pc) {view' : Int → Option (V × Int)} {size' : Nat}
    (hm : Moves t.1 view size h pc pc' view' size') :
    ∃ h' l', Keeps t view size pushes pops l pc pc' view' size' h' l'
      ∧ StackEffect l l' pc pc' := by
  cases hm with
  | size val =>
      exact ⟨h, l, .of_read hs rfl rfl ⟨⟨size, Nat.le_refl _, rfl⟩, hs.fresh t⟩, rfl⟩
  | insert val id =>
      obtain ⟨⟨n, hn, hid⟩, hnone⟩ := hp
      have hnot : ∀ p ∈ pushes, p.1 ≠ id := by
        rintro p hp rfl
        obtain ⟨-, next, hnext⟩ := hs.nodes p hp
        rw [hnone] at hnext
        cases hnext
      rw [if_pos hnone]
      exact ⟨h, l, .of_write hs ⟨n, hid⟩ hnot (Nat.le_succ size) ⟨n, Nat.lt_succ_of_le hn, hid⟩
        rfl rfl ⟨⟨n, hid⟩, by rw [Function.update_self]; exact Option.some_ne_none _, hnot⟩, rfl⟩
  | readHead val id => exact ⟨h, l, .of_read hs rfl rfl hp, rfl⟩
  | link val id cur =>
      obtain ⟨hown, hpres, hnot⟩ := hp
      have hkey : ∃ n : Nat, n < size ∧ id = n * 10 + t.1 := by
        rcases hs.keys id hpres with h0 | ⟨n, u, hn, heq⟩
        · exact absurd h0 (Int.ne_of_gt hown.pos)
        · have hut : u = t := by
            by_contra hne
            exact NodeOf.ne ⟨n, heq⟩ hown (fun he => hne he.symm) rfl
          exact ⟨n, hn, hut ▸ heq⟩
      rw [if_neg hpres]
      exact ⟨h, l, .of_write hs hown hnot (Nat.le_refl _) hkey rfl rfl
        ⟨⟨hown, by rw [Function.update_self]; exact Option.some_ne_none _, hnot⟩,
          Function.update_self ..⟩, rfl⟩
  | push val id =>
      obtain ⟨⟨hown, -, hnot⟩, hnode⟩ := hp
      refine ⟨id, (id, val) :: l, ⟨?_, trivial, ?_⟩, rfl⟩
      · show Shared _ size (pushes ++ [(id, val)]) (pops ++ []) id ((id, val) :: l)
        rw [List.append_nil]
        exact hs.push 0 hown hnot hnode
      · intro u hut pcu hpcu
        refine hpcu.frame hut (Or.inl rfl) (fun p hp => Int.ne_of_gt (hs.node_pos hp))
          (Nat.le_refl _) ?_
        intro p hp
        rw [List.mem_singleton.mp hp]
        exact hown
  | pushRetry val id cur => exact ⟨h, l, .of_read hs rfl rfl hp.1, rfl⟩
  | popEmpty hh =>
      obtain rfl : l = [] := (hh ▸ hs.chain).eq_nil
      exact ⟨h, [], .of_read hs rfl rfl trivial, rfl, rfl⟩
  | popHead hh =>
      obtain ⟨v, next, rest, -, rfl, -⟩ := hs.chain.exists_cons hh
      exact ⟨h, _, .of_read hs rfl rfl ⟨_, hs.mem List.mem_cons_self, rfl⟩, rfl⟩
  | popNode cur head hnode =>
      obtain ⟨p, hp, rfl⟩ := hp
      obtain ⟨-, next, hnext⟩ := hs.nodes p hp
      rw [hnode] at hnext
      obtain rfl := Option.some.inj hnext
      exact ⟨h, l, .of_read hs rfl rfl ⟨hp, hnode⟩, rfl⟩
  | popMissing cur hnode =>
      -- a node seen from the head is there
      obtain ⟨p, hp, rfl⟩ := hp
      obtain ⟨-, next, hnext⟩ := hs.nodes p hp
      rw [hnode] at hnext
      cases hnext
  | pop head =>
      obtain ⟨hmem, hnode⟩ := hp
      have hneg : h ≠ -1 := by have : 0 < h := hs.node_pos hmem; omega
      obtain ⟨v, next, rest, hv, rfl, hchain⟩ := hs.chain.exists_cons hneg
      rw [hnode] at hv
      obtain rfl := Option.some.inj hv
      refine ⟨next, rest, ⟨?_, trivial, ?_⟩, rfl⟩
      · show Shared _ size (pushes ++ []) (pops ++ [(h, v)]) next rest
        rw [List.append_nil]
        exact hs.pop 0 hchain
      · intro u hut pcu hpcu
        exact hpcu.frame hut (Or.inl rfl) (fun p hp => Int.ne_of_gt (hs.node_pos hp))
          (Nat.le_refl _) (fun p hp => by cases hp)
  | popRetry cur head => exact ⟨h, l, .of_read hs rfl rfl trivial, rfl⟩

end Keep

end MockDB
