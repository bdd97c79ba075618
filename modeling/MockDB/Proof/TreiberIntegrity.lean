import MockDB.Proof.TreiberLinear

/-!
# What a Treiber stack keeps on a weak store

A causal store may show a thread an old head or an old link, so values can come off the
stack twice or not at all. But ids are still handed out once and a node keeps its value
through every version of it, and every head and link that was ever stored names a node that
some `push` had put on the stack. So `pop` only returns values that were pushed, and no call
throws. `Roams` lists what a step can do when it may read any version.
-/

namespace MockDB

open Linearizability

variable {V : Type}

/-- Another version of one key. -/
def addVersion (vs : Int → List (V × Int)) (k : Int) (x : V × Int) : Int → List (V × Int) :=
  Function.update vs k (vs k ++ [x])

theorem mem_addVersion {vs : Int → List (V × Int)} {k k' : Int} {x y : V × Int} :
    y ∈ addVersion vs k x k' ↔ y ∈ vs k' ∨ (k' = k ∧ y = x) := by
  unfold addVersion
  by_cases hk : k' = k
  · subst hk
    rw [Function.update_self, List.mem_append, List.mem_singleton]
    exact or_congr_right (iff_of_eq (by rw [eq_self, true_and]))
  · rw [Function.update_of_ne hk]
    exact (or_iff_left fun h => hk h.1).symm

theorem addVersion_ne_nil {vs : Int → List (V × Int)} {k k' : Int} {x : V × Int} :
    addVersion vs k x k' ≠ [] ↔ vs k' ≠ [] ∨ k' = k := by
  unfold addVersion
  by_cases hk : k' = k
  · subst hk
    rw [Function.update_self]
    exact iff_of_true (by simp) (Or.inr rfl)
  · rw [Function.update_of_ne hk]
    exact (or_iff_left hk).symm

/-- What a step of session `t` may do with the versions there are. -/
inductive Roams [Zero V] (t : Int) (vs : Int → List (V × Int)) (size : Nat) :
    Pc V → Pc V → (Int → List (V × Int)) → Nat → Prop
  | size (val : V) : Roams t vs size (.pushSize val) (.pushInsert val (size * 10 + t)) vs size
  | insert (val : V) (id : Int) :
      Roams t vs size (.pushInsert val id) (.pushReadHead val id)
        (addVersion vs id (val, -1)) (if vs id = [] then size + 1 else size)
  | readHead (val : V) (id : Int) {x : V × Int} (hx : x ∈ vs 0) :
      Roams t vs size (.pushReadHead val id) (.pushLink val id x.2) vs size
  | link (val : V) (id cur : Int) :
      Roams t vs size (.pushLink val id cur) (.pushUpdate val id cur)
        (addVersion vs id (val, cur)) (if vs id = [] then size + 1 else size)
  | push (val : V) (id cur : Int) :
      Roams t vs size (.pushUpdate val id cur) (.done .pushed) (addVersion vs 0 (0, id)) size
  | pushRetry (val : V) (id cur : Int) :
      Roams t vs size (.pushUpdate val id cur) (.pushReadHead val id) vs size
  | popEmpty : Roams t vs size .popReadHead (.done (.popped none)) vs size
  | popHead {x : V × Int} (hx : x ∈ vs 0) (hne : x.2 ≠ -1) :
      Roams t vs size .popReadHead (.popReadNode x.2) vs size
  | popNode (cur : Int) {x : V × Int} (hx : x ∈ vs cur) :
      Roams t vs size (.popReadNode cur) (.popUpdate cur x) vs size
  | popMissing (cur : Int) (hno : vs cur = []) :
      Roams t vs size (.popReadNode cur) (.done (.popped none)) vs size
  | pop (cur : Int) (head : V × Int) :
      Roams t vs size (.popUpdate cur head) (.done (.popped (some head.1)))
        (addVersion vs 0 (0, head.2)) size
  | popRetry (cur : Int) (head : V × Int) :
      Roams t vs size (.popUpdate cur head) .popReadHead vs size

/-! ## The code makes these steps -/

section Code

/-- Every version of every key. -/
def World.nodeVersions (w : World Int (V × Int)) : Int → List (V × Int) :=
  (registers w.store.history).versions

variable {w : World Int (V × Int)}

theorem nodeVersions_put (hr : Reachable w) (k : Int) (x : V × Int) (s : Int) :
    (w.put k x s).nodeVersions = addVersion w.nodeVersions k x := by
  unfold World.nodeVersions addVersion
  rw [registers_put hr]
  funext k'
  by_cases hk : k' = k
  · subst hk
    rw [SessionRegister.write_versions_self, Function.update_self]
  · rw [SessionRegister.write_versions_ne _ _ _ hk, Function.update_of_ne hk]

theorem getSize_put_nodeVersions (hr : Reachable w) (k : Int) (x : V × Int) (s : Int) :
    (w.put k x s).store.getSize
      = if w.nodeVersions k = [] then w.store.getSize + 1 else w.store.getSize := by
  rw [getSize_put hr]
  simp only [latest_eq_none]
  rfl

/-- A `get` fails on a key without versions, or returns one of them. -/
theorem get_roams (hr : Reachable w) (k s : Int) (draws : Draws) :
    ∃ w', Reachable w' ∧ w'.nodeVersions = w.nodeVersions
      ∧ w'.store.getSize = w.store.getSize
      ∧ ((∃ e, w.nodeVersions k = [] ∧ w.get k s draws = (.error e, w'))
        ∨ ∃ x ∈ w.nodeVersions k, w.get k s draws = (.ok x, w')) := by
  refine ⟨(w.get k s draws).2, hr.get k s draws, ?_, getSize_get hr k s draws, ?_⟩
  · show (registers (w._get k s draws).2.store.history).versions = _
    rcases registers_get hr k s draws with ⟨-, -, hst⟩ | ⟨i, r, -, -, -, -, hreg, -⟩
    · rw [hst]; rfl
    · rw [hreg]; rfl
  · rcases registers_get hr k s draws with ⟨hno, hres, -⟩ | ⟨i, r, hread, -, -, hres, -, -⟩
    · exact Or.inl ⟨_, hno, Prod.ext (by show (w._get k s draws).1.map _ = _; rw [hres]; rfl) rfl⟩
    · exact Or.inr ⟨r.value, List.mem_of_getElem? hread.1,
        Prod.ext (by show (w._get k s draws).1.map _ = _; rw [hres]; rfl) rfl⟩

variable [Zero V]

/-- `update_head` stores the new head, or nothing. -/
theorem updateHead_roams (hr : Reachable w) (oldHead newHead s : Int) (draws : Draws)
    (h0 : w.nodeVersions 0 ≠ []) :
    ∃ w', Reachable w' ∧ w'.store.getSize = w.store.getSize
      ∧ ((updateHead w oldHead newHead s draws = (true, w')
          ∧ w'.nodeVersions = addVersion w.nodeVersions 0 (0, newHead))
        ∨ (updateHead w oldHead newHead s draws = (false, w')
          ∧ w'.nodeVersions = w.nodeVersions)) := by
  obtain ⟨w', hr', hvs, hsize, ⟨e, hno, -⟩ | ⟨x, -, hget⟩⟩ := get_roams hr 0 s draws
  · exact absurd hno h0
  · by_cases hh : x.2 = oldHead
    · refine ⟨w'.put 0 (0, newHead) s, hr'.put 0 _ s, ?_, Or.inl ⟨?_, ?_⟩⟩
      · rw [getSize_put_nodeVersions hr', hvs, if_neg h0, hsize]
      · simp only [updateHead, hget, hh, if_true]
      · rw [nodeVersions_put hr', hvs]
    · exact ⟨w', hr', hsize, Or.inr ⟨by simp only [updateHead, hget, hh, if_false], hvs⟩⟩

/-- **Every step roams.** -/
theorem step_roams (hr : Reachable w) (h0 : w.nodeVersions 0 ≠ []) (s : Int) (draws : Draws)
    {pc : Pc V} (hpc : ∀ r, pc ≠ .done r) :
    ∃ pc' w', pc.step w s draws = (pc', w') ∧ Reachable w'
      ∧ Roams s w.nodeVersions w.store.getSize pc pc' w'.nodeVersions w'.store.getSize := by
  cases pc with
  | pushSize val => exact ⟨_, _, rfl, hr, .size val⟩
  | pushInsert val id =>
      refine ⟨_, _, rfl, hr.put id _ _, ?_⟩
      rw [nodeVersions_put hr, getSize_put_nodeVersions hr]
      exact .insert val id
  | pushReadHead val id =>
      obtain ⟨w', hr', hvs, hsize, ⟨e, hno, -⟩ | ⟨x, hx, hget⟩⟩ := get_roams hr 0 s draws
      · exact absurd hno h0
      · refine ⟨.pushLink val id x.2, w', by simp only [Pc.step, hget], hr', ?_⟩
        rw [hvs, hsize]
        exact .readHead val id hx
  | pushLink val id cur =>
      refine ⟨_, _, rfl, hr.put id _ _, ?_⟩
      rw [nodeVersions_put hr, getSize_put_nodeVersions hr]
      exact .link val id cur
  | pushUpdate val id cur =>
      obtain ⟨w', hr', hsize, ⟨hupd, hvs⟩ | ⟨hupd, hvs⟩⟩ :=
        updateHead_roams hr cur id s draws h0
      · refine ⟨.done .pushed, w', by simp only [Pc.step, hupd, if_true], hr', ?_⟩
        rw [hsize, hvs]
        exact .push val id cur
      · refine ⟨.pushReadHead val id, w', by simp only [Pc.step, hupd, if_neg Bool.false_ne_true],
          hr', ?_⟩
        rw [hsize, hvs]
        exact .pushRetry val id cur
  | popReadHead =>
      obtain ⟨w', hr', hvs, hsize, ⟨e, hno, -⟩ | ⟨x, hx, hget⟩⟩ := get_roams hr 0 s draws
      · exact absurd hno h0
      · by_cases hh : x.2 = -1
        · refine ⟨.done (.popped none), w', by simp only [Pc.step, hget, if_pos hh], hr', ?_⟩
          rw [hvs, hsize]
          exact .popEmpty
        · refine ⟨.popReadNode x.2, w', by simp only [Pc.step, hget, if_neg hh], hr', ?_⟩
          rw [hvs, hsize]
          exact .popHead hx hh
  | popReadNode cur =>
      obtain ⟨w', hr', hvs, hsize, ⟨e, hno, hget⟩ | ⟨x, hx, hget⟩⟩ := get_roams hr cur s draws
      · refine ⟨.done (.popped none), w', by simp only [Pc.step, hget], hr', ?_⟩
        rw [hvs, hsize]
        exact .popMissing cur hno
      · refine ⟨.popUpdate cur x, w', by simp only [Pc.step, hget], hr', ?_⟩
        rw [hvs, hsize]
        exact .popNode cur hx
  | popUpdate cur head =>
      obtain ⟨w', hr', hsize, ⟨hupd, hvs⟩ | ⟨hupd, hvs⟩⟩ :=
        updateHead_roams hr cur head.2 s draws h0
      · refine ⟨.done (.popped (some head.1)), w', by simp only [Pc.step, hupd, if_true], hr', ?_⟩
        rw [hsize, hvs]
        exact .pop cur head
      · refine ⟨.popReadHead, w', by simp only [Pc.step, hupd, if_neg Bool.false_ne_true],
          hr', ?_⟩
        rw [hsize, hvs]
        exact .popRetry cur head
  | done r => exact absurd rfl (hpc r)

end Code

/-! ## What the steps keep -/

/-- The null id, or that of a node that was put on the stack. -/
def Known (pushes : List (Int × V)) (id : Int) : Prop := id = -1 ∨ ∃ p ∈ pushes, p.1 = id

theorem Known.append {pushes : List (Int × V)} {id : Int} (h : Known pushes id)
    (new : List (Int × V)) : Known (pushes ++ new) id := by
  rcases h with h | ⟨p, hp, heq⟩
  · exact Or.inl h
  · exact Or.inr ⟨p, List.mem_append_left _ hp, heq⟩

/-- A node with value `val` that is not on the stack yet. -/
structure Fresh (t : Digit) (vs : Int → List (V × Int)) (pushes : List (Int × V)) (val : V)
    (id : Int) : Prop where
  own : NodeOf t id
  present : vs id ≠ []
  value : ∀ x ∈ vs id, x.1 = val
  unpushed : ∀ p ∈ pushes, p.1 ≠ id

/-- What the thread of digit `t` may rely on, whatever versions it is shown. -/
def PcSound (t : Digit) (vs : Int → List (V × Int)) (size : Nat) (pushes : List (Int × V)) :
    Pc V → Prop
  | .pushSize _ => True
  | .pushInsert _ id => (∃ n : Nat, n ≤ size ∧ id = n * 10 + t.1) ∧ vs id = []
  | .pushReadHead val id => Fresh t vs pushes val id
  | .pushLink val id cur => Fresh t vs pushes val id ∧ Known pushes cur
  | .pushUpdate val id cur => Fresh t vs pushes val id ∧ Known pushes cur
  | .popReadHead => True
  | .popReadNode cur => ∃ p ∈ pushes, p.1 = cur
  | .popUpdate cur head => (cur, head.1) ∈ pushes ∧ Known pushes head.2
  | .done r => r ≠ .threw

/-- Every version of every key is of some use. -/
structure Sound (vs : Int → List (V × Int)) (size : Nat) (pushes : List (Int × V)) : Prop where
  head : vs 0 ≠ []
  /-- Heads and links lead to nodes that were put on the stack. -/
  links : ∀ k, ∀ x ∈ vs k, Known pushes x.2
  keys : ∀ k, vs k ≠ [] → k = 0 ∨ ∃ (n : Nat) (t : Digit), n < size ∧ k = n * 10 + t.1
  /-- Nodes keep their values. -/
  nodes : ∀ p ∈ pushes, (∃ t, NodeOf t p.1) ∧ vs p.1 ≠ [] ∧ ∀ x ∈ vs p.1, x.1 = p.2
  unique : (pushes.map Prod.fst).Nodup

section Keep

variable {vs : Int → List (V × Int)} {size : Nat} {pushes : List (Int × V)} {t : Digit}

theorem Sound.node_pos (hs : Sound vs size pushes) {p : Int × V} (hp : p ∈ pushes) : 0 < p.1 := by
  obtain ⟨⟨u, hu⟩, -⟩ := hs.nodes p hp
  exact hu.pos

/-- An id made from the number of keys there are is no key yet. -/
theorem Sound.fresh (hs : Sound vs size pushes) (t : Digit) : vs (size * 10 + t.1) = [] := by
  by_contra hne
  have := t.2
  rcases hs.keys _ hne with h0 | ⟨n, u, hn, heq⟩
  · omega
  · have := u.2
    omega

/-- Another version of a key that is no node of the stack. -/
theorem Sound.write (hs : Sound vs size pushes) {k : Int} {x : V × Int}
    (hk : ∀ p ∈ pushes, p.1 ≠ k) {size' : Nat} (hsize : size ≤ size')
    (hkey : k = 0 ∨ ∃ n : Nat, n < size' ∧ k = n * 10 + t.1) (hx : Known pushes x.2) :
    Sound (addVersion vs k x) size' pushes where
  head := addVersion_ne_nil.mpr (Or.inl hs.head)
  links k' y hy := by
    rcases mem_addVersion.mp hy with hold | ⟨-, rfl⟩
    · exact hs.links k' y hold
    · exact hx
  keys k' hk' := by
    rcases addVersion_ne_nil.mp hk' with hold | rfl
    · rcases hs.keys k' hold with h0 | ⟨n, u, hn, heq⟩
      · exact Or.inl h0
      · exact Or.inr ⟨n, u, Nat.lt_of_lt_of_le hn hsize, heq⟩
    · exact hkey.imp_right fun ⟨n, hn, heq⟩ => ⟨n, t, hn, heq⟩
  nodes p hp := by
    obtain ⟨hown, hpresent, hvalue⟩ := hs.nodes p hp
    refine ⟨hown, addVersion_ne_nil.mpr (Or.inl hpresent), fun y hy => ?_⟩
    rcases mem_addVersion.mp hy with hold | ⟨heq, -⟩
    · exact hvalue y hold
    · exact absurd heq (hk p hp)
  unique := hs.unique

/-- A node that its thread has finished goes on the stack. -/
theorem Sound.push (hs : Sound vs size pushes) {val : V} {id : Int}
    (hf : Fresh t vs pushes val id) : Sound vs size (pushes ++ [(id, val)]) where
  head := hs.head
  links k x hx := (hs.links k x hx).append _
  keys := hs.keys
  nodes p hp := by
    rcases List.mem_append.mp hp with hold | hnew
    · exact hs.nodes p hold
    · rw [List.mem_singleton.mp hnew]
      exact ⟨⟨t, hf.own⟩, hf.present, hf.value⟩
  unique := by
    rw [List.map_append, List.map_singleton]
    refine ListOrder.nodup_concat.mpr ⟨fun hmem => ?_, hs.unique⟩
    obtain ⟨p, hp, heq⟩ := List.mem_map.mp hmem
    exact hf.unpushed p hp heq

theorem Fresh.write {val : V} {id cur : Int} (hf : Fresh t vs pushes val id) :
    Fresh t (addVersion vs id (val, cur)) pushes val id where
  own := hf.own
  present := addVersion_ne_nil.mpr (Or.inr rfl)
  value x hx := by
    rcases mem_addVersion.mp hx with hold | ⟨-, rfl⟩
    · exact hf.value x hold
    · rfl
  unpushed := hf.unpushed

/-- **Frame**: what other threads rely on does not change when `t` writes the head or a node
of its own. -/
theorem PcSound.frame {u : Digit} (hut : u ≠ t) {pc : Pc V} (hp : PcSound u vs size pushes pc)
    {k : Int} (x : V × Int) (hk : k = 0 ∨ NodeOf t k) {size' : Nat} (hsize : size ≤ size')
    {new : List (Int × V)} (hnew : ∀ p ∈ new, NodeOf t p.1) :
    PcSound u (addVersion vs k x) size' (pushes ++ new) pc := by
  -- nothing `t` writes is a node of `u`
  have hne : ∀ {id : Int}, NodeOf u id → id ≠ k := by
    intro id hid
    rcases hk with rfl | hk
    · exact Int.ne_of_gt hid.pos
    · exact hk.ne hid hut
  have hfresh : ∀ {val : V} {id : Int}, Fresh u vs pushes val id →
      Fresh u (addVersion vs k x) (pushes ++ new) val id := by
    intro val id hf
    refine ⟨hf.own, addVersion_ne_nil.mpr (Or.inl hf.present), fun y hy => ?_, fun p hp' => ?_⟩
    · rcases mem_addVersion.mp hy with hold | ⟨heq, -⟩
      · exact hf.value y hold
      · exact absurd heq (hne hf.own)
    · rcases List.mem_append.mp hp' with hold | hp'
      · exact hf.unpushed p hold
      · exact fun heq => (hnew p hp').ne hf.own hut heq.symm
  cases pc with
  | pushSize val => trivial
  | pushInsert val id =>
      obtain ⟨⟨n, hn, hid⟩, hnone⟩ := hp
      refine ⟨⟨n, Nat.le_trans hn hsize, hid⟩, ?_⟩
      by_contra hsome
      rcases addVersion_ne_nil.mp hsome with hold | heq
      · exact hold hnone
      · exact hne ⟨n, hid⟩ heq
  | pushReadHead val id => exact hfresh hp
  | pushLink val id cur => exact ⟨hfresh hp.1, hp.2.append new⟩
  | pushUpdate val id cur => exact ⟨hfresh hp.1, hp.2.append new⟩
  | popReadHead => trivial
  | popReadNode cur =>
      obtain ⟨p, hp, hcur⟩ := hp
      exact ⟨p, List.mem_append_left _ hp, hcur⟩
  | popUpdate cur head => exact ⟨List.mem_append_left _ hp.1, hp.2.append new⟩
  | done r => exact hp

/-- What a step leads to. -/
structure StaysSound (t : Digit) (vs : Int → List (V × Int)) (size : Nat)
    (pushes : List (Int × V)) (pc pc' : Pc V) (vs' : Int → List (V × Int)) (size' : Nat) :
    Prop where
  sound : Sound vs' size' (pushes ++ Stack.pushedNode pc pc')
  mine : PcSound t vs' size' (pushes ++ Stack.pushedNode pc pc') pc'
  others : ∀ u, u ≠ t → ∀ pcu, PcSound u vs size pushes pcu →
    PcSound u vs' size' (pushes ++ Stack.pushedNode pc pc') pcu
  popped : ∀ p ∈ Stack.poppedNode pc pc', p ∈ pushes

/-- A step that only reads. -/
theorem StaysSound.of_read (hs : Sound vs size pushes) {pc pc' : Pc V}
    (hpush : Stack.pushedNode pc pc' = []) (hpop : Stack.poppedNode pc pc' = [])
    (hmine : PcSound t vs size pushes pc') :
    StaysSound t vs size pushes pc pc' vs size where
  sound := by rw [hpush, List.append_nil]; exact hs
  mine := by rw [hpush, List.append_nil]; exact hmine
  others u _ pcu hpcu := by rw [hpush, List.append_nil]; exact hpcu
  popped p hp := by rw [hpop] at hp; cases hp

/-- A step that writes a node of its own that is not on the stack. -/
theorem StaysSound.of_write (hs : Sound vs size pushes) {id : Int} {x : V × Int}
    (hid : NodeOf t id) (hnot : ∀ p ∈ pushes, p.1 ≠ id) {size' : Nat} (hsize : size ≤ size')
    (hkey : ∃ n : Nat, n < size' ∧ id = n * 10 + t.1) (hx : Known pushes x.2) {pc pc' : Pc V}
    (hpush : Stack.pushedNode pc pc' = []) (hpop : Stack.poppedNode pc pc' = [])
    (hmine : PcSound t (addVersion vs id x) size' pushes pc') :
    StaysSound t vs size pushes pc pc' (addVersion vs id x) size' where
  sound := by
    rw [hpush, List.append_nil]
    exact hs.write hnot hsize (Or.inr hkey) hx
  mine := by rw [hpush, List.append_nil]; exact hmine
  others u hut pcu hpcu := by
    rw [hpush]
    exact hpcu.frame hut x (Or.inr hid) hsize fun p hp => by cases hp
  popped p hp := by rw [hpop] at hp; cases hp

/-- **Every step keeps the versions sound**, and what each thread relies on. -/
theorem sound_roams [Zero V] (hs : Sound vs size pushes) {pc pc' : Pc V}
    (hp : PcSound t vs size pushes pc) {vs' : Int → List (V × Int)} {size' : Nat}
    (hm : Roams t.1 vs size pc pc' vs' size') :
    StaysSound t vs size pushes pc pc' vs' size' := by
  have hzero : ∀ p ∈ pushes, p.1 ≠ 0 := fun p hp => Int.ne_of_gt (hs.node_pos hp)
  cases hm with
  | size val => exact .of_read hs rfl rfl ⟨⟨size, Nat.le_refl _, rfl⟩, hs.fresh t⟩
  | insert val id =>
      obtain ⟨⟨n, hn, hid⟩, hnone⟩ := hp
      have hnot : ∀ p ∈ pushes, p.1 ≠ id := by
        rintro p hp rfl
        exact (hs.nodes p hp).2.1 hnone
      rw [if_pos hnone]
      refine .of_write hs ⟨n, hid⟩ hnot (Nat.le_succ size) ⟨n, Nat.lt_succ_of_le hn, hid⟩
        (Or.inl rfl) rfl rfl ⟨⟨n, hid⟩, addVersion_ne_nil.mpr (Or.inr rfl), fun x hx => ?_, hnot⟩
      rcases mem_addVersion.mp hx with hold | ⟨-, rfl⟩
      · rw [hnone] at hold
        cases hold
      · rfl
  | readHead val id hx => exact .of_read hs rfl rfl ⟨hp, hs.links 0 _ hx⟩
  | link val id cur =>
      obtain ⟨hf, hcur⟩ := hp
      have hkey : ∃ n : Nat, n < size ∧ id = n * 10 + t.1 := by
        rcases hs.keys id hf.present with h0 | ⟨n, u, hn, heq⟩
        · exact absurd h0 (Int.ne_of_gt hf.own.pos)
        · have hut : u = t := by
            by_contra hne
            exact NodeOf.ne ⟨n, heq⟩ hf.own (fun he => hne he.symm) rfl
          exact ⟨n, hn, hut ▸ heq⟩
      rw [if_neg hf.present]
      exact .of_write hs hf.own hf.unpushed (Nat.le_refl _) hkey hcur rfl rfl ⟨hf.write, hcur⟩
  | push val id cur =>
      obtain ⟨hf, -⟩ := hp
      have hpushed := hs.push hf
      refine ⟨?_, (fun heq => nomatch heq), fun u hut pcu hpcu => ?_, fun p hp => by cases hp⟩
      · refine hpushed.write (t := t) (fun p hp => Int.ne_of_gt (hpushed.node_pos hp))
          (Nat.le_refl _) (Or.inl rfl) (Or.inr ⟨(id, val), ?_, rfl⟩)
        exact List.mem_append_right _ (List.mem_singleton_self _)
      · refine hpcu.frame hut _ (Or.inl rfl) (Nat.le_refl _) fun p hp => ?_
        rw [List.mem_singleton.mp hp]
        exact hf.own
  | pushRetry val id cur => exact .of_read hs rfl rfl hp.1
  | popEmpty => exact .of_read hs rfl rfl fun heq => nomatch heq
  | popHead hx hne => exact .of_read hs rfl rfl ((hs.links 0 _ hx).resolve_left hne)
  | popNode cur hx =>
      obtain ⟨p, hp, rfl⟩ := hp
      refine .of_read hs rfl rfl ⟨?_, hs.links _ _ hx⟩
      rw [(hs.nodes p hp).2.2 _ hx]
      exact hp
  | popMissing cur hno =>
      -- a node that a head or a link leads to is there
      obtain ⟨p, hp, rfl⟩ := hp
      exact absurd hno (hs.nodes p hp).2.1
  | pop cur head =>
      refine ⟨?_, (fun heq => nomatch heq), fun u hut pcu hpcu => ?_, fun p hp' => ?_⟩
      · rw [show Stack.pushedNode (.popUpdate cur head) (.done (.popped (some head.1))) = [] from
          rfl, List.append_nil]
        exact hs.write (t := t) hzero (Nat.le_refl _) (Or.inl rfl) hp.2
      · exact hpcu.frame hut _ (Or.inl rfl) (Nat.le_refl _) fun p hp => by cases hp
      · rw [List.mem_singleton.mp hp']
        exact hp.1
  | popRetry cur head => exact .of_read hs rfl rfl trivial

end Keep

/-! ## Whole runs -/

section Run

variable [Zero V]

theorem inCode_roams {t : Int} {vs vs' : Int → List (V × Int)} {size size' : Nat} {pc pc' : Pc V}
    {op : StackOp V} (hop : InCode op pc) (hm : Roams t vs size pc pc' vs' size') :
    InCode op pc' := by
  cases hm <;> first | exact hop | trivial

/-- The log and the two lists of nodes record the same values. -/
theorem recorded_roams {t : Int} {vs vs' : Int → List (V × Int)} {size size' : Nat}
    {pc pc' : Pc V} {op : StackOp V} (c : Nat) (hop : InCode op pc)
    (hm : Roams t vs size pc pc' vs' size') :
    (Stack.logged ⟨c, op, pc⟩ pc').filterMap pushedVal = (Stack.pushedNode pc pc').map Prod.snd
      ∧ (Stack.logged ⟨c, op, pc⟩ pc').filterMap poppedVal
          = (Stack.poppedNode pc pc').map Prod.snd := by
  cases hm <;> cases hop <;> exact ⟨rfl, rfl⟩

/-- What holds of a stack on a store of any selector. -/
structure StackSound (s : Stack V) : Prop where
  reach : Reachable s.world
  sound : Sound s.world.nodeVersions s.world.store.getSize s.pushes
  pcs : ∀ t th, s.threads t = some th →
    PcSound t s.world.nodeVersions s.world.store.getSize s.pushes th.pc ∧ InCode th.op th.pc
  popped : ∀ p ∈ s.pops, p ∈ s.pushes
  returned : ∀ e ∈ s.log, e.ret ≠ .threw
  pushedVals : s.log.filterMap pushedVal = s.pushes.map Prod.snd
  poppedVals : s.log.filterMap poppedVal = s.pops.map Prod.snd

theorem stackSound_init (sel : ReadResponseSelector) : StackSound (Stack.init sel : Stack V) := by
  have hr : Reachable (World.init sel : World Int (V × Int)) := .init sel
  have hvs : (newStack sel : World Int (V × Int)).nodeVersions
      = addVersion (fun _ => []) 0 ((0 : V), (-1 : Int)) :=
    nodeVersions_put hr 0 (0, -1) defaultSession
  refine ⟨hr.put 0 _ _, ⟨?_, ?_, ?_, ?_, List.nodup_nil⟩, ?_, ?_, ?_, rfl, rfl⟩
  · show (newStack sel : World Int (V × Int)).nodeVersions 0 ≠ []
    rw [hvs]
    exact addVersion_ne_nil.mpr (Or.inr rfl)
  · intro k x hx
    have hx' : x ∈ (newStack sel : World Int (V × Int)).nodeVersions k := hx
    rw [hvs] at hx'
    rcases mem_addVersion.mp hx' with hold | ⟨-, rfl⟩
    · cases hold
    · exact Or.inl rfl
  · intro k hk
    have hk' : (newStack sel : World Int (V × Int)).nodeVersions k ≠ [] := hk
    rw [hvs] at hk'
    exact (addVersion_ne_nil.mp hk').elim (fun hold => absurd rfl hold) Or.inl
  · intro p hp; cases hp
  · intro t th ht; cases ht
  · intro p hp; cases hp
  · intro e he; cases he

variable {s : Stack V}

/-- **A thread moves.** -/
theorem stackSound_move (h : StackSound s) {t : Digit} {th : StackThread V}
    (ht : s.threads t = some th) (hpc : ∀ r, th.pc ≠ .done r) (draws : Draws) :
    ∃ pc' world, th.pc.step s.world t.1 draws = (pc', world) ∧ StackSound { s with
      world := world
      threads := Function.update s.threads t (some { th with pc := pc' })
      log := s.log ++ Stack.logged th pc'
      pushes := s.pushes ++ Stack.pushedNode th.pc pc'
      pops := s.pops ++ Stack.poppedNode th.pc pc' } := by
  obtain ⟨hmine, hcode⟩ := h.pcs t th ht
  obtain ⟨pc', world, hstep, hr', hm⟩ := step_roams h.reach h.sound.head t.1 draws hpc
  have hk := sound_roams h.sound hmine hm
  obtain ⟨hpush, hpop⟩ := recorded_roams th.call hcode hm
  refine ⟨pc', world, hstep, hr', hk.sound, ?_, ?_, ?_, ?_, ?_⟩
  · intro u x hu
    rcases threads_update hu with ⟨rfl, heq⟩ | ⟨hut, hold⟩
    · obtain rfl := Option.some.inj heq
      exact ⟨hk.mine, inCode_roams hcode hm⟩
    · exact ⟨hk.others u hut _ (h.pcs u x hold).1, (h.pcs u x hold).2⟩
  · intro p hp
    rcases List.mem_append.mp hp with hold | hnew
    · exact List.mem_append_left _ (h.popped p hold)
    · exact List.mem_append_left _ (hk.popped p hnew)
  · intro e he
    rcases List.mem_append.mp he with hold | hnew
    · exact h.returned e hold
    · cases pc' with
      | done r =>
          rw [List.mem_singleton.mp hnew]
          exact hk.mine
      | _ => cases hnew
  · rw [List.filterMap_append, List.map_append, h.pushedVals]
    exact congrArg _ hpush
  · rw [List.filterMap_append, List.map_append, h.poppedVals]
    exact congrArg _ hpop

theorem stackSound_step (h : StackSound s) (a : StackStep V) : StackSound (s.step a) := by
  cases a with
  | invoke t op =>
      unfold Stack.step
      dsimp only
      split
      · exact h
      · refine ⟨h.reach, h.sound, ?_, h.popped, h.returned, h.pushedVals, h.poppedVals⟩
        intro u th hu
        rcases threads_update hu with ⟨-, heq⟩ | ⟨-, hold⟩
        · obtain rfl := Option.some.inj heq
          refine ⟨?_, inCode_start op⟩
          cases op with
          | push val => trivial
          | pop => trivial
        · exact h.pcs u th hold
  | move t draws =>
      unfold Stack.step
      dsimp only
      split
      · exact h
      · exact h
      · rename_i th hnd ht
        have hpc : ∀ r, th.pc ≠ .done r := by
          intro r hr
          exact hnd th.call th.op r (by rw [← hr])
        obtain ⟨pc', world, hstep, hsound⟩ := stackSound_move h ht hpc draws
        rw [hstep]
        exact hsound
  | ret t =>
      unfold Stack.step
      dsimp only
      split
      · refine ⟨h.reach, h.sound, ?_, h.popped, h.returned, h.pushedVals, h.poppedVals⟩
        intro u th hu
        rcases threads_update hu with ⟨-, heq⟩ | ⟨-, hold⟩
        · cases heq
        · exact h.pcs u th hold
      · exact h

theorem stackSound_run (steps : List (StackStep V)) (h : StackSound s) :
    StackSound (s.run steps) := by
  induction steps generalizing s with
  | nil => exact h
  | cons a steps ih => exact ih (stackSound_step h a)

omit [Zero V] in
theorem StackSound.popped_pushed (h : StackSound s) :
    ∀ v ∈ s.log.filterMap poppedVal, v ∈ s.log.filterMap pushedVal := by
  intro v hv
  rw [h.poppedVals] at hv
  rw [h.pushedVals]
  obtain ⟨p, hp, rfl⟩ := List.mem_map.mp hv
  exact List.mem_map_of_mem (h.popped p hp)

/--
**Whatever the isolation, the stack only returns what was put on it.** Under any selector and
in any interleaving: no call throws; every node that comes off the stack had been put on it
by a `push` that took effect before, and so had every value that `pop` returns; no node is
put on the stack twice; and all versions of a node that is on the stack hold its value.
-/
theorem treiber_integrity (sel : ReadResponseSelector) (steps : List (StackStep V)) :
    let s := (Stack.init sel).run steps
    (∀ e ∈ s.log, e.ret ≠ .threw)
      ∧ (∀ p ∈ s.pops, p ∈ s.pushes)
      ∧ (∀ v ∈ s.log.filterMap poppedVal, v ∈ s.log.filterMap pushedVal)
      ∧ (s.pushes.map Prod.fst).Nodup
      ∧ ∀ p ∈ s.pushes, s.world.nodeVersions p.1 ≠ []
          ∧ ∀ x ∈ s.world.nodeVersions p.1, x.1 = p.2 := by
  intro s
  have h : StackSound s := stackSound_run steps (stackSound_init sel)
  exact ⟨h.returned, h.popped, h.popped_pushed, h.sound.unique,
    fun p hp => (h.sound.nodes p hp).2⟩

end Run

end MockDB
