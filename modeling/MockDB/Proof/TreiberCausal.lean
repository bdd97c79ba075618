import MockDB.Lib.Chain
import MockDB.Proof.TreiberLinear
import Mathlib.Algebra.GroupWithZero.Nat

/-!
# A lone client's stack on a causal store

One session uses the stack alone. Its reads of the head are exact: it made every update of
the head but the first. Its reads of nodes need not be, since `push` puts nodes on behalf of
the default session. A node that is read in its first version has nothing beneath it, so
a session other than the default may lose what lies beneath a node it pops. It gets away
with that exactly while it never pops what lay beneath an earlier pop.
-/

namespace MockDB

open Linearizability

variable {V : Type}

/-- The registers of a store. -/
abbrev World.regs (w : World Int (V × Int)) : SessionRegister Int (V × Int) Int :=
  registers w.store.history

/-- What a stack returns, call by call. -/
def lifoRets (st : List V) : List (StackOp V) → List (StackRet V)
  | [] => []
  | op :: ops => (lifo.step st op).2 :: lifoRets (lifo.step st op).1 ops

/-- No pop returns a value that lay beneath a value popped before, starting with `fresh`
values pushed since the last such pop and `under` values beneath it. -/
def Sheltered : Nat → Nat → List (StackOp V) → Prop
  | _, _, [] => True
  | fresh, under, .push _ :: ops => Sheltered (fresh + 1) under ops
  | 0, under, .pop :: ops => under = 0 ∧ Sheltered 0 0 ops
  | fresh + 1, under, .pop :: ops => Sheltered 0 (under + fresh) ops

/-! ## Reads and writes of a lone client -/

/-- Session `s` alone has used the stack, and its head is `h`. -/
structure Lone (s : Int) (w : World Int (V × Int)) (h : Int) : Prop where
  reach : Reachable w
  causal : w.store.readSelector = .causal
  head : ∃ z, w.latest 0 = some (z, h)
  /-- The session can only read the latest head. -/
  known : (w.regs.versions 0).length ≤ max 1 (w.regs.floor s 0)
  keys : ∀ k, w.regs.versions k ≠ [] → k = 0 ∨ ∃ n : Nat, n < w.store.getSize ∧ k = n * 10 + s

/-- Only the head has changed, as far as session `s` can tell. -/
structure Quiet (s : Int) (w w' : World Int (V × Int)) : Prop where
  versions : ∀ k, k ≠ 0 → w'.regs.versions k = w.regs.versions k
  floor : ∀ k, k ≠ 0 → w'.regs.floor s k = w.regs.floor s k
  size : w'.store.getSize = w.store.getSize

section Lone

variable {s : Int} {w w' w'' : World Int (V × Int)} {h : Int}

theorem Quiet.trans (hq : Quiet s w w') (hq' : Quiet s w' w'') : Quiet s w w'' where
  versions := fun k hk => (hq'.versions k hk).trans (hq.versions k hk)
  floor := fun k hk => (hq'.floor k hk).trans (hq.floor k hk)
  size := hq'.size.trans hq.size

theorem Quiet.keys (hq : Quiet s w w') (hl : Lone s w h) (k : Int)
    (hk : w'.regs.versions k ≠ []) : k = 0 ∨ ∃ n : Nat, n < w'.store.getSize ∧ k = n * 10 + s := by
  by_cases h0 : k = 0
  · exact Or.inl h0
  · rw [hq.versions k h0] at hk
    rw [hq.size]
    exact hl.keys k hk

/-- A weak GET of a key there is: some version the session may read. -/
theorem get_may_read (hr : Reachable w) (hsel : w.store.readSelector = .causal) {k : Int}
    (hk : w.regs.versions k ≠ []) (s : Int) (draws : Draws) :
    ∃ i x w', w.get k s draws = (.ok x, w') ∧ w.regs.MayRead s k i x ∧ Reachable w'
      ∧ w'.store.readSelector = .causal ∧ w'.regs = w.regs.read s k i
      ∧ w'.store.getSize = w.store.getSize := by
  rcases registers_get hr k s draws with ⟨hv, -, -⟩ | ⟨i, r, hm, -, -, hres, hreg, hsel'⟩
  · exact absurd hv hk
  · refine ⟨i, r.value, (w.get k s draws).2, Prod.ext ?_ rfl, hm, hr.get k s draws, ?_, hreg,
      getSize_get hr k s draws⟩
    · show (w._get k s draws).1.map (·.value) = _
      rw [hres]
      rfl
    · exact hsel'.trans (by rw [hsel]; rfl)

/-- And any of them for suitable draws. -/
theorem get_may_read_any (hr : Reachable w) (hsel : w.store.readSelector = .causal) {k : Int}
    {s : Int} {i : Nat} {x : V × Int} (hm : w.regs.MayRead s k i x) :
    ∃ draws w', w.get k s draws = (.ok x, w') ∧ Reachable w'
      ∧ w'.store.readSelector = .causal ∧ w'.regs = w.regs.read s k i
      ∧ w'.store.getSize = w.store.getSize := by
  obtain ⟨draws, r, hres, rfl, -, hreg⟩ := get_of_mayRead hr (by rw [hsel]; rfl) hm
  have hsel' : (w._get k s draws).2.store.readSelector = .causal := by
    rcases registers_get hr k s draws with ⟨-, herr, -⟩ | ⟨_, _, _, _, _, _, _, hnext⟩
    · rw [hres] at herr; cases herr
    · rw [hnext, hsel]; rfl
  refine ⟨draws, (w.get k s draws).2, Prod.ext ?_ rfl, hr.get k s draws, hsel', hreg,
    getSize_get hr k s draws⟩
  show (w._get k s draws).1.map (·.value) = _
  rw [hres]
  rfl

theorem latest_of_versions_eq {k : Int} (hv : w'.regs.versions k = w.regs.versions k) :
    w'.latest k = w.latest k := congrArg List.getLast? hv

/-- **The head is read exactly**, whatever the draws. -/
theorem lone_get_head (hl : Lone s w h) (draws : Draws) :
    ∃ z w', w.get 0 s draws = (.ok (z, h), w') ∧ Lone s w' h ∧ Quiet s w w' := by
  obtain ⟨z, hz⟩ := hl.head
  have hne : w.regs.versions 0 ≠ [] := by
    intro hnil
    rw [latest_eq_none.mpr hnil] at hz
    cases hz
  obtain ⟨i, x, w', hget, hm, hr', hsel', hreg, hsize⟩ :=
    get_may_read hl.reach hl.causal hne s draws
  obtain ⟨hlen, hlast⟩ := hm.eq_last hl.known
  obtain rfl := Option.some.inj (hlast.symm.trans hz)
  have hq : Quiet s w w' := by
    refine ⟨fun k _ => congrArg (fun r => r.versions k) hreg, fun k hk => ?_, hsize⟩
    rw [hreg]
    exact SessionRegister.read_floor_ne _ s s i hk
  refine ⟨z, w', hget, ⟨hr', hsel', ⟨z, ?_⟩, ?_, hq.keys hl⟩, hq⟩
  · have hver : w'.regs.versions 0 = w.regs.versions 0 := congrArg (fun r => r.versions 0) hreg
    rw [latest_of_versions_eq hver]
    exact hz
  · rw [hreg, SessionRegister.read_versions, SessionRegister.read_floor_self, hlen]
    exact Nat.le_max_right _ _

/-- **The head is updated** at the first attempt. -/
theorem lone_updateHead [Zero V] (hl : Lone s w h) (newHead : Int) (draws : Draws) :
    ∃ w', updateHead w h newHead s draws = (true, w') ∧ Lone s w' newHead ∧ Quiet s w w' := by
  obtain ⟨z, w₁, hget, hl₁, hq₁⟩ := lone_get_head hl draws
  obtain ⟨z', hz'⟩ := hl₁.head
  have hreg := registers_put hl₁.reach 0 ((0 : V), newHead) s
  have hq₂ : Quiet s w₁ (w₁.put 0 (0, newHead) s) := by
    refine ⟨fun k hk => ?_, fun k hk => ?_, ?_⟩
    · show (registers _).versions k = _
      rw [hreg]
      exact SessionRegister.write_versions_ne _ s _ hk
    · show (registers _).floor s k = _
      rw [hreg]
      exact SessionRegister.write_floor_ne _ s s _ hk
    · rw [getSize_put hl₁.reach, if_neg (by rw [hz']; exact Option.some_ne_none _)]
  refine ⟨w₁.put 0 (0, newHead) s, by simp only [updateHead, hget, if_true],
    ⟨hl₁.reach.put 0 _ s, hl₁.causal, ⟨0, ?_⟩, ?_, hq₂.keys hl₁⟩, hq₁.trans hq₂⟩
  · rw [latest_put hl₁.reach, Function.update_self]
  · show ((registers _).versions 0).length ≤ max 1 ((registers _).floor s 0)
    rw [hreg, SessionRegister.write_versions_self, SessionRegister.write_floor_self,
      List.length_append]
    exact Nat.le_max_right _ _

/-- **A node is put**, on behalf of the default session. -/
theorem lone_put_node (hl : Lone s w h) {id : Int} (hid : id ≠ 0) (x : V × Int)
    (hkey : ∃ n : Nat, n ≤ w.store.getSize ∧ id = n * 10 + s
      ∧ (w.regs.versions id ≠ [] → n < w.store.getSize)) :
    Lone s (w.put id x defaultSession) h
      ∧ (w.put id x defaultSession).regs = w.regs.write defaultSession id x := by
  have hreg := registers_put hl.reach id x defaultSession
  have hver : ∀ k, k ≠ id →
      (w.put id x defaultSession).regs.versions k = w.regs.versions k := by
    intro k hk
    show (registers _).versions k = _
    rw [hreg]
    exact SessionRegister.write_versions_ne _ _ x hk
  obtain ⟨n, hn, hnid, hlt⟩ := hkey
  have hsize := getSize_put hl.reach id x defaultSession
  refine ⟨⟨hl.reach.put id x _, hl.causal, ?_, ?_, ?_⟩, hreg⟩
  · obtain ⟨z, hz⟩ := hl.head
    exact ⟨z, by rw [latest_of_versions_eq (hver 0 hid.symm)]; exact hz⟩
  · rw [hver 0 hid.symm]
    show _ ≤ max 1 ((registers _).floor s 0)
    rw [hreg, SessionRegister.write_floor_ne _ _ s x hid.symm]
    exact hl.known
  · intro k hk
    have hle : w.store.getSize ≤ (w.put id x defaultSession).store.getSize := by
      rw [hsize]
      split <;> omega
    by_cases hkid : k = id
    · refine Or.inr ⟨n, ?_, hkid.trans hnid⟩
      rw [hsize]
      by_cases hnone : w.latest id = none
      · rw [if_pos hnone]
        exact Nat.lt_succ_of_le hn
      · rw [if_neg hnone]
        exact hlt fun hnil => hnone (latest_eq_none.mpr hnil)
    · rw [hver k hkid] at hk
      rcases hl.keys k hk with h0 | ⟨m, hm, heq⟩
      · exact Or.inl h0
      · exact Or.inr ⟨m, Nat.lt_of_lt_of_le hm hle, heq⟩

/-- The id `push` makes up is no key yet. -/
theorem Lone.fresh (hl : Lone s w h) (hs : 1 ≤ s ∧ s ≤ 9) :
    w.regs.versions (w.store.getSize * 10 + s) = [] := by
  by_contra hne
  rcases hl.keys _ hne with h0 | ⟨n, hn, heq⟩
  · omega
  · omega

end Lone

/-! ## Whole calls of a lone client -/

section Finish

variable [Zero V] {s : Int} {w w' : World Int (V × Int)} {draws : Nat → Draws} {fuel : Nat}

theorem finish_step {pc : Pc V} (pc' : Pc V) (w' : World Int (V × Int)) (hpc : ∀ r, pc ≠ .done r)
    (hstep : pc.step w s (draws fuel) = (pc', w')) :
    finish s draws (fuel + 1) pc w = finish s draws fuel pc' w' := by
  cases pc with
  | done r => exact absurd rfl (hpc r)
  | _ => simp only [finish, hstep]

theorem finish_done (r : StackRet V) : finish s draws fuel (.done r) w = (some r, w) := by
  cases fuel <;> rfl

end Finish

/-- Below the head there are the nodes of `l` and then `b`. Each was put twice, the second time
with its link, and the session has seen both versions if it is the default one, or none. -/
structure Below (s : Int) (w : World Int (V × Int)) (b h : Int) (l : List (Int × V)) : Prop where
  chain : Chain w.latest b h l
  nodes : ∀ p ∈ l, p.1 ≠ 0 ∧ (∃ next, w.regs.versions p.1 = [(p.2, -1), (p.2, next)])
    ∧ w.regs.floor s p.1 = if s = 1 then 2 else 0
  unique : (l.map Prod.fst).Nodup
  base : b = -1 ∨ (b ≠ 0 ∧ w.regs.versions b ≠ [])

section Calls

variable {s : Int} {w w' : World Int (V × Int)} {b h : Int} {l : List (Int × V)}

theorem Below.transport (hb : Below s w b h l)
    (hver : ∀ k, k ≠ 0 → w.regs.versions k ≠ [] → w'.regs.versions k = w.regs.versions k)
    (hfloor : ∀ p ∈ l, w'.regs.floor s p.1 = w.regs.floor s p.1) : Below s w' b h l where
  chain := by
    refine hb.chain.congr fun p hp => ?_
    obtain ⟨h0, ⟨next, hnext⟩, -⟩ := hb.nodes p hp
    exact latest_of_versions_eq (hver p.1 h0 (by rw [hnext]; exact List.cons_ne_nil _ _))
  nodes := by
    intro p hp
    obtain ⟨h0, ⟨next, hnext⟩, hf⟩ := hb.nodes p hp
    refine ⟨h0, ⟨next, ?_⟩, by rw [hfloor p hp]; exact hf⟩
    rw [hver p.1 h0 (by rw [hnext]; exact List.cons_ne_nil _ _)]
    exact hnext
  unique := hb.unique
  base := by
    rcases hb.base with h1 | ⟨h0, hne⟩
    · exact Or.inl h1
    · exact Or.inr ⟨h0, by rw [hver b h0 hne]; exact hne⟩

theorem Below.of_quiet (hb : Below s w b h l) (hq : Quiet s w w') : Below s w' b h l :=
  hb.transport (fun k hk _ => hq.versions k hk) fun p hp => hq.floor p.1 (hb.nodes p hp).1

/-- Where the head leads is `null` or a key. -/
theorem Below.head_key (hb : Below s w b h l) : h = -1 ∨ (h ≠ 0 ∧ w.regs.versions h ≠ []) := by
  have hbase := hb.base
  have hnodes := hb.nodes
  cases hb.chain with
  | nil => exact hbase
  | cons _ _ _ =>
      obtain ⟨h0, ⟨next, hnext⟩, -⟩ := hnodes _ List.mem_cons_self
      exact Or.inr ⟨h0, by rw [hnext]; exact List.cons_ne_nil _ _⟩

/-- What is below the head may be forgotten. -/
theorem Below.forget (hb : Below s w b h l) : Below s w h h [] where
  chain := .nil
  nodes := by intro p hp; cases hp
  unique := List.nodup_nil
  base := hb.head_key

theorem below_null (s : Int) (w : World Int (V × Int)) : Below s w (-1) (-1) [] where
  chain := .nil
  nodes := by intro p hp; cases hp
  unique := List.nodup_nil
  base := Or.inl rfl

/-- A node that was put twice goes on top of the nodes there were. -/
theorem Below.push (hb : Below s w b h l) {id : Int} {val : V} (hid0 : id ≠ 0) (hnull : id ≠ -1)
    (hfresh : w.regs.versions id = [])
    (hver : ∀ k, k ≠ 0 → k ≠ id → w'.regs.versions k = w.regs.versions k)
    (hfloor : ∀ k, k ≠ 0 → k ≠ id → w'.regs.floor s k = w.regs.floor s k)
    (hidver : w'.regs.versions id = [(val, -1), (val, h)])
    (hidfloor : w'.regs.floor s id = if s = 1 then 2 else 0) :
    Below s w' b id ((id, val) :: l) := by
  have hnew : ∀ p ∈ l, p.1 ≠ id := by
    intro p hp he
    obtain ⟨-, ⟨next, hnext⟩, -⟩ := hb.nodes p hp
    rw [he, hfresh] at hnext
    cases hnext
  have hidb : id ≠ b := by
    rintro rfl
    rcases hb.base with h1 | ⟨-, hne⟩
    · exact hnull h1
    · exact hne hfresh
  have hold : Below s w' b h l := by
    refine hb.transport (fun k hk hne => hver k hk fun he => hne (he ▸ hfresh)) fun p hp => ?_
    exact hfloor p.1 (hb.nodes p hp).1 (hnew p hp)
  refine ⟨.cons hidb (congrArg List.getLast? hidver) hold.chain, ?_, ?_, hold.base⟩
  · intro p hp
    rcases List.mem_cons.mp hp with rfl | hp
    · exact ⟨hid0, ⟨h, hidver⟩, hidfloor⟩
    · exact hold.nodes p hp
  · rw [List.map_cons, List.nodup_cons]
    refine ⟨?_, hb.unique⟩
    intro hmem
    obtain ⟨p, hp, hpid⟩ := List.mem_map.mp hmem
    exact hnew p hp hpid

variable [Zero V]

/-- **A push** of a lone client puts its node on top. -/
theorem lone_push (hs : 1 ≤ s ∧ s ≤ 9) (hl : Lone s w h) (hb : Below s w b h l) (val : V)
    (draws : Nat → Draws) (n : Nat) :
    ∃ id w', finish s draws (n + 5) (.pushSize val) w = (some .pushed, w')
      ∧ Lone s w' id ∧ Below s w' b id ((id, val) :: l) := by
  obtain ⟨id, hid⟩ : ∃ id, id = w.store.getSize * 10 + s := ⟨_, rfl⟩
  have hfresh : w.regs.versions id = [] := hid ▸ hl.fresh hs
  have hid0 : id ≠ 0 := by omega
  have hfl : w.regs.floor s id = 0 := by
    have := (wellFormed_reachable hl.reach).registers_bounded s id
    rw [show (registers w.store.history).versions id = [] from hfresh] at this
    exact Nat.le_zero.mp this
  -- the node is put with a dummy link
  obtain ⟨hl₁, hreg₁⟩ := lone_put_node hl hid0 (val, -1)
    ⟨w.store.getSize, Nat.le_refl _, hid, fun hne => absurd hfresh hne⟩
  have hsize₁ : (w.put id (val, -1) defaultSession).store.getSize = w.store.getSize + 1 := by
    rw [getSize_put hl.reach, if_pos (latest_eq_none.mpr hfresh)]
  -- the head is read
  obtain ⟨z, w₂, hget₂, hl₂, hq₂⟩ := lone_get_head hl₁ (draws (n + 2))
  -- the node is put with its link
  obtain ⟨hl₃, hreg₃⟩ := lone_put_node hl₂ hid0 (val, h)
    ⟨w.store.getSize, by rw [hq₂.size, hsize₁]; exact Nat.le_succ _, hid,
      fun _ => by rw [hq₂.size, hsize₁]; exact Nat.lt_succ_self _⟩
  -- the head is updated
  obtain ⟨w₄, hupd₄, hl₄, hq₄⟩ := lone_updateHead hl₃ id (draws n)
  refine ⟨id, w₄, ?_, hl₄, ?_⟩
  · rw [finish_step (.pushInsert val id) w (fun r hr => by cases hr)
        (by rw [hid]; rfl),
      finish_step (.pushReadHead val id) (w.put id (val, -1) defaultSession)
        (fun r hr => by cases hr) rfl,
      finish_step (.pushLink val id h) w₂ (fun r hr => by cases hr)
        (by simp only [Pc.step, hget₂]),
      finish_step (.pushUpdate val id h) (w₂.put id (val, h) defaultSession)
        (fun r hr => by cases hr) rfl,
      finish_step (.done .pushed) w₄ (fun r hr => by cases hr)
        (by simp only [Pc.step, hupd₄, if_true]),
      finish_done]
  · have hver₂ : w₂.regs.versions id = [(val, -1)] := by
      rw [hq₂.versions id hid0, hreg₁, SessionRegister.write_versions_self, hfresh]
      rfl
    refine hb.push hid0 (by omega) hfresh ?_ ?_ ?_ ?_
    · intro k hk hki
      rw [hq₄.versions k hk, hreg₃, SessionRegister.write_versions_ne _ _ _ hki,
        hq₂.versions k hk, hreg₁, SessionRegister.write_versions_ne _ _ _ hki]
    · intro k hk hki
      rw [hq₄.floor k hk, hreg₃, SessionRegister.write_floor_ne _ _ _ _ hki,
        hq₂.floor k hk, hreg₁, SessionRegister.write_floor_ne _ _ _ _ hki]
    · rw [hq₄.versions id hid0, hreg₃, SessionRegister.write_versions_self, hver₂]
      rfl
    · -- only the default session has seen what it put
      rw [hq₄.floor id hid0, hreg₃]
      by_cases hs1 : s = 1
      · rw [if_pos hs1, hs1, show defaultSession = 1 from rfl, SessionRegister.write_floor_self,
          hver₂]
        rfl
      · have hs1' : s ≠ defaultSession := hs1
        rw [if_neg hs1, SessionRegister.write_floor_other _ _ _ _ hs1', hq₂.floor id hid0, hreg₁,
          SessionRegister.write_floor_other _ _ _ _ hs1']
        exact hfl

/-- **A pop** of a lone client on an empty stack. -/
theorem lone_pop_empty (hl : Lone s w (-1)) (draws : Nat → Draws) (n : Nat) :
    ∃ w', finish s draws (n + 5) .popReadHead w = (some (.popped none), w') ∧ Lone s w' (-1) := by
  obtain ⟨z, w₁, hget, hl₁, -⟩ := lone_get_head hl (draws (n + 4))
  refine ⟨w₁, ?_, hl₁⟩
  rw [finish_step (.done (.popped none)) w₁ (fun r hr => by cases hr)
      (by simp only [Pc.step, hget, if_true]),
    finish_done]

/-- The rest of a pop once it has read its node, whichever version that was. -/
theorem lone_pop_rest (draws : Nat → Draws) (n : Nat) {w₁ w₂ : World Int (V × Int)} {z v : V}
    {next : Int} (hh : h ≠ -1) (hget : w.get 0 s (draws (n + 4)) = (.ok (z, h), w₁))
    (hnode : w₁.get h s (draws (n + 3)) = (.ok (v, next), w₂)) (hl₂ : Lone s w₂ h) :
    ∃ w', finish s draws (n + 5) .popReadHead w = (some (.popped (some v)), w')
      ∧ Lone s w' next ∧ Quiet s w₂ w' := by
  obtain ⟨w₃, hupd, hl₃, hq₃⟩ := lone_updateHead hl₂ next (draws (n + 2))
  refine ⟨w₃, ?_, hl₃, hq₃⟩
  rw [finish_step (.popReadNode h) w₁ (fun r hr => by cases hr)
      (by simp only [Pc.step, hget, if_neg hh]),
    finish_step (.popUpdate h (v, next)) w₂ (fun r hr => by cases hr)
      (by simp only [Pc.step, hnode]),
    finish_step (.done (.popped (some v))) w₃ (fun r hr => by cases hr)
      (by simp only [Pc.step, hupd, if_true]),
    finish_done]

omit [Zero V] in
/-- A lone client after reading a node. -/
theorem Lone.read_node (hl : Lone s w h) {k : Int} (hk : k ≠ 0) {i : Nat} (hr' : Reachable w')
    (hsel' : w'.store.readSelector = .causal) (hreg : w'.regs = w.regs.read s k i)
    (hsize : w'.store.getSize = w.store.getSize) : Lone s w' h where
  reach := hr'
  causal := hsel'
  head := by
    obtain ⟨z, hz⟩ := hl.head
    have hver : w'.regs.versions 0 = w.regs.versions 0 := congrArg (fun r => r.versions 0) hreg
    exact ⟨z, by rw [latest_of_versions_eq hver]; exact hz⟩
  known := by
    rw [hreg, SessionRegister.read_versions, SessionRegister.read_floor_ne _ s s i hk.symm]
    exact hl.known
  keys := by
    intro k' hk'
    rw [hreg, SessionRegister.read_versions] at hk'
    rw [hsize]
    exact hl.keys k' hk'

omit [Zero V] in
/-- The nodes below the one that was read are as they were. -/
theorem Below.read_node {v : V} (hb : Below s w b h ((h, v) :: l)) {i : Nat}
    (hreg : w'.regs = w.regs.read s h i) {next : Int}
    (hnext : w.regs.versions h = [(v, -1), (v, next)]) : Below s w' b next l := by
  have hchain : Chain w.latest b next l := by
    cases hb.chain with
    | cons _ hnode hrest =>
        have hl : w.latest h = some (v, next) := congrArg List.getLast? hnext
        rw [hl] at hnode
        obtain rfl : next = _ := congrArg Prod.snd (Option.some.inj hnode)
        exact hrest
  have hrest : Below s w b next l :=
    ⟨hchain, fun p hp => hb.nodes p (List.mem_cons_of_mem _ hp),
      (List.nodup_cons.mp hb.unique).2, hb.base⟩
  refine hrest.transport (fun k _ _ => congrArg (fun r => r.versions k) hreg) fun p hp => ?_
  have hph : p.1 ≠ h := by
    intro he
    exact (List.nodup_cons.mp hb.unique).1 (List.mem_map.mpr ⟨p, hp, he⟩)
  rw [hreg, SessionRegister.read_floor_ne _ s s i hph]

omit [Zero V] in
/-- A node's id is not the null id. -/
theorem Lone.node_ne (hl : Lone s w h) (hs : 1 ≤ s ∧ s ≤ 9) {k : Int} (h0 : k ≠ 0)
    (hk : w.regs.versions k ≠ []) : k ≠ -1 := by
  rcases hl.keys k hk with h1 | ⟨n, -, heq⟩
  · exact absurd h1 h0
  · omega

/-- **A pop** of a lone client returns the value on top. It may lose what lies beneath,
unless the session is the default one. -/
theorem lone_pop (hs : 1 ≤ s ∧ s ≤ 9) (hl : Lone s w h) {v : V}
    (hb : Below s w b h ((h, v) :: l)) (draws : Nat → Draws) (n : Nat) :
    ∃ h' w', finish s draws (n + 5) .popReadHead w = (some (.popped (some v)), w')
      ∧ Lone s w' h' ∧ (Below s w' b h' l ∨ (s ≠ 1 ∧ h' = -1)) := by
  obtain ⟨z, w₁, hget, hl₁, hq₁⟩ := lone_get_head hl (draws (n + 4))
  have hb₁ := hb.of_quiet hq₁
  obtain ⟨h0, ⟨next, hnext⟩, hfloor⟩ := hb₁.nodes _ List.mem_cons_self
  have hne : w₁.regs.versions h ≠ [] := by rw [hnext]; exact List.cons_ne_nil _ _
  obtain ⟨i, x, w₂, hnode, hm, hr₂, hsel₂, hreg₂, hsize₂⟩ :=
    get_may_read hl₁.reach hl₁.causal hne s (draws (n + 3))
  have hl₂ := hl₁.read_node h0 hr₂ hsel₂ hreg₂ hsize₂
  have hx : [(v, (-1 : Int)), (v, next)][i]? = some x := hnext ▸ hm.1
  rcases i with _ | _ | i
  · -- the version with the dummy link
    obtain rfl := Option.some.inj hx
    obtain ⟨w', hfin, hl', -⟩ := lone_pop_rest draws n (hl₁.node_ne hs h0 hne) hget hnode hl₂
    refine ⟨-1, w', hfin, hl', Or.inr ⟨?_, rfl⟩⟩
    rintro rfl
    have := hm.2
    rw [hfloor] at this
    exact absurd this (by decide)
  · obtain rfl := Option.some.inj hx
    obtain ⟨w', hfin, hl', hq'⟩ := lone_pop_rest draws n (hl₁.node_ne hs h0 hne) hget hnode hl₂
    exact ⟨next, w', hfin, hl', Or.inl ((hb₁.read_node hreg₂ hnext).of_quiet hq')⟩
  · cases hx

/-- **And it does lose it** for suitable draws, unless the session is the default one. -/
theorem lone_pop_stale (hs : 1 ≤ s ∧ s ≤ 9) (hs1 : s ≠ 1) (hl : Lone s w h) {v : V}
    (hb : Below s w b h ((h, v) :: l)) (n : Nat) :
    ∃ draws w', finish s draws (n + 5) .popReadHead w = (some (.popped (some v)), w')
      ∧ Lone s w' (-1) := by
  obtain ⟨z, w₁, hget, hl₁, hq₁⟩ := lone_get_head hl zeroDraws
  have hb₁ := hb.of_quiet hq₁
  obtain ⟨h0, ⟨next, hnext⟩, hfloor⟩ := hb₁.nodes _ List.mem_cons_self
  have hne : w₁.regs.versions h ≠ [] := by rw [hnext]; exact List.cons_ne_nil _ _
  have hm : w₁.regs.MayRead s h 0 (v, -1) := by
    refine ⟨by rw [hnext]; rfl, ?_⟩
    rw [hfloor, if_neg hs1]
    exact Nat.zero_le _
  obtain ⟨d, w₂, hnode, hr₂, hsel₂, hreg₂, hsize₂⟩ :=
    get_may_read_any hl₁.reach hl₁.causal hm
  have hl₂ := hl₁.read_node h0 hr₂ hsel₂ hreg₂ hsize₂
  -- the second of the call's three reads is the one that matters
  obtain ⟨w', hfin, hl', -⟩ := lone_pop_rest (fun m => if m = n + 3 then d else zeroDraws) n
    (hl₁.node_ne hs h0 hne) (by rw [if_neg (by omega)]; exact hget)
    (by rw [if_pos rfl]; exact hnode) hl₂
  exact ⟨_, w', hfin, hl'⟩

end Calls

/-! ## Sequences of calls -/

/-- Every draw of a call is `0`. -/
def zeroCallDraws : Nat → Draws := fun _ => zeroDraws

section Runs

variable [Zero V] {s : Int} {n : Nat}

/-- The calls of a run with their random numbers left out. -/
def opsOf (calls : List (StackOp V × (Nat → Draws))) : List (StackOp V) := calls.map Prod.fst

omit [Zero V] in
theorem eq_of_below_nil {w : World Int (V × Int)} {b h : Int} (hb : Below s w b h []) : h = b := by
  cases hb.chain
  rfl

omit [Zero V] in
/-- The head is the id of the first node below it. -/
theorem head_of_below_cons {w : World Int (V × Int)} {b h : Int} {p : Int × V}
    {l : List (Int × V)} (hb : Below s w b h (p :: l)) : p = (h, p.2) := by
  cases hb.chain
  rfl

/-- **The default session** always has a stack. -/
theorem runCalls_default (calls : List (StackOp V × (Nat → Draws))) {w : World Int (V × Int)}
    {h : Int} {l : List (Int × V)} (hl : Lone 1 w h) (hb : Below 1 w (-1) h l) :
    runCalls 1 (n + 5) calls w = (lifoRets (l.map Prod.snd) (opsOf calls)).map some := by
  have hs : (1 : Int) ≤ 1 ∧ (1 : Int) ≤ 9 := by omega
  induction calls generalizing w h l with
  | nil => rfl
  | cons c calls ih =>
      obtain ⟨op, draws⟩ := c
      cases op with
      | push val =>
          obtain ⟨id, w', hfin, hl', hb'⟩ := lone_push hs hl hb val draws n
          simp only [runCalls, StackOp.start, hfin, ih hl' hb']
          rfl
      | pop =>
          cases l with
          | nil =>
              obtain rfl := eq_of_below_nil hb
              obtain ⟨w', hfin, hl'⟩ := lone_pop_empty hl draws n
              simp only [runCalls, StackOp.start, hfin, ih hl' (below_null 1 w')]
              rfl
          | cons p l =>
              rw [head_of_below_cons hb] at hb
              obtain ⟨h', w', hfin, hl', hb' | ⟨hne, -⟩⟩ := lone_pop hs hl hb draws n
              · simp only [runCalls, StackOp.start, hfin, ih hl' hb']
                rfl
              · exact absurd rfl hne

/-- **Sheltered calls** of any session make a stack: what a pop may lose is not asked for. -/
theorem runCalls_sheltered (hs : 1 ≤ s ∧ s ≤ 9) (calls : List (StackOp V × (Nat → Draws)))
    (st : List V) {w : World Int (V × Int)} {b h : Int} {l : List (Int × V)} (hl : Lone s w h)
    (hb : Below s w b h l) (hbase : st = [] → b = -1)
    (hsh : Sheltered l.length st.length (opsOf calls)) :
    runCalls s (n + 5) calls w = (lifoRets (l.map Prod.snd ++ st) (opsOf calls)).map some := by
  induction calls generalizing w b h l st with
  | nil => rfl
  | cons c calls ih =>
      obtain ⟨op, draws⟩ := c
      cases op with
      | push val =>
          obtain ⟨id, w', hfin, hl', hb'⟩ := lone_push hs hl hb val draws n
          simp only [runCalls, StackOp.start, hfin, ih st hl' hb' hbase hsh]
          rfl
      | pop =>
          cases l with
          | nil =>
              -- nothing fresh, so nothing at all
              obtain ⟨hst, hsh'⟩ : st.length = 0 ∧ Sheltered 0 0 (opsOf calls) := hsh
              obtain rfl := List.length_eq_zero_iff.mp hst
              obtain rfl := eq_of_below_nil hb
              obtain rfl : h = -1 := hbase rfl
              obtain ⟨w', hfin, hl'⟩ := lone_pop_empty hl draws n
              simp only [runCalls, StackOp.start, hfin,
                ih [] hl' (below_null s w') (fun _ => rfl) hsh']
              rfl
          | cons p l =>
              rw [head_of_below_cons hb] at hb
              obtain ⟨h', w', hfin, hl', hcase⟩ := lone_pop hs hl hb draws n
              have hb' : Below s w' h' h' [] := by
                rcases hcase with hb' | ⟨-, rfl⟩
                · exact hb'.forget
                · exact below_null s w'
              have hbase' : l.map Prod.snd ++ st = [] → h' = -1 := by
                intro hnil
                obtain ⟨hl0, hst⟩ := List.append_eq_nil_iff.mp hnil
                rcases hcase with hb' | ⟨-, rfl⟩
                · obtain rfl := List.map_eq_nil_iff.mp hl0
                  exact (eq_of_below_nil hb').trans (hbase hst)
                · rfl
              have hsh' : Sheltered 0 (l.map Prod.snd ++ st).length (opsOf calls) := by
                have : Sheltered 0 (st.length + l.length) (opsOf calls) := hsh
                rwa [List.length_append, List.length_map, Nat.add_comm]
              have := ih _ hl' hb' hbase' hsh'
              simp only [runCalls, StackOp.start, hfin, this]
              rfl

/-- **Any other calls** go wrong for suitable draws, unless the session is the default one. -/
theorem runCalls_unsheltered (hs : 1 ≤ s ∧ s ≤ 9) (hs1 : s ≠ 1) (ops : List (StackOp V))
    (st : List V) {w : World Int (V × Int)} {h : Int} {l : List (Int × V)} (hl : Lone s w h)
    (hb : Below s w (-1) h l) (hsh : ¬ Sheltered l.length st.length ops) :
    ∃ calls, opsOf calls = ops
      ∧ runCalls s (n + 5) calls w ≠ (lifoRets (l.map Prod.snd ++ st) ops).map some := by
  induction ops generalizing w h l st with
  | nil => exact absurd trivial hsh
  | cons op ops ih =>
      -- one call as on a stack, and the rest goes wrong
      have hcons : ∀ {draws : Nat → Draws} {r : StackRet V} {w' : World Int (V × Int)}
          {h' : Int} (l' : List (Int × V)) (st' : List V),
          finish s draws (n + 5) op.start w = (some r, w') →
          lifo.step (l.map Prod.snd ++ st) op = (l'.map Prod.snd ++ st', r) →
          Lone s w' h' → Below s w' (-1) h' l' → ¬ Sheltered l'.length st'.length ops →
          ∃ calls, opsOf calls = op :: ops
            ∧ runCalls s (n + 5) calls w
              ≠ (lifoRets (l.map Prod.snd ++ st) (op :: ops)).map some := by
        intro draws r w' h' l' st' hfin hstep hl' hb' hsh'
        obtain ⟨calls, hcalls, hne⟩ := ih st' hl' hb' hsh'
        refine ⟨(op, draws) :: calls, congrArg (op :: ·) hcalls, ?_⟩
        simp only [runCalls, hfin, lifoRets, hstep, List.map_cons, ne_eq, List.cons.injEq,
          true_and]
        exact hne
      cases op with
      | push val =>
          obtain ⟨id, w', hfin, hl', hb'⟩ := lone_push hs hl hb val zeroCallDraws n
          exact hcons _ st hfin rfl hl' hb' hsh
      | pop =>
          cases l with
          | nil =>
              obtain rfl := eq_of_below_nil hb
              obtain ⟨w', hfin, hl'⟩ := lone_pop_empty hl zeroCallDraws n
              cases st with
              | nil =>
                  exact hcons [] [] hfin rfl hl' (below_null s w')
                    (fun hsh' => hsh ⟨rfl, hsh'⟩)
              | cons v st =>
                  -- the value asked for was lost
                  refine ⟨(.pop, zeroCallDraws) :: ops.map (fun op => (op, zeroCallDraws)), ?_, ?_⟩
                  · exact congrArg (StackOp.pop :: ·) ((List.map_map ..).trans (List.map_id ops))
                  · simp only [runCalls, StackOp.start, hfin]
                    intro heq
                    have := Option.some.inj (List.cons.inj heq).1
                    cases this
          | cons p l =>
              rw [head_of_below_cons hb] at hb
              obtain ⟨draws, w', hfin, hl'⟩ := lone_pop_stale hs hs1 hl hb n
              refine hcons [] (l.map Prod.snd ++ st) hfin rfl hl'
                (below_null s w') ?_
              intro hsh'
              rw [List.length_append, List.length_map, Nat.add_comm] at hsh'
              exact hsh hsh'

/-- The new stack. -/
theorem lone_newStack (s : Int) : Lone s (newStack .causal : World Int (V × Int)) (-1) := by
  have hr : Reachable (World.init .causal : World Int (V × Int)) := .init .causal
  have hreg : (newStack .causal : World Int (V × Int)).regs
      = SessionRegister.empty.write defaultSession 0 (0, -1) := by
    rw [← registers_init .causal]
    exact registers_put hr 0 (0, -1) _
  refine ⟨hr.put 0 _ _, rfl, ⟨0, ?_⟩, ?_, ?_⟩
  · show ((newStack .causal : World Int (V × Int)).regs.versions 0).getLast? = _
    rw [hreg, SessionRegister.write_versions_self]
    rfl
  · rw [hreg, SessionRegister.write_versions_self]
    exact Nat.le_max_left 1 _
  · intro k hk
    by_contra hno
    refine hk ?_
    rw [hreg, SessionRegister.write_versions_ne _ _ _ (fun h0 => hno (Or.inl h0))]
    rfl

end Runs

/-- **When a lone client's stack is a stack.** Calls made one after the other by session
`s`, a digit, all return, and what they return is what a stack returns, whatever the draws,
iff the session is the default one or no pop asks for a value that lay beneath one popped
before. -/
theorem lone_stack [Zero V] (s : Int) (hs : 1 ≤ s ∧ s ≤ 9) (fuel : Nat) (hfuel : 5 ≤ fuel)
    (ops : List (StackOp V)) :
    (∀ calls, opsOf calls = ops →
        runCalls s fuel calls (newStack .causal) = (lifoRets [] ops).map some)
      ↔ (s = 1 ∨ Sheltered 0 0 ops) := by
  obtain ⟨n, rfl⟩ : ∃ n, fuel = n + 5 := ⟨fuel - 5, by omega⟩
  have hl := lone_newStack (V := V) s
  have hb := below_null s (newStack .causal : World Int (V × Int))
  constructor
  · intro hall
    by_contra hno
    obtain ⟨hs1, hsh⟩ := not_or.mp hno
    obtain ⟨calls, hcalls, hne⟩ := runCalls_unsheltered (n := n) hs hs1 ops [] hl hb hsh
    exact hne (hall calls hcalls)
  · rintro (rfl | hsh) calls rfl
    · exact runCalls_default calls hl hb
    · exact runCalls_sheltered hs calls [] hl hb (fun _ => rfl) hsh

theorem lone_stack_session_two :
    runCalls 2 5 [(.push 11, zeroCallDraws), (.pop, zeroCallDraws), (.push 12, zeroCallDraws),
          (.pop, zeroCallDraws), (.pop, zeroCallDraws)] (newStack .causal)
        = [.pushed, .popped (some 11), .pushed, .popped (some 12), .popped none].map some
      ∧ ¬ ∀ calls, opsOf calls = [StackOp.push 11, .push 12, .pop, .pop] →
          runCalls 2 5 calls (newStack .causal)
            = (lifoRets ([] : List Nat) [.push 11, .push 12, .pop, .pop]).map some := by
  constructor
  · exact (lone_stack 2 (by decide) 5 (by decide)
      [.push 11, .pop, .push 12, .pop, .pop]).mpr (Or.inr ⟨rfl, trivial⟩) _ rfl
  · rw [lone_stack 2 (by decide) 5 (by decide)]
    rintro (h | ⟨h, -⟩)
    · exact absurd h (by decide)
    · exact absurd h (by decide)

theorem lone_stack_violated :
    ¬ ∀ (s : Int), 1 ≤ s ∧ s ≤ 9 → ∀ calls : List (StackOp Nat × (Nat → Draws)),
      runCalls s 5 calls (newStack .causal) = (lifoRets [] (opsOf calls)).map some := by
  intro hall
  have := hall 2 (by decide) [(.push 11, zeroCallDraws), (.push 12, zeroCallDraws),
    (.pop, zeroCallDraws), (.pop, zeroCallDraws)]
  exact absurd this (by decide)

end MockDB
