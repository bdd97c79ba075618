import MockDB.Proof.TreiberCausal
import Mathlib.Algebra.Group.Int.Defs

/-!
# Node ids

`push` makes the id of its node from the number of keys: ten times that, plus its session.
For sessions of one digit no two ids are the same. A larger session gets ahead of the count:
it takes an id that some lower session comes to pushes later, and that push then links the
old node to the nodes above it, or to itself. Where no two sessions are that far apart every
id is new, and the head leads through the nodes to the end of the list. That the code has
the ids in a `long` makes no difference.
-/

namespace MockDB

section Calls

variable {V : Type} [Zero V] {w : World Int (V × Int)} {z : V} {h s : Int}

/-- **A push on its own** writes its node, linked to the old head, and then the head. -/
theorem push_latest (hr : Reachable w) (hsel : w.store.readSelector = .linearizable)
    (h0 : w.latest 0 = some (z, h)) (hs : 0 < s) (val : V) (draws : Nat → Draws) (n : Nat) :
    ∃ w', finish s draws (n + 5) (.pushSize val) w = (some .pushed, w') ∧ Reachable w'
      ∧ w'.store.readSelector = .linearizable
      ∧ w'.latest = Function.update
          (Function.update w.latest (w.store.getSize * 10 + s) (some (val, h)))
          0 (some (0, w.store.getSize * 10 + s))
      ∧ w'.store.getSize = (if w.latest (w.store.getSize * 10 + s) = none
          then w.store.getSize + 1 else w.store.getSize) := by
  have hid : w.store.getSize * 10 + s ≠ 0 := by omega
  generalize hnew : (w.store.getSize * 10 + s : Int) = id at hid ⊢
  -- the node goes in with a dummy link
  have hr₁ : Reachable (w.put id (val, -1) defaultSession) := hr.put id _ _
  have hlat₁ := latest_put hr id (val, -1) defaultSession
  have hsize₁ := getSize_put hr id (val, -1) defaultSession
  have hhead₁ : (w.put id (val, -1) defaultSession).latest 0 = some (z, h) := by
    rw [hlat₁, Function.update_of_ne (Ne.symm hid), h0]
  -- the head is read, and the link put right
  obtain ⟨w₂, hget, hr₂, hsel₂, hlat₂, hsize₂⟩ := get_ok hr₁ hsel hhead₁ s (draws (n + 2))
  have hr₃ : Reachable (w₂.put id (val, h) defaultSession) := hr₂.put id _ _
  have hlat₃ : (w₂.put id (val, h) defaultSession).latest
      = Function.update w.latest id (some (val, h)) := by
    rw [latest_put hr₂, hlat₂, hlat₁, Function.update_idem]
  have hsize₃ : (w₂.put id (val, h) defaultSession).store.getSize
      = (w.put id (val, -1) defaultSession).store.getSize := by
    rw [getSize_put hr₂, hlat₂, hlat₁, Function.update_self, if_neg (Option.some_ne_none _), hsize₂]
  have hhead₃ : (w₂.put id (val, h) defaultSession).latest 0 = some (z, h) := by
    rw [hlat₃, Function.update_of_ne (Ne.symm hid), h0]
  -- nobody has swung the head since
  obtain ⟨w₄, hr₄, hsel₄, hsize₄, ⟨-, hupd, hlat₄⟩ | ⟨hne, -⟩⟩ :=
    updateHead_eq hr₃ hsel₂ hhead₃ h id s (draws n)
  · refine ⟨w₄, ?_, hr₄, hsel₄, ?_, ?_⟩
    · rw [finish_step (.pushInsert val id) w (fun r hr => by cases hr)
          (by simp only [Pc.step, hnew]),
        finish_step (.pushReadHead val id) (w.put id (val, -1) defaultSession)
          (fun r hr => by cases hr) rfl,
        finish_step (.pushLink val id h) w₂ (fun r hr => by cases hr)
          (by simp only [Pc.step, hget]),
        finish_step (.pushUpdate val id h) (w₂.put id (val, h) defaultSession)
          (fun r hr => by cases hr) rfl,
        finish_step (.done .pushed) w₄ (fun r hr => by cases hr)
          (by simp only [Pc.step, hupd, if_true]),
        finish_done]
    · rw [hlat₄, hlat₃]
    · rw [hsize₄, hsize₃, hsize₁]
  · exact absurd rfl hne

/-- **A pop on its own** swings the head to the next node, if there is a node. -/
theorem pop_latest (hr : Reachable w) (hsel : w.store.readSelector = .linearizable)
    (h0 : w.latest 0 = some (z, h)) (draws : Nat → Draws) (n : Nat) :
    ∃ w' ret, finish s draws (n + 5) .popReadHead w = (some ret, w') ∧ Reachable w'
      ∧ w'.store.readSelector = .linearizable ∧ w'.store.getSize = w.store.getSize
      ∧ (w'.latest = w.latest ∨ ∃ v next, h ≠ -1 ∧ w.latest h = some (v, next)
          ∧ w'.latest = Function.update w.latest 0 (some (0, next))) := by
  obtain ⟨w₁, hget, hr₁, hsel₁, hlat₁, hsize₁⟩ := get_ok hr hsel h0 s (draws (n + 4))
  by_cases hh : h = -1
  · refine ⟨w₁, .popped none, ?_, hr₁, hsel₁, hsize₁, Or.inl hlat₁⟩
    rw [finish_step (.done (.popped none)) w₁ (fun r hr => by cases hr)
        (by simp only [Pc.step, hget, if_pos hh]),
      finish_done]
  · have hread : finish s draws (n + 5) .popReadHead w
        = finish s draws (n + 4) (.popReadNode h) w₁ :=
      finish_step (.popReadNode h) w₁ (fun r hr => by cases hr)
        (by simp only [Pc.step, hget, if_neg hh])
    cases hnode : w₁.latest h with
    | none =>
        obtain ⟨w₂, hget₂, hr₂, hsel₂, hlat₂, hsize₂⟩ :=
          get_error hr₁ hsel₁ hnode s (draws (n + 3))
        refine ⟨w₂, .popped none, ?_, hr₂, hsel₂, hsize₂.trans hsize₁,
          Or.inl (hlat₂.trans hlat₁)⟩
        rw [hread, finish_step (.done (.popped none)) w₂ (fun r hr => by cases hr)
            (by simp only [Pc.step, hget₂]),
          finish_done]
    | some head =>
        obtain ⟨v, next⟩ := head
        obtain ⟨w₂, hget₂, hr₂, hsel₂, hlat₂, hsize₂⟩ :=
          get_ok hr₁ hsel₁ hnode s (draws (n + 3))
        have h0₂ : w₂.latest 0 = some (z, h) := by rw [hlat₂, hlat₁, h0]
        obtain ⟨w₃, hr₃, hsel₃, hsize₃, ⟨-, hupd, hlat₃⟩ | ⟨hne, -⟩⟩ :=
          updateHead_eq hr₂ hsel₂ h0₂ h next s (draws (n + 2))
        · refine ⟨w₃, .popped (some v), ?_, hr₃, hsel₃, hsize₃.trans (hsize₂.trans hsize₁),
            Or.inr ⟨v, next, hh, hlat₁ ▸ hnode, ?_⟩⟩
          · rw [hread, finish_step (.popUpdate h (v, next)) w₂ (fun r hr => by cases hr)
                (by simp only [Pc.step, hget₂]),
              finish_step (.done (.popped (some v))) w₃ (fun r hr => by cases hr)
                (by simp only [Pc.step, hupd, if_true]),
              finish_done]
          · rw [hlat₃, hlat₂, hlat₁]
        · exact absurd rfl hne

end Calls

/-! ## Ids in a `long` -/

/-- An id as the code has it: the size is unsigned, so the sum wraps around in 64 bits. -/
def longId (size : Nat) (sessionId : Int) : Int := (size * 10 + sessionId).bmod (2 ^ 64)

section LongId

variable {m n : Nat} {s t : Int}

/-- As long as the sum of the two is below `2 ^ 64`, only its sign is lost. -/
theorem longId_eq (hm : m < 9 * 10 ^ 17) (hs : 0 < s ∧ s < 2 ^ 63) :
    longId m s = if (m * 10 + s : Int) < 2 ^ 63 then m * 10 + s else m * 10 + s - 2 ^ 64 := by
  have hmod : (m * 10 + s : Int) % (2 ^ 64 : Nat) = m * 10 + s := by
    rw [Int.emod_eq_of_lt] <;> omega
  rw [longId, Int.bmod_def, hmod]
  omega

/-- Two ids are one `long` just if they are the same without bounds. -/
theorem longId_inj (hm : m < 9 * 10 ^ 17) (hn : n < 9 * 10 ^ 17) (hs : 0 < s ∧ s < 2 ^ 63)
    (ht : 0 < t ∧ t < 2 ^ 63) : longId m s = longId n t ↔ (m * 10 + s : Int) = n * 10 + t := by
  rw [longId_eq hm hs, longId_eq hn ht]
  omega

/-- None is the head's key, or the end of the list. -/
theorem longId_ne (hm : m < 9 * 10 ^ 17) (hs : 0 < s ∧ s < 2 ^ 63) :
    longId m s ≠ 0 ∧ longId m s ≠ -1 := by
  rw [longId_eq hm hs]
  omega

end LongId

/-! ## Sequences of calls -/

/-- The sessions that push, in their order. -/
def pushSessions {V : Type} (calls : List (StackCall V)) : List Int :=
  calls.filterMap StackCall.pushSession

/-- No session is ten, or a multiple of ten, ahead of one that pushes so many pushes later. -/
def Apart (sessions : List Int) : Prop :=
  ∀ (i j : Nat) s t, i < j → sessions[i]? = some s → sessions[j]? = some t →
    s ≠ t + 10 * ((j : Int) - i)

/-- The head leads through nodes, each once and none of them itself, to the end of the list. -/
def Linked {V : Type} (w : World Int (V × Int)) : Prop :=
  ∃ z h l, w.latest 0 = some (z, h) ∧ Chain w.latest (-1) h l ∧ (0 :: l.map Prod.fst).Nodup

/-- The id that a push computes for its node is no key yet, and not the head's. -/
def NewId {V : Type} [Zero V] (w : World Int (V × Int)) (call : StackCall V) : Prop :=
  ∀ val draws id w', call.op = .push val →
    Pc.step w call.sessionId draws (.pushSize val) = (.pushInsert val id, w') →
    id ∉ w.store.kvMap.keys ∧ id ≠ 0

/-- What calls on an empty stack are to do. -/
structure PushesFresh {V : Type} [Zero V] (fuel : Nat) (calls : List (StackCall V)) : Prop where
  /-- Each call returns. -/
  returns : ∀ done call, done ++ [call] <+: calls →
    ∃ ret, (finish call.sessionId call.draws fuel call.op.start (stackAfter fuel done)).1
      = some ret
  /-- Each push makes a new id. -/
  fresh : ∀ done call, done ++ [call] <+: calls → NewId (stackAfter fuel done) call
  /-- After each call there is a list of nodes. -/
  linked : ∀ done, done <+: calls → Linked (stackAfter fuel done)

/-- None of these sessions is so far ahead of one that pushes next. -/
def ApartFrom (sessions : List Int) (t : Int) : Prop :=
  ∀ (i : Nat) s, sessions[i]? = some s → s ≠ t + 10 * ((sessions.length : Int) - i)

theorem apart_nil : Apart [] := fun i j s t _ hi _ => by simp at hi

theorem apart_concat {sessions : List Int} {t : Int} :
    Apart (sessions ++ [t]) ↔ Apart sessions ∧ ApartFrom sessions t := by
  constructor
  · intro h
    refine ⟨fun i j s u hij hi hj => ?_, fun i s hi => ?_⟩
    · have hlt : j < sessions.length := (List.getElem?_eq_some_iff.mp hj).1
      refine h i j s u hij ?_ ?_
      · rw [List.getElem?_append_left (Nat.lt_trans hij hlt), hi]
      · rw [List.getElem?_append_left hlt, hj]
    · have hlt : i < sessions.length := (List.getElem?_eq_some_iff.mp hi).1
      refine h i sessions.length s t hlt ?_ List.getElem?_concat_length
      rw [List.getElem?_append_left hlt, hi]
  · rintro ⟨hold, hlast⟩ i j s u hij hi hj
    rcases ListOrder.getElem?_concat hj with ⟨hlt, hj'⟩ | ⟨rfl, rfl⟩
    · rw [List.getElem?_append_left (Nat.lt_trans hij hlt)] at hi
      exact hold i j s u hij hi hj'
    · rw [List.getElem?_append_left hij] at hi
      exact hlast i s hi

/-- A store whose keys are the head and the ids of so many pushes. -/
structure Numbered {V : Type} (w : World Int (V × Int)) (sessions : List Int) : Prop where
  reachable : Reachable w
  linearizable : w.store.readSelector = .linearizable
  size : w.store.getSize = sessions.length + 1
  keys : ∀ k, w.latest k ≠ none
    ↔ k = 0 ∨ ∃ (i : Nat) (s : Int), sessions[i]? = some s ∧ k = (i + 1) * 10 + s
  positive : ∀ s ∈ sessions, 0 < s
  linked : Linked w

section Numbered

variable {V : Type} {w : World Int (V × Int)} {sessions : List Int} {t : Int}

/-- An id is new just if no session so far is as far ahead of the one that pushes now. -/
theorem Numbered.fresh_iff (h : Numbered w sessions) (ht : 0 < t) :
    w.latest (w.store.getSize * 10 + t) = none ↔ ApartFrom sessions t := by
  have hsize : (w.store.getSize : Int) = sessions.length + 1 := by rw [h.size]; rfl
  unfold ApartFrom
  rw [← not_iff_not, ← ne_eq, h.keys, hsize]
  push Not
  constructor
  · rintro (h0 | ⟨i, s, hi, heq⟩)
    · omega
    · exact ⟨i, s, hi, by omega⟩
  · rintro ⟨i, s, hi, heq⟩
    exact Or.inr ⟨i, s, hi, by omega⟩

theorem numbered_newStack [Zero V] :
    Numbered (newStack .linearizable : World Int (V × Int)) [] := by
  have hr : Reachable (World.init .linearizable : World Int (V × Int)) := .init .linearizable
  have hlat : (newStack .linearizable : World Int (V × Int)).latest
      = Function.update (World.init .linearizable).latest 0 (some (0, -1)) := latest_put hr 0 _ _
  refine ⟨hr.put 0 _ _, rfl, rfl, fun k => ?_, fun s hs => (List.not_mem_nil hs).elim, ?_⟩
  · rw [hlat]
    by_cases hk : k = 0
    · subst hk
      rw [Function.update_self]
      exact iff_of_true (Option.some_ne_none _) (Or.inl rfl)
    · rw [Function.update_of_ne hk]
      refine iff_of_false (fun hne => hne rfl) ?_
      rintro (h0 | ⟨i, s, hi, -⟩)
      · exact hk h0
      · exact Option.some_ne_none _ (hi.symm.trans rfl)
  · exact ⟨0, -1, [], by rw [hlat, Function.update_self], .nil, List.nodup_singleton 0⟩

/-- **A push of a new id** puts its node on the stack, and leaves all others as they are. -/
theorem Numbered.push [Zero V] (h : Numbered w sessions) (ht : 0 < t)
    (hnew : w.latest (w.store.getSize * 10 + t) = none) (val : V) (draws : Nat → Draws)
    (n : Nat) : ∃ w', finish t draws (n + 5) (.pushSize val) w = (some .pushed, w')
      ∧ Numbered w' (sessions ++ [t]) := by
  obtain ⟨z, head, l, h0, hchain, hnodup⟩ := h.linked
  obtain ⟨w', hfin, hr', hsel', hlat', hsize'⟩ :=
    push_latest h.reachable h.linearizable h0 ht val draws n
  have hid : (w.store.getSize * 10 + t : Int) = (sessions.length + 1) * 10 + t := by
    rw [h.size]; rfl
  rw [hid] at hnew hlat' hsize'
  generalize hkey : ((sessions.length + 1) * 10 + t : Int) = id at hnew hlat' hsize'
  have hid0 : id ≠ 0 := by omega
  have hnodes : ∀ p ∈ l, p.1 ≠ id := fun p hp heq => hchain.view_ne_none p hp (heq ▸ hnew)
  have hzero : ∀ p ∈ l, p.1 ≠ 0 := fun p hp heq =>
    (List.nodup_cons.mp hnodup).1 (heq ▸ List.mem_map_of_mem hp)
  refine ⟨w', hfin, hr', hsel', ?_, fun k => ?_, fun s hs => ?_, 0, id, (id, val) :: l, ?_, ?_, ?_⟩
  · rw [hsize', if_pos hnew, h.size, List.length_append, List.length_singleton]
  · rw [hlat']
    by_cases hk0 : k = 0
    · subst hk0
      rw [Function.update_self]
      exact iff_of_true (Option.some_ne_none _) (Or.inl rfl)
    · rw [Function.update_of_ne hk0]
      by_cases hk : k = id
      · subst hk
        rw [Function.update_self]
        refine iff_of_true (Option.some_ne_none _) (Or.inr ⟨sessions.length, t, ?_, hkey.symm⟩)
        exact List.getElem?_concat_length
      · rw [Function.update_of_ne hk, h.keys]
        refine or_congr_right ⟨?_, ?_⟩
        · rintro ⟨i, s, hi, heq⟩
          have hlt := (List.getElem?_eq_some_iff.mp hi).1
          exact ⟨i, s, by rw [List.getElem?_append_left hlt, hi], heq⟩
        · rintro ⟨i, s, hi, heq⟩
          rcases ListOrder.getElem?_concat hi with ⟨-, hi'⟩ | ⟨rfl, rfl⟩
          · exact ⟨i, s, hi', heq⟩
          · exact absurd (heq.trans hkey) hk
  · rcases List.mem_append.mp hs with hs | hs
    · exact h.positive s hs
    · rw [List.mem_singleton.mp hs]; exact ht
  · rw [hlat', Function.update_self]
  · rw [hlat']
    refine Chain.update (.cons ?_ (Function.update_self ..) (hchain.update _ hnodes)) _ ?_
    · omega
    · intro p hp
      rcases List.mem_cons.mp hp with rfl | hp
      · exact hid0
      · exact hzero p hp
  · rw [List.map_cons]
    refine List.nodup_cons.mpr ⟨fun hmem => ?_, List.nodup_cons.mpr ⟨fun hmem => ?_, ?_⟩⟩
    · rcases List.mem_cons.mp hmem with heq | hmem
      · exact hid0 heq.symm
      · exact (List.nodup_cons.mp hnodup).1 hmem
    · obtain ⟨p, hp, heq⟩ := List.mem_map.mp hmem
      exact hnodes p hp heq
    · exact (List.nodup_cons.mp hnodup).2

/-- **A pop** takes the first node off, and makes no key. -/
theorem Numbered.pop [Zero V] (h : Numbered w sessions) (s : Int) (draws : Nat → Draws)
    (n : Nat) : ∃ w' ret, finish s draws (n + 5) (.popReadHead : Pc V) w = (some ret, w')
      ∧ Numbered w' sessions := by
  obtain ⟨z, head, l, h0, hchain, hnodup⟩ := h.linked
  obtain ⟨w', ret, hfin, hr', hsel', hsize', hlat' | ⟨v, next, hne, hnode, hlat'⟩⟩ :=
    pop_latest h.reachable h.linearizable h0 draws n
  · refine ⟨w', ret, hfin, hr', hsel', hsize'.trans h.size, ?_, h.positive, z, head, l, ?_⟩
    · rw [hlat']; exact h.keys
    · rw [hlat']; exact ⟨h0, hchain, hnodup⟩
  · obtain ⟨v', next', rest, hnode', rfl, hrest⟩ := hchain.exists_cons hne
    have hnext : next' = next := by
      rw [hnode] at hnode'
      exact (Prod.mk.inj (Option.some.inj hnode')).2.symm
    subst hnext
    have hdrop : (0 :: rest.map Prod.fst).Nodup :=
      hnodup.sublist ((List.sublist_cons_self head _).cons_cons 0)
    refine ⟨w', ret, hfin, hr', hsel', hsize'.trans h.size, fun k => ?_, h.positive, 0, next', rest,
      ?_, ?_, hdrop⟩
    · rw [hlat']
      by_cases hk : k = 0
      · subst hk
        rw [Function.update_self]
        exact iff_of_true (Option.some_ne_none _) (Or.inl rfl)
      · rw [Function.update_of_ne hk, h.keys]
    · rw [hlat', Function.update_self]
    · rw [hlat']
      refine hrest.update _ fun p hp heq => (List.nodup_cons.mp hdrop).1 ?_
      rw [← heq]
      exact List.mem_map_of_mem hp

/-- A push's id is new just if no session so far is as far ahead. -/
theorem Numbered.newId_iff [Zero V] (h : Numbered w sessions) {call : StackCall V}
    (hpos : 0 < call.sessionId) {val : V} (hop : call.op = .push val) :
    NewId w call ↔ ApartFrom sessions call.sessionId := by
  rw [← h.fresh_iff hpos, latest_eq_none_iff_lookup h.reachable, AList.lookup_eq_none]
  constructor
  · intro hnew
    exact (hnew val zeroDraws _ w hop rfl).1
  · intro hno val' draws id w' _ hstep
    obtain rfl : w.store.getSize * 10 + call.sessionId = id :=
      (Pc.pushInsert.inj (Prod.mk.inj hstep).1).2
    exact ⟨hno, by omega⟩

end Numbered

section Run

variable {V : Type} [Zero V] {fuel n : Nat} {calls : List (StackCall V)} {call : StackCall V}

theorem stackAfter_concat : stackAfter fuel (calls ++ [call])
    = (finish call.sessionId call.draws fuel call.op.start (stackAfter fuel calls)).2 := by
  simp [stackAfter]

omit [Zero V] in
theorem pushSessions_concat : pushSessions (calls ++ [call])
    = pushSessions calls ++ call.pushSession.toList := by
  unfold pushSessions
  rw [List.filterMap_append]
  congr 1

theorem pushesFresh_concat : PushesFresh fuel (calls ++ [call]) ↔ PushesFresh fuel calls
    ∧ (∃ ret, (finish call.sessionId call.draws fuel call.op.start (stackAfter fuel calls)).1
        = some ret)
    ∧ NewId (stackAfter fuel calls) call ∧ Linked (stackAfter fuel (calls ++ [call])) := by
  constructor
  · intro h
    have hold : ∀ {done : List (StackCall V)}, done <+: calls → done <+: calls ++ [call] :=
      fun hpre => hpre.trans (List.prefix_append calls [call])
    exact ⟨⟨fun done c hpre => h.returns done c (hold hpre),
        fun done c hpre => h.fresh done c (hold hpre), fun done hpre => h.linked done (hold hpre)⟩,
      h.returns calls call List.prefix_rfl, h.fresh calls call List.prefix_rfl,
      h.linked _ List.prefix_rfl⟩
  · rintro ⟨h, hret, hnew, hlinked⟩
    have hlast : ∀ {done c}, done ++ [c] <+: calls ++ [call] →
        (done = calls ∧ c = call) ∨ done ++ [c] <+: calls := by
      intro done c hpre
      rcases List.prefix_concat_iff.mp hpre with heq | hold
      · obtain ⟨hdone, hc⟩ := List.append_inj' heq rfl
        exact Or.inl ⟨hdone, List.singleton_inj.mp hc⟩
      · exact Or.inr hold
    refine ⟨fun done c hpre => ?_, fun done c hpre => ?_, fun done hpre => ?_⟩
    · rcases hlast hpre with ⟨rfl, rfl⟩ | hold
      · exact hret
      · exact h.returns done c hold
    · rcases hlast hpre with ⟨rfl, rfl⟩ | hold
      · exact hnew
      · exact h.fresh done c hold
    · rcases List.prefix_concat_iff.mp hpre with rfl | hold
      · exact hlinked
      · exact h.linked done hold

theorem pushesFresh_nil : PushesFresh fuel ([] : List (StackCall V)) := by
  refine ⟨fun done call hpre => ?_, fun done call hpre => ?_, fun done hpre => ?_⟩
  · exact absurd hpre.length_le (by simp)
  · exact absurd hpre.length_le (by simp)
  · rw [List.prefix_nil.mp hpre]
    exact numbered_newStack.linked

/-- **Each call** keeps a numbered store numbered, or makes an id that was there. -/
theorem pushesFresh_step (hpos : 0 < call.sessionId)
    (h : Numbered (stackAfter (n + 5) calls) (pushSessions calls))
    (hfresh : PushesFresh (n + 5) calls) :
    (Apart (pushSessions (calls ++ [call])) →
        Numbered (stackAfter (n + 5) (calls ++ [call])) (pushSessions (calls ++ [call]))
          ∧ PushesFresh (n + 5) (calls ++ [call]))
      ∧ (Apart (pushSessions calls) → PushesFresh (n + 5) (calls ++ [call]) →
        Apart (pushSessions (calls ++ [call]))) := by
  rw [pushSessions_concat, pushesFresh_concat]
  cases hop : call.op with
  | push val =>
      have hsession : call.pushSession = some call.sessionId := by
        obtain ⟨op, s, draws⟩ := call
        cases hop
        rfl
      have hnew := h.newId_iff hpos hop
      rw [hsession, Option.toList_some, apart_concat, ← hnew]
      refine ⟨fun ⟨_, hid⟩ => ?_, fun hold ⟨_, _, hid, _⟩ => ⟨hold, hid⟩⟩
      obtain ⟨w', hfin, hnum⟩ :=
        h.push hpos ((h.fresh_iff hpos).mpr (hnew.mp hid)) val call.draws n
      rw [stackAfter_concat, hop, StackOp.start, hfin]
      exact ⟨hnum, hfresh, ⟨_, rfl⟩, hid, hnum.linked⟩
  | pop =>
      have hsession : call.pushSession = none := by
        obtain ⟨op, s, draws⟩ := call
        cases hop
        rfl
      rw [hsession, Option.toList_none, List.append_nil]
      refine ⟨fun _ => ?_, fun hold _ => hold⟩
      obtain ⟨w', ret, hfin, hnum⟩ := h.pop call.sessionId call.draws n
      rw [stackAfter_concat, hop, StackOp.start, hfin]
      have hid : NewId (stackAfter (n + 5) calls) call := fun val _ _ _ heq => by
        cases hop.symm.trans heq
      exact ⟨hnum, hfresh, ⟨ret, rfl⟩, hid, hnum.linked⟩

theorem pushesFresh_run (hpos : ∀ call ∈ calls, 0 < call.sessionId) :
    (Apart (pushSessions calls) → Numbered (stackAfter (n + 5) calls) (pushSessions calls)
        ∧ PushesFresh (n + 5) calls)
      ∧ (PushesFresh (n + 5) calls → Apart (pushSessions calls)) := by
  induction calls using List.reverseRecOn with
  | nil => exact ⟨fun _ => ⟨numbered_newStack, pushesFresh_nil⟩, fun _ => apart_nil⟩
  | append_singleton calls call ih =>
      have hcall := hpos call (List.mem_append_right _ List.mem_cons_self)
      obtain ⟨hnum, hapart⟩ := ih fun c hc => hpos c (List.mem_append_left _ hc)
      constructor
      · intro h
        have hold : Apart (pushSessions calls) := by
          rw [pushSessions_concat] at h
          cases hs : call.pushSession with
          | none => rwa [hs, Option.toList_none, List.append_nil] at h
          | some t => rw [hs] at h; exact (apart_concat.mp h).1
        obtain ⟨hn, hfresh⟩ := hnum hold
        exact (pushesFresh_step hcall hn hfresh).1 h
      · intro h
        have hold := hapart (pushesFresh_concat.mp h).1
        obtain ⟨hn, hfresh⟩ := hnum hold
        exact (pushesFresh_step hcall hn hfresh).2 hold h

/-- **In a `long` the ids only have other names.** As long as each was new, the `long` of the next
one is that of a key just if the id is a key. -/
theorem longId_mem_keys_iff (hpos : ∀ call ∈ calls, 0 < call.sessionId ∧ call.sessionId < 2 ^ 63)
    (hlength : calls.length < 8 * 10 ^ 17) (hfresh : PushesFresh (n + 5) calls) {t : Int}
    (ht : 0 < t ∧ t < 2 ^ 63) :
    longId (stackAfter (n + 5) calls).store.getSize t
        ∈ (stackAfter (n + 5) calls).store.kvMap.keys.map (fun key => key.bmod (2 ^ 64))
      ↔ ((stackAfter (n + 5) calls).store.getSize * 10 + t : Int)
        ∈ (stackAfter (n + 5) calls).store.kvMap.keys := by
  obtain ⟨hrun, hapart⟩ := pushesFresh_run (n := n) fun call hcall => (hpos call hcall).1
  obtain ⟨hnum, -⟩ := hrun (hapart hfresh)
  refine ⟨fun hmem => ?_, fun hmem => List.mem_map.mpr ⟨_, hmem, rfl⟩⟩
  obtain ⟨key, hkey, heq⟩ := List.mem_map.mp hmem
  have hpushes : (pushSessions calls).length ≤ calls.length := List.length_filterMap_le _ _
  have hsize := hnum.size
  have hlatest : (stackAfter (n + 5) calls).latest key ≠ none := fun hno =>
    AList.lookup_eq_none.mp ((latest_eq_none_iff_lookup hnum.reachable).mp hno) hkey
  rcases (hnum.keys key).mp hlatest with rfl | ⟨i, s, hi, rfl⟩
  · -- the head's key is no id
    exact absurd heq.symm (longId_ne (by omega) ht).1
  · have hlt := (List.getElem?_eq_some_iff.mp hi).1
    obtain ⟨call, hcall, hsession⟩ := List.mem_filterMap.mp (List.mem_of_getElem? hi)
    have hs : 0 < s ∧ s < 2 ^ 63 := by
      obtain ⟨op, session, draws⟩ := call
      cases op with
      | push val => exact Option.some.inj hsession ▸ hpos _ hcall
      | pop => cases hsession
    rw [← (longId_inj (m := i + 1) (by omega) (by omega) hs ht).mp heq]
    exact hkey

end Run

/-- **Pushed nodes get new ids**, and the stack stays a list, just if no session that pushes
is as many tens ahead of another as there are pushes from its push to one of the other's. -/
theorem pushesFresh_iff {V : Type} [Zero V] (fuel : Nat) (hfuel : 5 ≤ fuel)
    (calls : List (StackCall V)) (hpos : ∀ call ∈ calls, 0 < call.sessionId) :
    PushesFresh fuel calls ↔ Apart (pushSessions calls) := by
  obtain ⟨n, rfl⟩ : ∃ n, fuel = n + 5 := ⟨fuel - 5, by omega⟩
  obtain ⟨hrun, hapart⟩ := pushesFresh_run (n := n) hpos
  exact ⟨hapart, fun h => (hrun h).2⟩

/-- Session 11 pushes, and then session 1. -/
def elevenThenOne : List (StackCall Nat) :=
  [⟨.push 5, 11, fun _ => zeroDraws⟩, ⟨.push 6, 1, fun _ => zeroDraws⟩]

/-- Both make the id 21, so that the second node is linked to itself. -/
theorem pushesFresh_violated : (∀ call ∈ elevenThenOne, 0 < call.sessionId)
    ∧ ¬ PushesFresh 5 elevenThenOne ∧ ¬ Linked (stackAfter 5 elevenThenOne) := by
  have hpos : ∀ call ∈ elevenThenOne, 0 < call.sessionId := by decide
  refine ⟨hpos, fun h => ?_, ?_⟩
  · exact (pushesFresh_run (n := 0) hpos).2 h 0 1 11 1 (by decide) rfl rfl (by decide)
  · rintro ⟨z, h, l, h0, hchain, -⟩
    have hhead : (stackAfter 5 elevenThenOne).latest 0 = some (0, 21) := by decide
    have hnode : (stackAfter 5 elevenThenOne).latest 21 = some (6, 21) := by decide
    rw [hhead] at h0
    obtain rfl := (Prod.mk.inj (Option.some.inj h0)).2
    exact Chain.not_of_self_link (by decide) hnode hchain

theorem pushesFresh_iff_elevenThenTwo :
    PushesFresh 5 [(⟨.push 5, 11, fun _ => zeroDraws⟩ : StackCall Nat),
        ⟨.push 6, 2, fun _ => zeroDraws⟩]
      ↔ Apart [11, 2] :=
  pushesFresh_iff 5 (by decide) _ (by decide)

end MockDB
