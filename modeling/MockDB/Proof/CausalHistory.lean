import MockDB.Proof.HistoryExecution

/-!
# When the causal store is causally consistent

The checker only looks at what the reading session itself did to the key. A PUT can be
causally before a read without the session having touched its key: read another key,
written after that PUT by its session, and the dependency is there but not collected.
`Covered` says this has not happened. While every GET is made from a covered state the
history is causally consistent, with the order of execution as the commit order; and from
any state that is not covered two GETs can break it.
-/

namespace MockDB

open Causal

variable {K V : Type} [DecidableEq K]

omit [DecidableEq K] in
/-- Position `i` is causally before whatever session `s` does next. -/
def InPast (h : List (Transaction K V)) (s : Int) (i : Nat) : Prop :=
  ∃ j tx, h[j]? = some tx ∧ tx.sessionId = s ∧ (i = j ∨ (execution h).hb i j)

/-- Every PUT on `x` in the causal past of session `s` is numbered no higher than what the
session has itself put on `x` or been given for it, or is the first version there is. -/
def Covered (h : List (Transaction K V)) (s : Int) (x : K) : Prop :=
  ∀ i, (execution h).write i x → InPast h s i → versionAt h x i ≤ max 1 (sessionFloor h s x)

/-- A step made from a covered state, if it is a GET. -/
def StepCovered (w : World K V) : Act K V → Prop
  | .create _ _ => True
  | .enter txId _ => ∀ tx, w.waiting.find? (fun t => t.txId = txId) = some tx →
      ∀ p r, tx.op = .get p r → Covered w.store.history tx.sessionId p.key

/-- A run all of whose GETs are made from covered states. -/
def RunCovered : World K V → List (Act K V) → Prop
  | _, [] => True
  | w, a :: acts => StepCovered w a ∧ RunCovered (w.act a) acts

/-- No GET skipped a causally earlier PUT on its key for an older one. -/
def ReadsCover (h : List (Transaction K V)) : Prop :=
  ∀ m n i x, (execution h).wr m n → (execution h).read n x → (execution h).write i x →
    (execution h).hb i n → versionAt h x i ≤ versionAt h x m

/-! ## A history that grew by one transaction -/

section Concat

variable {h : List (Transaction K V)} {t : Transaction K V}

omit [DecidableEq K] in
theorem getElem?_old {n : Nat} (hn : n < h.length) : (h ++ [t])[n]? = h[n]? :=
  List.getElem?_append_left hn

omit [DecidableEq K] in
theorem base_old {m n : Nat} (hn : n < h.length) (hmn : m < n)
    (hb : (execution (h ++ [t])).Base m n) : (execution h).Base m n := by
  rcases hb with ⟨_, a, b, ha, hb, hs⟩ | ⟨a, b, p, r, ha, hput, hb, hop, hid⟩
  · rw [getElem?_old (by omega)] at ha
    rw [getElem?_old hn] at hb
    exact Or.inl ⟨hmn, a, b, ha, hb, hs⟩
  · rw [getElem?_old (by omega)] at ha
    rw [getElem?_old hn] at hb
    exact Or.inr ⟨a, b, p, r, ha, hput, hb, hop, hid⟩

omit [DecidableEq K] in
/-- Causality among old transactions is what it was. -/
theorem hb_old (hlt : ∀ m n, (execution (h ++ [t])).Base m n → m < n) {m n : Nat}
    (hn : n < h.length) (hb : (execution (h ++ [t])).hb m n) : (execution h).hb m n := by
  induction hb with
  | single hbase => exact .single (base_old hn (hlt _ _ hbase) hbase)
  | tail _ hbase ih =>
      have hbn := hlt _ _ hbase
      exact (ih (by omega)).tail (base_old hn hbn hbase)

omit [DecidableEq K] in
theorem write_old {n : Nat} {x : K} (hn : n < h.length)
    (hw : (execution (h ++ [t])).write n x) : (execution h).write n x := by
  obtain ⟨tx, htx, hput, hkey⟩ := hw
  rw [getElem?_old hn] at htx
  exact ⟨tx, htx, hput, hkey⟩

omit [DecidableEq K] in
theorem read_old {n : Nat} {x : K} (hn : n < h.length)
    (hr : (execution (h ++ [t])).read n x) : (execution h).read n x := by
  obtain ⟨tx, htx, hput, hkey⟩ := hr
  rw [getElem?_old hn] at htx
  exact ⟨tx, htx, hput, hkey⟩

theorem versionAt_old {n : Nat} {x : K} (hn : n ≤ h.length) :
    versionAt (h ++ [t]) x n = versionAt h x n := by
  unfold versionAt
  rw [ListOrder.take_concat hn]

/-- **One more transaction** keeps `ReadsCover` if it respects it itself. -/
theorem readsCover_concat (hlt : ∀ m n, (execution (h ++ [t])).Base m n → m < n)
    (hold : ReadsCover h)
    (hnew : ∀ m i x, (execution (h ++ [t])).wr m h.length →
      (execution (h ++ [t])).read h.length x → (execution (h ++ [t])).write i x →
      (execution (h ++ [t])).hb i h.length →
      versionAt (h ++ [t]) x i ≤ versionAt (h ++ [t]) x m) : ReadsCover (h ++ [t]) := by
  intro m n i x hwr hread hwrite hb
  have hn : n ≤ h.length := by
    obtain ⟨tx, htx, -⟩ := hread
    have := (List.getElem?_eq_some_iff.mp htx).1
    rw [List.length_append, List.length_singleton] at this
    omega
  rcases Nat.lt_or_eq_of_le hn with hlt' | rfl
  · have hmn := hlt m n (Or.inr hwr)
    have hin := Execution.hb_lt hlt hb
    have hwr' : (execution h).wr m n := by
      obtain ⟨a, b, p, r, ha, hput, hb', hop, hid⟩ := hwr
      rw [getElem?_old (by omega)] at ha
      rw [getElem?_old hlt'] at hb'
      exact ⟨a, b, p, r, ha, hput, hb', hop, hid⟩
    rw [versionAt_old (by omega), versionAt_old (by omega)]
    exact hold m n i x hwr' (read_old hlt' hread) (write_old (by omega) hwrite)
      (hb_old hlt hlt' hb)
  · exact hnew m i x hwr hread hwrite hb

end Concat

namespace WellFormed

variable {σ : KvStore K V} {tx : Transaction K V} {key : K}

/-- A PUT reads nothing. -/
theorem readsCover_putLocked (h : WellFormed σ) (hfresh : tx.txId ∉ σ.history.map (·.txId))
    (v : V) (hold : ReadsCover σ.history) : ReadsCover (σ.putLocked tx key v).history := by
  have hwf' : WellFormed (σ.putLocked tx key v) := h.putLocked hfresh v
  refine readsCover_concat hwf'.base_lt hold ?_
  intro m i x _ hread
  obtain ⟨t, ht, hput, -⟩ := hread
  rw [List.getElem?_concat_length] at ht
  rw [← Option.some.inj ht] at hput
  exact absurd hput (by simp)

/-- **A GET from a covered state** respects every PUT in its causal past: those reached
through its session are covered, those reached through the PUT it reads are older. -/
theorem readsCover_afterGet (h : WellFormed σ) (hfresh : tx.txId ∉ σ.history.map (·.txId))
    {i : Nat} {c : V × Nat} (ha : Allowed σ tx.sessionId key i c)
    (hcov : Covered σ.history tx.sessionId key) (hold : ReadsCover σ.history) :
    ReadsCover (σ.afterGet tx key i c).history := by
  have hwf' := h.afterGet hfresh ha.1
  have hlt := hwf'.base_lt
  rw [KvStore.afterGet_history] at hlt ⊢
  refine readsCover_concat hlt hold ?_
  intro m i' x hwr hread hwrite hb
  -- the read's key and number
  obtain ⟨b, p, r, hb', hop, hmn, hwm, hver⟩ := hwf'.wr_spec hwr
  rw [KvStore.afterGet_history, List.getElem?_concat_length] at hb'
  have hbt : b = tx.setResponse key (chosen key i c) := (Option.some.inj hb').symm
  subst hbt
  rw [Transaction.setResponse_op] at hop
  obtain ⟨hp, hr⟩ := Operation.get.inj hop
  have hrc : chosen key i c = r := Option.some.inj hr
  subst hp; subst hrc
  have hx : key = x := by
    obtain ⟨t, ht, -, hkey⟩ := hread
    rw [List.getElem?_concat_length] at ht
    rw [← Option.some.inj ht] at hkey
    exact hkey
  subst hx
  have hver' : versionAt (σ.afterGet tx key i c).history key m = i + 1 := hver.symm
  rw [KvStore.afterGet_history] at hver'
  rw [hver']
  obtain ⟨c', hbase, hpast⟩ := Execution.hb_last hb
  have hc'lt := hlt _ _ hbase
  have hi'lt : i' < σ.history.length := by
    rcases hpast with rfl | hpast
    · exact hc'lt
    · exact Nat.lt_trans (Execution.hb_lt hlt hpast) hc'lt
  rcases hbase with hso | hwr'
  · -- through the session: the state was covered
    obtain ⟨-, a, t, ha', ht, hs⟩ := hso
    rw [getElem?_old hc'lt] at ha'
    rw [List.getElem?_concat_length] at ht
    rw [← Option.some.inj ht, Transaction.setResponse_sessionId] at hs
    have hin : InPast σ.history tx.sessionId i' :=
      ⟨c', a, ha', hs, hpast.imp id (fun hb => hb_old hlt hc'lt hb)⟩
    rw [versionAt_old (Nat.le_of_lt hi'lt)]
    have hle := hcov i' (write_old hi'lt hwrite) hin
    have := ha.2.1
    omega
  · -- through the PUT it reads: that is the newest of them
    obtain ⟨_, _, _, hb₂, hop₂, _, hwc, hver₂⟩ := hwf'.wr_spec hwr'
    rw [KvStore.afterGet_history, List.getElem?_concat_length] at hb₂
    rw [← Option.some.inj hb₂, Transaction.setResponse_op] at hop₂
    obtain ⟨hp₂, hr₂⟩ := Operation.get.inj hop₂
    have hr₂' := Option.some.inj hr₂
    subst hp₂; subst hr₂'
    have hverc : i + 1 = versionAt (σ.afterGet tx key i c).history key c' := hver₂
    rw [hverc]
    rcases hpast with rfl | hpast
    · exact Nat.le_refl _
    · exact Nat.le_of_lt (versionAt_lt hwrite (Execution.hb_lt hlt hpast))

/-- Covered reads make the order of execution a commit order. -/
theorem commitOrder_of_readsCover (h : WellFormed σ) (hcov : ReadsCover σ.history) :
    (execution σ.history).CommitOrder (· < ·) := by
  refine Execution.CommitOrder.of_record h.base_lt ?_
  intro r x w w' hread hwr hwrite hb
  have hle := hcov w r w' x hwr hread hwrite hb
  obtain ⟨b, p, _, hn, hop, _, hww, _⟩ := h.wr_spec hwr
  have hx : p.key = x := by
    obtain ⟨t, ht, -, hkey⟩ := hread
    rw [hn] at ht
    rw [← Option.some.inj ht, hop] at hkey
    exact hkey
  have := le_of_versionAt_le (hx ▸ hww) hle
  rcases Nat.lt_or_eq_of_le this with hlt | heq
  · exact Or.inr hlt
  · exact Or.inl heq

end WellFormed

/-! ## Covered runs -/

/-- A session that has seen the newest version of a key is covered, whatever its past. -/
theorem covered_of_length {h : List (Transaction K V)} {s : Int} {x : K}
    (hseen : (versionsOf x h).length ≤ max 1 (sessionFloor h s x)) : Covered h s x := by
  intro i hwrite _
  obtain ⟨c, _, _, _, _, _, hc⟩ := write_version hwrite
  have hlt := (List.getElem?_eq_some_iff.mp hc).1
  omega

theorem readsCover_act {w : World K V} (hok : WorldOk w) (h : ReadsCover w.store.history)
    {a : Act K V} (ha : StepCovered w a) : ReadsCover (w.act a).store.history := by
  rcases act_cases hok a with hstore | ⟨txId, draws, tx, rfl, hf, hfresh, hstore⟩
  · rw [hstore]; exact h
  · rw [hstore]
    rcases hok.store.enter_cases tx draws with
      ⟨p, r, -, heq⟩ | heq | ⟨p, r, i, c, hop, hal, heq⟩
    · rw [heq]; exact hok.store.readsCover_putLocked hfresh p.value h
    · rw [heq]; exact h
    · rw [heq]; exact hok.store.readsCover_afterGet hfresh hal (ha tx hf p r hop) h

theorem readsCover_run (acts : List (Act K V)) {w : World K V} (hok : WorldOk w)
    (h : ReadsCover w.store.history) (hacts : RunCovered w acts) :
    ReadsCover (w.run acts).store.history := by
  induction acts generalizing w with
  | nil => exact h
  | cons a acts ih => exact ih (worldOk_act hok a) (readsCover_act hok h hacts.1) hacts.2

/-! ## A state that is not covered -/

omit [DecidableEq K] in
/-- Causality survives an append. -/
theorem hb_append {h : List (Transaction K V)} (t : Transaction K V) {m n : Nat}
    (hb : (execution h).hb m n) : (execution (h ++ [t])).hb m n := by
  have hkeep : ∀ {k : Nat} {a : Transaction K V}, h[k]? = some a → (h ++ [t])[k]? = some a := by
    intro k a hk
    rw [getElem?_old (List.getElem?_eq_some_iff.mp hk).1]
    exact hk
  have hbase : ∀ {a b : Nat}, (execution h).Base a b → (execution (h ++ [t])).Base a b := by
    rintro a b (⟨hlt, x, y, hx, hy, hs⟩ | ⟨x, y, p, r, hx, hput, hy, hop, hid⟩)
    · exact Or.inl ⟨hlt, x, y, hkeep hx, hkeep hy, hs⟩
    · exact Or.inr ⟨x, y, p, r, hkeep hx, hput, hkeep hy, hop, hid⟩
  induction hb with
  | single h1 => exact .single (hbase h1)
  | tail _ h1 ih => exact ih.tail (hbase h1)

omit [DecidableEq K] in
/-- Two GETs that end a history disagree with every order of the PUTs when the first passed
over a PUT in its past and the second returned it. -/
theorem not_causallyConsistent_two_gets {h : List (Transaction K V)} {s : Int} {x : K}
    {i m : Nat} {ti tm a b : Transaction K V} {ra rb : GetResponse K V}
    (hne : i ≠ m) (hin : InPast h s i)
    (hti : h[i]? = some ti) (hputi : ti.op.isPut = true) (hkeyi : ti.op.key = x)
    (htm : h[m]? = some tm) (hputm : tm.op.isPut = true) (hkeym : tm.op.key = x)
    (ha : a.op = .get ⟨x⟩ (some ra)) (hb : b.op = .get ⟨x⟩ (some rb))
    (hsa : a.sessionId = s) (hsb : b.sessionId = s)
    (hra : ra.writtenByTxId = tm.txId) (hrb : rb.writtenByTxId = ti.txId) :
    ¬ (execution ((h ++ [a]) ++ [b])).CausallyConsistent := by
  obtain ⟨j, tj, hj, hsj, hij⟩ := hin
  have hkeep : ∀ {n : Nat} {t : Transaction K V}, h[n]? = some t →
      ((h ++ [a]) ++ [b])[n]? = some t := by
    intro n t hn
    have hlt := (List.getElem?_eq_some_iff.mp hn).1
    rw [getElem?_old (by rw [List.length_append]; omega), getElem?_old hlt]
    exact hn
  have ha' : ((h ++ [a]) ++ [b])[h.length]? = some a := by
    rw [getElem?_old (by rw [List.length_append, List.length_singleton]; omega),
      List.getElem?_concat_length]
  have hb' : ((h ++ [a]) ++ [b])[h.length + 1]? = some b := by
    rw [show h.length + 1 = (h ++ [a]).length by rw [List.length_append]; rfl,
      List.getElem?_concat_length]
  have hwra : (execution ((h ++ [a]) ++ [b])).wr m h.length :=
    ⟨tm, a, _, ra, hkeep htm, hputm, ha', ha, hra⟩
  have hwrb : (execution ((h ++ [a]) ++ [b])).wr i (h.length + 1) :=
    ⟨ti, b, _, rb, hkeep hti, hputi, hb', hb, hrb⟩
  -- `i` is before the first GET through the session, `m` before the second through the first
  have hpast : (execution ((h ++ [a]) ++ [b])).hb i h.length := by
    have hso : (execution ((h ++ [a]) ++ [b])).so j h.length :=
      ⟨(List.getElem?_eq_some_iff.mp hj).1, tj, a, hkeep hj, ha', by rw [hsj, hsa]⟩
    rcases hij with rfl | hb
    · exact Execution.hb_so hso
    · exact Execution.hb_trans (hb_append _ (hb_append _ hb)) (Execution.hb_so hso)
  have hpast' : (execution ((h ++ [a]) ++ [b])).hb m (h.length + 1) :=
    Execution.hb_trans (Execution.hb_wr hwra)
      (Execution.hb_so ⟨Nat.lt_succ_self _, a, b, ha', hb', by rw [hsa, hsb]⟩)
  exact Execution.not_causallyConsistent (x := x) hne ⟨tm, hkeep htm, hputm, hkeym⟩
    ⟨ti, hkeep hti, hputi, hkeyi⟩ ⟨a, ha', by rw [ha]; rfl, by rw [ha]; rfl⟩ hwra hpast
    ⟨b, hb', by rw [hb]; rfl, by rw [hb]; rfl⟩ hwrb hpast'

/-- **From a state that is not covered** two GETs of the key can break causal consistency:
the first returns an older version than one in its past, the second returns that one. -/
theorem not_causallyConsistent_of_not_covered {w : World K V} (hr : Reachable w)
    (hw : w.store.readSelector = .causal) {s : Int} {x : K}
    (hncov : ¬ Covered w.store.history s x) :
    ∃ draws draws', ¬ (execution
      ((w._get x s draws).2._get x s draws').2.store.history).CausallyConsistent := by
  unfold Covered at hncov
  push Not at hncov
  obtain ⟨i, hwrite, hin, hgap⟩ := hncov
  obtain ⟨c', ti, _, hti, _, htid, hc'⟩ := write_version hwrite
  have hweak : w.store.readSelector.isWeak = true := by rw [hw]; rfl
  -- the first GET takes the oldest version the session may still read
  obtain ⟨n, hn⟩ : ∃ n, n = max 1 (sessionFloor w.store.history s x) - 1 := ⟨_, rfl⟩
  have hlen := (List.getElem?_eq_some_iff.mp hc').1
  obtain ⟨c, hc⟩ : ∃ c, (versionsOf x w.store.history)[n]? = some c :=
    ⟨_, List.getElem?_eq_getElem (by omega)⟩
  obtain ⟨m, tm, hm, htm, hputm, hwm, hvm⟩ := version_write hc
  obtain ⟨draws, -, h1⟩ := World._get_pick hr (.of_weak (s := s) hweak hc (by omega))
  -- the second takes the version in the session's past
  have hweak1 : (w._get x s draws).2.store.readSelector.isWeak = true := by
    rw [h1, KvStore.afterGet_readSelector, hw]; rfl
  have hfloor1 : sessionFloor (w._get x s draws).2.store.history s x
      ≤ versionAt w.store.history x i - 1 + 1 := by
    rw [h1, KvStore.afterGet_history, WellFormed.sessionFloor_get, if_pos ⟨rfl, rfl⟩]
    omega
  have hc1 : (versionsOf x (w._get x s draws).2.store.history)[versionAt w.store.history x i - 1]?
      = some c' := by
    rw [h1, KvStore.afterGet_history, versionsOf_concat_get]
    exact hc'
  obtain ⟨draws', -, h2⟩ := World._get_pick (hr._get x s draws) (.of_weak hweak1 hc1 hfloor1)
  refine ⟨draws, draws', ?_⟩
  rw [h2, KvStore.afterGet_history, h1, KvStore.afterGet_history]
  obtain ⟨t, ht, hput, hkey⟩ := hwrite
  obtain ⟨t', ht', -, hkey'⟩ := hwm
  rw [hti] at ht
  rw [hm] at ht'
  obtain rfl := Option.some.inj ht
  obtain rfl := Option.some.inj ht'
  refine not_causallyConsistent_two_gets (s := s) ?_ hin hti hput hkey hm hputm hkey'
    (Transaction.setResponse_op ..) (Transaction.setResponse_op ..) rfl rfl htm.symm htid.symm
  intro him
  rw [← him] at hvm
  omega

/-! ## The causal store -/

theorem runCovered_take {w : World K V} {acts : List (Act K V)} (h : RunCovered w acts) (n : Nat) :
    RunCovered w (acts.take n) := by
  induction acts generalizing w n with
  | nil => rw [List.take_nil]; trivial
  | cons a acts ih =>
      cases n with
      | zero => trivial
      | succ n => exact ⟨h.1, ih h.2 n⟩

/-- **When the causal store is causally consistent.** In a run that makes its GETs from
covered states, every history reached is causally consistent, over all keys. And the
condition cannot be dropped: from any state reached that is not covered for a session and
a key, there are draws with which two GETs of that key leave a history that is not. -/
theorem causal_consistency :
    (∀ acts : List (Act K V), RunCovered (World.init .causal) acts → ∀ n,
        (execution ((World.init .causal).run (acts.take n)).store.history).CausallyConsistent)
      ∧ ∀ (acts : List (Act K V)) (s : Int) (x : K),
          ¬ Covered ((World.init .causal).run acts).store.history s x →
          ∃ draws draws', ¬ (execution ((((World.init .causal).run acts)._get x s draws).2._get
            x s draws').2.store.history).CausallyConsistent := by
  constructor
  · intro acts hcov n
    have hr : Reachable ((World.init .causal).run (acts.take n) : World K V) :=
      reachable_run (.init .causal) _
    have hreads := readsCover_run (acts.take n) (worldOk_reachable (.init .causal))
      (fun _ _ _ _ hwr => by obtain ⟨_, _, _, _, hm, _⟩ := hwr; cases hm)
      (runCovered_take hcov n)
    exact ⟨_, (wellFormed_reachable hr).commitOrder_of_readsCover hreads⟩
  · intro acts s x hncov
    refine not_causallyConsistent_of_not_covered (reachable_run (.init .causal) acts) ?_ hncov
    exact run_readSelector rfl acts (.init .causal) rfl

/-- Session 1 puts key `0`, session 2 reads it and puts key `1`, and session 3 reads that and then
key `0`. Then session 1 puts key `0` once more, and reads it. -/
def readThroughOtherKey : List (Act Nat Nat) :=
  [.create (.put 0 10) 1, .enter 1 zeroDraws, .create (.get 0) 2, .enter 2 zeroDraws,
    .create (.put 1 12) 2, .enter 3 zeroDraws, .create (.get 1) 3, .enter 4 zeroDraws,
    .create (.get 0) 3, .enter 5 zeroDraws, .create (.put 0 11) 1, .enter 6 zeroDraws,
    .create (.get 0) 1, .enter 7 zeroDraws]

/-- Session 1 puts key `0` twice and then key `1`. Session 2 gets key `1` and then key `0`,
where the first draw falls on the older version. -/
def staleThroughOtherKey : List (Act Nat Nat) :=
  [.create (.put 0 10) 1, .enter 1 zeroDraws, .create (.put 0 11) 1, .enter 2 zeroDraws,
    .create (.put 1 12) 1, .enter 3 zeroDraws, .create (.get 1) 2, .enter 4 zeroDraws,
    .create (.get 0) 2, .enter 5 zeroDraws]

theorem causal_consistency_both_ways :
    (execution
        ((World.init .causal).run (readThroughOtherKey.take 14)).store.history).CausallyConsistent
      ∧ ∃ draws draws', ¬ (execution
        ((((World.init .causal).run (staleThroughOtherKey.take 8))._get 0 2 draws).2._get 0 2
          draws').2.store.history).CausallyConsistent := by
  constructor
  · refine causal_consistency.1 readThroughOtherKey ⟨trivial, ?_, trivial, ?_, trivial, ?_,
      trivial, ?_, trivial, ?_, trivial, ?_, trivial, ?_, trivial⟩ 14
    all_goals
      intro tx htx p r hop
      obtain rfl := Option.some.inj htx
      cases hop
    -- the GETs are left, each of a key whose newest version its session has seen
    all_goals exact covered_of_length (by decide)
  · refine causal_consistency.2 (staleThroughOtherKey.take 8) 2 0 ?_
    intro hcov
    -- the second PUT on `0` is before the PUT on `1` that session 2 has read
    have hwr : (execution ((World.init .causal).run (staleThroughOtherKey.take 8)).store.history).wr
        2 3 := ⟨_, _, _, _, rfl, rfl, rfl, rfl, rfl⟩
    have hso : (execution ((World.init .causal).run (staleThroughOtherKey.take 8)).store.history).so
        1 2 := ⟨by decide, _, _, rfl, rfl, rfl⟩
    have hle := hcov 1 ⟨_, rfl, rfl, rfl⟩
      ⟨3, _, rfl, rfl, Or.inr (Execution.hb_trans (Execution.hb_so hso) (Execution.hb_wr hwr))⟩
    exact absurd hle (by decide)

theorem causal_consistency_violated :
    ¬ ∀ acts : List (Act Nat Nat),
      (execution ((World.init .causal).run acts).store.history).CausallyConsistent := by
  intro hall
  have hso : (execution ((World.init .causal).run staleThroughOtherKey).store.history).so 1 2 :=
    ⟨by decide, _, _, rfl, rfl, rfl⟩
  have hwr : (execution ((World.init .causal).run staleThroughOtherKey).store.history).wr 2 3 :=
    ⟨_, _, _, _, rfl, rfl, rfl, rfl, rfl⟩
  refine absurd (hall staleThroughOtherKey) ?_
  refine Execution.not_causallyConsistent_of_overwritten 0 0 1 4
    ⟨_, rfl, rfl, rfl⟩ ⟨_, rfl, rfl, rfl⟩ ⟨_, rfl, rfl, rfl⟩ ⟨_, _, _, _, rfl, rfl, rfl, rfl, rfl⟩
    (Execution.hb_so ⟨by decide, _, _, rfl, rfl, rfl⟩) ?_
  exact Execution.hb_trans (Execution.hb_so hso) (Execution.hb_trans (Execution.hb_wr hwr)
    (Execution.hb_so ⟨by decide, _, _, rfl, rfl, rfl⟩))

end MockDB
