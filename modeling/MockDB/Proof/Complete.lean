import MockDB.Proof.HistoryExecution
import MockDB.Proof.Hierarchy

/-!
# No causally allowed behaviour is missed

A plan lists calls in the order they execute, and a reads-from assignment names the PUT
each GET is to return. If the planned execution is causally consistent in that order,
the causal store can be made to carry it out: every version its session touched belongs
to a PUT in the causal past of the GET, so the floor is no higher than the PUT planned.
-/

namespace MockDB

open Causal

variable {K V : Type} [DecidableEq K]

omit [DecidableEq K] in
/-- The execution that a plan and a reads-from assignment describe. -/
def planned (plan : List (Call K V × Int)) (rf : Nat → Nat) : Execution Nat K where
  write n x := ∃ v s, plan[n]? = some (.put x v, s)
  read n x := ∃ s, plan[n]? = some (.get x, s)
  so m n := m < n ∧ ∃ c c' s, plan[m]? = some (c, s) ∧ plan[n]? = some (c', s)
  wr m n := m = rf n ∧ ∃ x s, plan[n]? = some (.get x, s)

omit [DecidableEq K] in
/-- Each GET is assigned a PUT of its key that comes before it. -/
def ReadsEarlierPut (plan : List (Call K V × Int)) (rf : Nat → Nat) : Prop :=
  ∀ n x s, plan[n]? = some (.get x, s) → rf n < n ∧ (planned plan rf).write (rf n) x

omit [DecidableEq K] in
/-- The history `h` and the responses `rs` are those of the first `n` calls of the plan. -/
structure Realises (plan : List (Call K V × Int)) (rf : Nat → Nat) (n : Nat)
    (h : List (Transaction K V)) (rs : List (Response K V)) : Prop where
  length : h.length = n
  answers : rs.length = n
  /-- The planned PUTs were made. -/
  puts : ∀ m < n, ∀ x v s, plan[m]? = some (.put x v, s) →
    ∃ tx, h[m]? = some tx ∧ tx.sessionId = s ∧ tx.op = .put ⟨x, v⟩ (some ⟨true⟩)
  /-- The planned GETs were made, and each was given the PUT assigned to it. -/
  gets : ∀ m < n, ∀ x s, plan[m]? = some (.get x, s) →
    ∃ tx r w v s', h[m]? = some tx ∧ tx.sessionId = s ∧ tx.op = .get ⟨x⟩ (some r)
      ∧ plan[rf m]? = some (.put x v, s') ∧ h[rf m]? = some w ∧ r.writtenByTxId = w.txId
      ∧ r.value = v ∧ rs[m]? = some (.got v r.versionNumber)

/-! ## Sequences of calls -/

theorem execAll_concat (calls : List (Call K V × Int × Draws)) (w : World K V)
    (call : Call K V) (s : Int) (draws : Draws) :
    w.execAll (calls ++ [(call, s, draws)])
      = ((w.execAll calls).1 ++ [((w.execAll calls).2.exec call s draws).1],
          ((w.execAll calls).2.exec call s draws).2) := by
  induction calls generalizing w with
  | nil => rfl
  | cons c calls ih =>
      obtain ⟨call', s', draws'⟩ := c
      simp only [List.cons_append, World.execAll, ih]

theorem Reachable.execAll {w : World K V} (h : Reachable w)
    (calls : List (Call K V × Int × Draws)) : Reachable (w.execAll calls).2 := by
  induction calls generalizing w with
  | nil => exact h
  | cons c calls ih => exact ih (h.exec c.1 c.2.1 c.2.2)

/-! ## Following a plan -/

section Plan

variable {plan : List (Call K V × Int)} {rf : Nat → Nat} {n : Nat}
  {h : List (Transaction K V)} {rs : List (Response K V)}

omit [DecidableEq K] in
/-- What the history records was planned, transaction by transaction. -/
theorem Realises.planned_of (hre : Realises plan rf n h rs) (hn : n ≤ plan.length) {m : Nat}
    {tx : Transaction K V} (hm : h[m]? = some tx) :
    (∃ x v, plan[m]? = some (.put x v, tx.sessionId) ∧ tx.op = .put ⟨x, v⟩ (some ⟨true⟩))
      ∨ ∃ x r w, plan[m]? = some (.get x, tx.sessionId) ∧ tx.op = .get ⟨x⟩ (some r)
          ∧ h[rf m]? = some w ∧ r.writtenByTxId = w.txId := by
  have hmn : m < n := hre.length ▸ (List.getElem?_eq_some_iff.mp hm).1
  obtain ⟨⟨call, s⟩, hcall⟩ : ∃ c, plan[m]? = some c :=
    ⟨_, List.getElem?_eq_getElem (Nat.lt_of_lt_of_le hmn hn)⟩
  cases call with
  | put x v =>
      obtain ⟨tx', hm', hs, hop⟩ := hre.puts m hmn x v s hcall
      rw [hm] at hm'
      obtain rfl := Option.some.inj hm'
      exact Or.inl ⟨x, v, hs ▸ hcall, hop⟩
  | get x =>
      obtain ⟨tx', r, w, _, _, hm', hs, hop, -, hw, hid, -⟩ := hre.gets m hmn x s hcall
      rw [hm] at hm'
      obtain rfl := Option.some.inj hm'
      exact Or.inr ⟨x, r, w, hs ▸ hcall, hop, hw, hid⟩

omit [DecidableEq K] in
theorem Realises.write (hre : Realises plan rf n h rs) (hn : n ≤ plan.length) {m : Nat} {x : K}
    (hw : (execution h).write m x) : (planned plan rf).write m x := by
  obtain ⟨tx, hm, hput, hkey⟩ := hw
  rcases hre.planned_of hn hm with ⟨y, v, hplan, hop⟩ | ⟨_, _, _, -, hop, -⟩
  · rw [hop] at hkey
    exact ⟨v, tx.sessionId, by rw [← hkey]; exact hplan⟩
  · rw [hop] at hput
    exact absurd hput (by simp)

/-- A planned PUT on `x` is a write of the history, with its value and a version number. -/
theorem Realises.version (hre : Realises plan rf n h rs) {m : Nat} (hm : m < n) {x : K} {v : V}
    {s : Int} (hplan : plan[m]? = some (.put x v, s)) :
    ∃ w, h[m]? = some w ∧ (versionsOf x h)[versionAt h x m - 1]? = some (v, w.txId) := by
  obtain ⟨tx, htx, -, hop⟩ := hre.puts m hm x v s hplan
  have hw : (execution h).write m x := ⟨tx, htx, by rw [hop]; rfl, by rw [hop]; rfl⟩
  obtain ⟨c, tx', r, htx', hop', hid, hc⟩ := write_version hw
  rw [htx] at htx'
  obtain rfl := Option.some.inj htx'
  rw [hop] at hop'
  have hv : v = c.1 := congrArg PutParam.value (Operation.put.inj hop').1
  refine ⟨tx, htx, ?_⟩
  rw [hc, hv, hid]

/-- **The PUT assigned to a GET is above the floor**: whatever the session touched is in the
causal past of the GET, so the plan orders it no later than the PUT assigned. -/
theorem sessionFloor_le_planned {σ : KvStore K V} (hwf : WellFormed σ)
    (hre : Realises plan rf n σ.history rs) (hcc : (planned plan rf).Explains (· < ·))
    {x : K} {s : Int} (hget : plan[n]? = some (.get x, s)) :
    sessionFloor σ.history s x ≤ versionAt σ.history x (rf n) := by
  have hn : n ≤ plan.length := Nat.le_of_lt (List.getElem?_eq_some_iff.mp hget).1
  rw [sessionFloor_le]
  intro tx htx hs
  obtain ⟨q, hq⟩ := List.mem_iff_getElem?.mp htx
  rcases hwf.touched_write x hq with h0 | ⟨w, hwrite, hver, hfrom⟩
  · omega
  have hqn : q < n := hre.length ▸ (List.getElem?_eq_some_iff.mp hq).1
  have hso : (planned plan rf).so q n := by
    rcases hre.planned_of hn hq with ⟨y, v, hplan, -⟩ | ⟨y, r, w', hplan, -⟩
    · exact ⟨hqn, _, _, s, hs ▸ hplan, hget⟩
    · exact ⟨hqn, _, _, s, hs ▸ hplan, hget⟩
  -- the version touched is in the GET's past
  have hpast : (planned plan rf).hb w n := by
    rcases hfrom with rfl | ⟨a, b, p, r, ha, -, hb, hop, hid⟩
    · exact Execution.hb_so hso
    · rw [hq] at hb
      obtain rfl := Option.some.inj hb
      rcases hre.planned_of hn hq with ⟨y, v, -, hop'⟩ | ⟨y, r', w', hplan, hop', hw', hid'⟩
      · rw [hop'] at hop; cases hop
      · rw [hop'] at hop
        obtain rfl := Option.some.inj (Operation.get.inj hop).2
        have hwq : w = rf q := hwf.position_unique ha hw' (by rw [← hid, hid'])
        exact Execution.hb_trans (Execution.hb_wr ⟨hwq, y, _, hplan⟩) (Execution.hb_so hso)
  rw [← hver]
  rcases hcc n x (rf n) w ⟨s, hget⟩ ⟨rfl, x, s, hget⟩ (hre.write hn hwrite) hpast with
    rfl | hlt
  · exact Nat.le_refl _
  · exact Nat.le_of_lt (versionAt_lt hwrite hlt)

omit [DecidableEq K] in
/-- One more call carried out as planned. -/
theorem Realises.concat (hre : Realises plan rf n h rs) (hrf : ReadsEarlierPut plan rf)
    (tx : Transaction K V) (r : Response K V)
    (hput : ∀ x v s, plan[n]? = some (.put x v, s) →
      tx.sessionId = s ∧ tx.op = .put ⟨x, v⟩ (some ⟨true⟩))
    (hget : ∀ x s, plan[n]? = some (.get x, s) → ∃ g w v s', tx.sessionId = s
      ∧ tx.op = .get ⟨x⟩ (some g) ∧ plan[rf n]? = some (.put x v, s') ∧ h[rf n]? = some w
      ∧ g.writtenByTxId = w.txId ∧ g.value = v ∧ r = .got v g.versionNumber) :
    Realises plan rf (n + 1) (h ++ [tx]) (rs ++ [r]) where
  length := by rw [List.length_append, hre.length]; rfl
  answers := by rw [List.length_append, hre.answers]; rfl
  puts := by
    intro m hm x v s hplan
    rcases Nat.lt_succ_iff_lt_or_eq.mp hm with hlt | rfl
    · obtain ⟨t, ht, hs, hop⟩ := hre.puts m hlt x v s hplan
      exact ⟨t, by rw [List.getElem?_append_left (hre.length ▸ hlt)]; exact ht, hs, hop⟩
    · obtain ⟨hs, hop⟩ := hput x v s hplan
      exact ⟨tx, by rw [← hre.length, List.getElem?_concat_length], hs, hop⟩
  gets := by
    intro m hm x s hplan
    rcases Nat.lt_succ_iff_lt_or_eq.mp hm with hlt | rfl
    · have hlt' := Nat.lt_trans (hrf m x s hplan).1 hlt
      obtain ⟨t, g, w, v, s', ht, hs, hop, hsrc, hw, hid, hv, hr⟩ := hre.gets m hlt x s hplan
      refine ⟨t, g, w, v, s', ?_, hs, hop, hsrc, ?_, hid, hv, ?_⟩
      · rw [List.getElem?_append_left (hre.length ▸ hlt)]; exact ht
      · rw [List.getElem?_append_left (hre.length ▸ hlt')]; exact hw
      · rw [List.getElem?_append_left (hre.answers ▸ hlt)]; exact hr
    · obtain ⟨g, w, v, s', hs, hop, hsrc, hw, hid, hv, hr⟩ := hget x s hplan
      have hlt := (hrf m x s hplan).1
      refine ⟨tx, g, w, v, s', ?_, hs, hop, hsrc, ?_, hid, hv, ?_⟩
      · rw [← hre.length, List.getElem?_concat_length]
      · rw [List.getElem?_append_left (hre.length ▸ hlt)]; exact hw
      · rw [← hre.answers, List.getElem?_concat_length, hr]

end Plan

/-- A prefix of the plan can be carried out. -/
theorem realises_take {plan : List (Call K V × Int)} {rf : Nat → Nat}
    (hrf : ReadsEarlierPut plan rf) (hcc : (planned plan rf).Explains (· < ·)) :
    ∀ n ≤ plan.length, ∃ calls, callsOf calls = plan.take n
      ∧ ((World.init .causal).execAll calls).2.store.readSelector = .causal
      ∧ Realises plan rf n ((World.init .causal).execAll calls).2.store.history
          ((World.init .causal).execAll calls).1 := by
  intro n
  induction n with
  | zero =>
      intro _
      refine ⟨[], by simp [callsOf], rfl, rfl, rfl, ?_, ?_⟩
      · intro m hm; omega
      · intro m hm; omega
  | succ n ih =>
      intro hn
      obtain ⟨calls, hcalls, hsel, hre⟩ := ih (by omega)
      have hreach : Reachable ((World.init .causal : World K V).execAll calls).2 :=
        (Reachable.init .causal).execAll calls
      obtain ⟨⟨call, s⟩, hcall⟩ : ∃ c, plan[n]? = some c :=
        ⟨_, List.getElem?_eq_getElem (by omega)⟩
      have htake : ∀ draws : Draws,
          callsOf (calls ++ [(call, s, draws)]) = plan.take (n + 1) := by
        intro draws
        rw [List.take_add_one, hcall, ← hcalls]
        simp [callsOf]
      generalize hw : ((World.init .causal : World K V).execAll calls).2 = w at *
      generalize hrs : ((World.init .causal : World K V).execAll calls).1 = rs at *
      cases call with
      | put x v =>
          refine ⟨calls ++ [(.put x v, s, zeroDraws)], htake _, ?_⟩
          rw [execAll_concat, hw, hrs]
          refine ⟨hsel, hre.concat hrf
            ((w.newTransaction (.put ⟨x, v⟩ none) s).1.setPutResponse x v) _ ?_ ?_⟩
          · intro y v' s' hplan
            rw [hcall] at hplan
            cases hplan
            exact ⟨rfl, rfl⟩
          · intro y s' hplan
            rw [hcall] at hplan
            cases hplan
      | get x =>
          obtain ⟨hlt, v, s₀, hsrc⟩ := hrf n x s hcall
          obtain ⟨t, ht, hc⟩ := hre.version hlt hsrc
          have hfloor := sessionFloor_le_planned (wellFormed_reachable hreach) hre hcc hcall
          obtain ⟨draws, hres, hstore⟩ := World._get_pick hreach
            (Allowed.of_weak (s := s) (by rw [hsel]; rfl) hc (by omega))
          refine ⟨calls ++ [(.get x, s, draws)], htake _, ?_⟩
          rw [execAll_concat, hw, hrs]
          show (w._get x s draws).2.store.readSelector = _ ∧ Realises _ _ _
            (w._get x s draws).2.store.history (rs ++ [.ofGet (w._get x s draws).1])
          rw [hstore, hres, KvStore.afterGet_readSelector, hsel]
          refine ⟨rfl, hre.concat hrf _ _ ?_ ?_⟩
          · intro y v' s' hplan
            rw [hcall] at hplan
            cases hplan
          · intro y s' hplan
            rw [hcall] at hplan
            cases hplan
            exact ⟨_, t, v, s₀, rfl, rfl, hsrc, ht, rfl, rfl, rfl⟩

/-- **No causally allowed behaviour is missed.** Any plan whose reads-from assignment is
causally consistent in the order of execution is carried out by the causal store under
some random draws: the history is the plan's, each GET reading from the PUT assigned to
it and returning that PUT's value. -/
theorem causal_complete (plan : List (Call K V × Int)) (rf : Nat → Nat)
    (hrf : ReadsEarlierPut plan rf) (hcc : (planned plan rf).Explains (· < ·)) :
    ∃ calls, callsOf calls = plan
      ∧ Realises plan rf plan.length ((World.init .causal).execAll calls).2.store.history
          ((World.init .causal).execAll calls).1 := by
  obtain ⟨calls, hcalls, -, hre⟩ := realises_take hrf hcc plan.length (Nat.le_refl _)
  rw [List.take_length] at hcalls
  exact ⟨calls, hcalls, hre⟩

/-- Two sessions put the same key and two read it: session 2 its own, newer PUT and session 3
the older one. -/
def concurrentPuts : List (Call Nat Nat × Int) :=
  [(.put 0 10, 1), (.put 0 11, 2), (.get 0, 2), (.get 0, 3)]

/-- The PUTs the two GETs of `concurrentPuts` read from. -/
def concurrentReads (n : Nat) : Nat := if n = 2 then 1 else 0

theorem causal_complete_concurrentPuts :
    ∃ calls, callsOf calls = concurrentPuts
      ∧ Realises concurrentPuts concurrentReads 4
          ((World.init .causal).execAll calls).2.store.history
          ((World.init .causal).execAll calls).1 := by
  have hlen : ∀ {n : Nat} {c : Call Nat Nat × Int}, concurrentPuts[n]? = some c →
      n = 0 ∨ n = 1 ∨ n = 2 ∨ n = 3 := by
    intro n c hn
    have : n < 4 := (List.getElem?_eq_some_iff.mp hn).1
    omega
  have hbase : ∀ a b, (planned concurrentPuts concurrentReads).Base a b →
      (a = 1 ∧ b = 2) ∨ (a = 0 ∧ b = 3) := by
    rintro a b (⟨hab, c, c', s, ha, hb⟩ | ⟨rfl, x, s, hb⟩)
    · rcases hlen ha with rfl | rfl | rfl | rfl <;> rcases hlen hb with rfl | rfl | rfl | rfl <;>
        (simp only [concurrentPuts, List.getElem?_cons_zero, List.getElem?_cons_succ,
          Option.some.injEq, Prod.mk.injEq] at ha hb
         omega)
    · rcases hlen hb with rfl | rfl | rfl | rfl <;> simp [concurrentPuts, concurrentReads] at hb ⊢
  refine causal_complete concurrentPuts concurrentReads ?_ ?_
  · intro n x s hn
    rcases hlen hn with rfl | rfl | rfl | rfl <;> cases hn
    · exact ⟨by decide, 11, 2, rfl⟩
    · exact ⟨by decide, 10, 1, rfl⟩
  · -- each GET has nothing in its past but the PUT it reads
    rintro r x w w' - ⟨rfl, -⟩ - hpast
    obtain ⟨c, hc, hpast'⟩ := Execution.hb_last hpast
    have hfirst : w' = c := by
      rcases hpast' with rfl | hpast'
      · rfl
      · obtain ⟨d, hd, -⟩ := Execution.hb_last hpast'
        have h1 := hbase _ _ hc
        have h2 := hbase _ _ hd
        omega
    rw [hfirst]
    rcases hbase _ _ hc with ⟨rfl, rfl⟩ | ⟨rfl, rfl⟩
    · exact Or.inl rfl
    · exact Or.inl rfl

end MockDB
