import MockDB.Applications.Threads
import MockDB.Proof.AppRun

/-!
# Threads under the mutex

`tx_start` and `tx_end` make operations atomic whatever the store's isolation: threads do
what their operations do one at a time, in the order in which they took the mutex. On a
linearizable store that order runs on a map, so each thread gets what a serial run gives.

Without them, and on a store of any selector, what an operation guarantees among others
still holds of all that threads are returned.
-/

namespace MockDB

open Mutex

namespace App

variable {Key α β : Type} {name : Key → String}

theorem returned_eq_some {p : App Key α} {a : α} : returned p = some a ↔ p = Program.ret a := by
  cases p <;> simp [returned]

/-- The steps of one operation to its end are a run of it. -/
theorem run_of_steps (ds : List Draws) {p q : App Key α} {w w' : World String Json} {a : α}
    (hsteps : (machine name).steps ds (p, w) = (q, w')) (hq : returned q = some a) :
    ∃ draws, run name p draws w = (.ok a, w') := by
  obtain rfl := returned_eq_some.mp hq
  induction ds generalizing p w with
  | nil =>
      obtain ⟨rfl, rfl⟩ := Prod.mk.inj hsteps
      exact ⟨fun _ => zeroDraws, rfl⟩
  | cons d ds ih =>
      obtain ⟨draws, hrun⟩ := ih hsteps
      cases p with
      | ret a => exact ⟨draws, hrun⟩
      | raise e => exact ⟨draws, hrun⟩
      | get key s next => exact ⟨fun n => if n = 0 then d else draws (n - 1), hrun⟩
      | put key v s next => exact ⟨draws, hrun⟩

/-- Several steps of an operation, run to the end, are the end of a run of it. -/
theorem run_steps (ds : List Draws) (p : App Key α) (w : World String Json)
    (draws : Nat → Draws) :
    ∃ draws', run name p draws' w
      = run name ((machine name).steps ds (p, w)).1 draws ((machine name).steps ds (p, w)).2 := by
  induction ds generalizing p w with
  | nil => exact ⟨draws, rfl⟩
  | cons d ds ih =>
      obtain ⟨draws', hrun⟩ := ih (advance name d w p).1 (advance name d w p).2
      cases p with
      | ret a => exact ⟨draws', hrun⟩
      | raise e => exact ⟨draws', hrun⟩
      | get key s next => exact ⟨fun n => if n = 0 then d else draws' (n - 1), hrun⟩
      | put key v s next => exact ⟨draws', hrun⟩

theorem runEach_append (w : World String Json) (ops ops' : List (App Key α × (Nat → Draws))) :
    runEach name w (ops ++ ops')
      = ((runEach name w ops).1 ++ (runEach name (runEach name w ops).2 ops').1,
        (runEach name (runEach name w ops).2 ops').2) := by
  induction ops generalizing w with
  | nil => rfl
  | cons op ops ih =>
      obtain ⟨p, draws⟩ := op
      simp only [List.cons_append, runEach, ih]

/-- A serial log of jobs is a serial run of the operations. -/
theorem runEach_of_serial {w w' : World String Json} {log : List (Entry (App Key α) α)}
    (h : Serial (machine name) w log w') :
    ∃ ops : List (App Key α × (Nat → Draws)), ops.map Prod.fst = log.map (·.job)
      ∧ runEach name w ops = (log.map fun e => .ok e.result, w') := by
  induction h with
  | nil => exact ⟨[], rfl, rfl⟩
  | @concat log s s' _ job work r party ds hsteps hresult ih =>
      obtain ⟨ops, hops, hrun⟩ := ih
      obtain ⟨draws, hlast⟩ := run_of_steps ds hsteps hresult
      refine ⟨ops ++ [(job, draws)], ?_, ?_⟩
      · rw [List.map_append, List.map_append, hops]
        rfl
      · rw [runEach_append, hrun, List.map_append]
        simp only [runEach, hlast, List.map_cons, List.map_nil]

theorem allInTx_locked (ops : Nat → List (App Key α)) (i : Nat) :
    ∀ job ∈ allInTx ops i, job.locked = true := by
  intro job hjob
  obtain ⟨p, -, rfl⟩ := List.mem_map.mp hjob
  rfl

theorem allInTx_work (ops : Nat → List (App Key α)) (i : Nat) :
    (allInTx ops i).map (·.work) = ops i := by
  unfold allInTx
  rw [List.map_map]
  exact List.map_id _

/--
**The mutex makes operations atomic**, on a store of any selector. If all threads stay between
`tx_start` and `tx_end`, any interleaving of theirs leaves the store where their operations lead,
run one at a time in an order that keeps that of each thread, and each thread has been
returned what its operations return there. If a thread is inside an operation, running it to
its end from here is running it as a whole after the others.
-/
theorem threads_serializable (name : Key → String) (w : World String Json)
    (ops : Nat → List (App Key α)) (turns : List (Nat × Draws)) :
    let pool := threads name w (allInTx ops) turns
    ∃ (log : List (Entry (App Key α) α)) (serial : List (App Key α × (Nat → Draws)))
        (under : Option (Nat × App Key α)) (w' : World String Json),
      serial.map Prod.fst = log.map (·.job)
        ∧ runEach name w serial = (log.map fun e => .ok e.result, w')
        ∧ (∀ i, (pool.parties i).results = (entriesOf log i).map (·.result))
        ∧ (∀ i, (entriesOf log i).map (·.job) ++ inHand under i
            ++ (pool.parties i).todo.map (·.work) = ops i)
        ∧ pool.holder = under.map Prod.fst
        ∧ (under = none → pool.shared = w')
        ∧ ∀ i p, under = some (i, p) → ∃ rest, (pool.parties i).current = some ⟨true, rest⟩
          ∧ ∀ draws, ∃ draws', run name p draws' w' = run name rest draws pool.shared := by
  intro pool
  obtain ⟨log, w', under, h⟩ := serialized_run (machine name) w (allInTx_locked ops) turns
  obtain ⟨serial, hserial, hrun⟩ := runEach_of_serial h.serial
  refine ⟨log, serial, under, w', hserial, hrun, h.results, fun i => ?_, h.holder, h.free, ?_⟩
  · exact (h.order i).trans (allInTx_work ops i)
  · intro i p hunder
    obtain ⟨ds, rest, hcurrent, hsteps⟩ := h.busy i p hunder
    refine ⟨rest, hcurrent, fun draws => ?_⟩
    obtain ⟨draws', hend⟩ := run_steps ds p w' draws
    rw [hsteps] at hend
    exact ⟨draws', hend⟩

/-- The operations of `log` have been run whole, one at a time from `w`, up to `pool`. -/
structure RunWhole (name : Key → String) (w : World String Json) (ops : Nat → List (App Key α))
    (pool : Pool (World String Json) (App Key α) α) (log : List (Entry (App Key α) α)) : Prop where
  /-- The store is where they lead. -/
  serial : ∃ serial : List (App Key α × (Nat → Draws)), serial.map Prod.fst = log.map (·.job)
    ∧ runEach name w serial = (log.map fun e => .ok e.result, pool.shared)
  /-- Each thread has been returned what its operations return there. -/
  results : ∀ i, (pool.parties i).results = (entriesOf log i).map (·.result)
  /-- They are all that threads have started, each in its own order. -/
  jobs : ∀ i, (entriesOf log i).map (·.job) ++ (pool.parties i).todo.map (·.work) = ops i

/-- While nobody holds the mutex no operation is half done. -/
theorem runWhole_of_free {w w' : World String Json} {ops : Nat → List (App Key α)}
    {pool : Pool (World String Json) (App Key α) α} {log : List (Entry (App Key α) α)}
    {under : Option (Nat × App Key α)}
    (hs : Serialized (machine name) w (allInTx ops) pool log w' under)
    (hfree : pool.holder = none) : RunWhole name w ops pool log := by
  obtain rfl : under = none := Option.map_eq_none_iff.mp (hs.holder.symm.trans hfree)
  refine ⟨?_, hs.results, fun i => ?_⟩
  · rw [hs.free rfl]
    exact runEach_of_serial hs.serial
  · have hall := (hs.order i).trans (allInTx_work ops i)
    rwa [show inHand (none : Option (Nat × App Key α)) i = [] from rfl, List.append_nil] at hall

/--
**The order of the operations is that of real time**, on a store of any selector. Whenever
nobody holds the mutex, the operations that threads have started have been run whole, one at a
time. They keep their places whatever the threads do later, so an operation that ended before
another one started comes before it.
-/
theorem threads_realTime (name : Key → String) (w : World String Json)
    (ops : Nat → List (App Key α)) {turns : List (Nat × Draws)}
    (hfree : (threads name w (allInTx ops) turns).holder = none) :
    ∃ log, RunWhole name w ops (threads name w (allInTx ops) turns) log
      ∧ ∀ later, (threads name w (allInTx ops) (turns ++ later)).holder = none →
        ∃ rest, RunWhole name w ops (threads name w (allInTx ops) (turns ++ later))
          (log ++ rest) := by
  obtain ⟨log, w', under, hs⟩ := serialized_run (machine name) w (allInTx_locked ops) turns
  refine ⟨log, runWhole_of_free hs hfree, fun later hfree' => ?_⟩
  obtain ⟨log', w'', under', ⟨rest, rfl⟩, hs'⟩ := hs.run later
  have hlater : threads name w (allInTx ops) (turns ++ later)
      = (threads name w (allInTx ops) turns).run (machine name) later := List.foldl_append
  rw [hlater] at hfree' ⊢
  exact ⟨rest, runWhole_of_free hs' hfree'⟩

/-- On a causal store, one thread has put before another one starts to get. -/
theorem threads_realTime_example :
    let ops : Nat → List (App Unit Bool)
      | 0 => [do put () (.bool true) 1; pure true]
      | 1 => [do let v ← get () 2; json v.asBool]
      | _ => []
    let pool := threads (fun _ => "key") (World.init .causal) (allInTx ops)
    let turns := [(0, zeroDraws), (0, zeroDraws), (0, zeroDraws)]
    ∃ log, RunWhole (fun _ => "key") (World.init .causal) ops (pool turns) log
      ∧ ∀ later, (pool (turns ++ later)).holder = none →
        ∃ rest, RunWhole (fun _ => "key") (World.init .causal) ops (pool (turns ++ later))
          (log ++ rest) :=
  threads_realTime _ _ _ rfl

/-! ## On a linearizable store -/

variable [DecidableEq Key]

/-- Operations one after another on a map. -/
def onMapEach (miss : Key → StoreException String) :
    List (App Key α) → (Key → Option Json) → List (Except AppException α) × (Key → Option Json)
  | [], m => ([], m)
  | p :: ops, m =>
      let (result, m) := p.onMap miss m
      let (results, m) := onMapEach miss ops m
      (result :: results, m)

/-- Operations that `C` holds of, with nothing in between, run on a map in a store that `I` holds
of, and `I` still holds of the store they leave. -/
def RunsOnMap (name : Key → String) (I : World String Json → Prop) (C : App Key α → Prop) : Prop :=
  ∀ p, C p → ∀ (draws : Nat → Draws) {w : World String Json}, I w →
    (run name p draws w).1 = (p.onMap (missing name) (contents name w)).1
      ∧ contents name (run name p draws w).2 = (p.onMap (missing name) (contents name w)).2
      ∧ I (run name p draws w).2

/-- On a linearizable store all of them do. -/
theorem runsOnMap_strong (hname : Function.Injective name) :
    RunsOnMap name Strong fun _ : App Key α => True :=
  fun p _ draws _ h => run_onMap hname p draws h

variable {I : World String Json → Prop} {C : App Key α → Prop}

theorem RunsOnMap.runEach (h : RunsOnMap name I C) (ops : List (App Key α × (Nat → Draws)))
    (hops : ∀ op ∈ ops, C op.1) {w : World String Json} (hw : I w) :
    (App.runEach name w ops).1
        = (onMapEach (missing name) (ops.map Prod.fst) (contents name w)).1
      ∧ contents name (App.runEach name w ops).2
        = (onMapEach (missing name) (ops.map Prod.fst) (contents name w)).2 := by
  induction ops generalizing w with
  | nil => exact ⟨rfl, rfl⟩
  | cons op ops ih =>
      obtain ⟨p, draws⟩ := op
      obtain ⟨hres, hcontents, hnext⟩ := h p (hops (p, draws) List.mem_cons_self) draws hw
      obtain ⟨hrest, hlast⟩ := ih (fun op hop => hops op (List.mem_cons_of_mem _ hop)) hnext
      rw [hcontents] at hrest hlast
      exact ⟨congrArg₂ List.cons hres hrest, hlast⟩

omit [DecidableEq Key] in
/-- The operations of a log are those of its threads. -/
theorem RunWhole.job_mem {w : World String Json} {ops : Nat → List (App Key α)}
    {pool : Pool (World String Json) (App Key α) α} {log : List (Entry (App Key α) α)}
    (h : RunWhole name w ops pool log) {e : Entry (App Key α) α} (he : e ∈ log) :
    e.job ∈ ops e.party := by
  have hown : e ∈ entriesOf log e.party := List.mem_filter.mpr ⟨he, by simp⟩
  rw [← h.jobs e.party]
  exact List.mem_append_left _ (List.mem_map.mpr ⟨e, hown, rfl⟩)

/-- Operations run whole are a run on a map. -/
theorem RunsOnMap.runWhole (h : RunsOnMap name I C) {w : World String Json} (hw : I w)
    {ops : Nat → List (App Key α)} (hops : ∀ i, ∀ p ∈ ops i, C p)
    {pool : Pool (World String Json) (App Key α) α} {log : List (Entry (App Key α) α)}
    (hwhole : RunWhole name w ops pool log) :
    onMapEach (missing name) (log.map (·.job)) (contents name w)
      = (log.map fun e => .ok e.result, contents name pool.shared) := by
  obtain ⟨serial, hjobs, hrun⟩ := hwhole.serial
  have hall : ∀ op ∈ serial, C op.1 := by
    intro op hop
    obtain ⟨e, he, heq⟩ := List.mem_map.mp (hjobs ▸ List.mem_map_of_mem hop)
    exact heq ▸ hops e.party e.job (hwhole.job_mem he)
  obtain ⟨hres, hcontents⟩ := h.runEach serial hall hw
  rw [hjobs, hrun] at hres hcontents
  exact Prod.ext hres.symm hcontents.symm

/-- Threads between `tx_start` and `tx_end` do so too. -/
theorem RunsOnMap.threads (h : RunsOnMap name I C) {w : World String Json} (hw : I w)
    {ops : Nat → List (App Key α)} (hops : ∀ i, ∀ p ∈ ops i, C p) (turns : List (Nat × Draws))
    (hfree : (App.threads name w (allInTx ops) turns).holder = none) :
    let pool := App.threads name w (allInTx ops) turns
    ∃ log : List (Entry (App Key α) α),
      onMapEach (missing name) (log.map (·.job)) (contents name w)
          = (log.map fun e => .ok e.result, contents name pool.shared)
        ∧ (∀ i, (pool.parties i).results = (entriesOf log i).map (·.result))
        ∧ ∀ i, (entriesOf log i).map (·.job) ++ (pool.parties i).todo.map (·.work) = ops i := by
  intro pool
  obtain ⟨log, w', under, hs⟩ := serialized_run (machine name) w (allInTx_locked ops) turns
  have hwhole := runWhole_of_free hs hfree
  exact ⟨log, h.runWhole hw hops hwhole, hwhole.results, hwhole.jobs⟩

/--
**On a linearizable store the threads run on a map.** When no thread is inside an operation,
the latest values are those that the operations leave on a map, one at a time in an order that
keeps that of each thread, and what each thread was returned is what they return there.
-/
theorem threads_onMap (hname : Function.Injective name) {w : World String Json} (h : Strong w)
    (ops : Nat → List (App Key α)) (turns : List (Nat × Draws))
    (hfree : (threads name w (allInTx ops) turns).holder = none) :
    let pool := threads name w (allInTx ops) turns
    ∃ log : List (Entry (App Key α) α),
      onMapEach (missing name) (log.map (·.job)) (contents name w)
          = (log.map fun e => .ok e.result, contents name pool.shared)
        ∧ (∀ i, (pool.parties i).results = (entriesOf log i).map (·.result))
        ∧ ∀ i, (entriesOf log i).map (·.job) ++ (pool.parties i).todo.map (·.work) = ops i :=
  (runsOnMap_strong hname).threads h (fun _ _ _ => trivial) turns hfree

/-- One thread puts and another one gets, the second after the first. -/
theorem threads_onMap_example :
    let ops : Nat → List (App Unit Bool)
      | 0 => [do put () (.bool true) 1; pure true]
      | 1 => [do let v ← get () 2; json v.asBool]
      | _ => []
    let turns := [(0, zeroDraws), (1, zeroDraws), (0, zeroDraws), (0, zeroDraws), (1, zeroDraws),
      (1, zeroDraws), (1, zeroDraws)]
    let pool := threads (fun _ => "key") (World.init .linearizable) (allInTx ops) turns
    ∃ log : List (Entry (App Unit Bool) Bool),
      onMapEach (missing fun _ => "key") (log.map (·.job))
          (contents (fun _ => "key") (World.init .linearizable))
          = (log.map fun e => .ok e.result, contents (fun _ => "key") pool.shared)
        ∧ (∀ i, (pool.parties i).results = (entriesOf log i).map (·.result))
        ∧ ∀ i, (entriesOf log i).map (·.job) ++ (pool.parties i).todo.map (·.work) = ops i :=
  threads_onMap (fun _ _ _ => rfl) strong_init _ _ rfl

/-! ## On any store -/

section Among

variable {P : Key → Json → Prop} {H : Key → Prop} {miss : Key → StoreException String}

omit [DecidableEq Key]

theorem returns_get {key : Key} {Q : Json → Prop} (s : Int) (hkey : H key)
    (h : ∀ v, P key v → Q v) : (get key s).Returns P H miss Q :=
  ⟨fun hno => absurd hkey hno, fun v hv => ⟨v, rfl, h v hv⟩⟩

/-- A `get` in a `try` finds a value that fits its key, or none. -/
theorem returns_attempt_get {key : Key} {Q : Except AppException Json → Prop} (s : Int)
    (hno : Q (.error (.store (miss key)))) (h : ∀ v, P key v → Q (.ok v)) :
    (get key s).attempt.Returns P H miss Q :=
  Program.Returns.attempt ⟨fun _ => hno, h⟩

theorem returns_put {key : Key} {v : Json} {Q : Unit → Prop} (s : Int) (hv : P key v)
    (h : Q ()) : (put key v s).Returns P H miss Q := ⟨hv, (), rfl, h⟩

theorem returns_json {result : Option α} {a : α} {Q : α → Prop} (hresult : result = some a)
    (h : Q a) : (json result : App Key α).Returns P H miss Q :=
  Program.returns_ofOption hresult h

/-! What comes next goes on from what the first step found. -/

theorem attempt_get_then {key : Key} {f : Except AppException Json → App Key β} {Q : β → Prop}
    (s : Int) (hno : (f (.error (.store (miss key)))).Returns P H miss Q)
    (h : ∀ v, P key v → (f (.ok v)).Returns P H miss Q) :
    ((get key s).attempt >>= f).Returns P H miss Q :=
  (returns_attempt_get (Q := fun res => (f res).Returns P H miss Q) s hno h).bind fun _ hf => hf

theorem put_then {key : Key} {v : Json} {f : Unit → App Key β} {Q : β → Prop} (s : Int)
    (hv : P key v) (h : (f ()).Returns P H miss Q) :
    (put key v s >>= f).Returns P H miss Q :=
  (returns_put (Q := fun u => (f u).Returns P H miss Q) s hv h).bind fun _ hf => hf

theorem json_then {result : Option α} {a : α} {f : α → App Key β} {Q : β → Prop}
    (hresult : result = some a) (h : (f a).Returns P H miss Q) :
    (json result >>= f).Returns P H miss Q :=
  (returns_json (Q := fun a => (f a).Returns P H miss Q) hresult h).bind fun _ hf => hf

theorem json_raises {result : Option α} {f : α → App Key β} {Q : Except AppException β → Prop}
    (hresult : result = none) (h : Q (.error .json)) :
    (json result >>= f).among P H miss Q := by
  rw [hresult]
  exact h

theorem returns_getList {listName : String} (hlist : listName ≠ "count") {key : Key} (s : Int)
    {Q : Json → Prop} (hnew : Q (Json.idList listName [])) (h : ∀ v, P key v → Q v) :
    (getList listName key s).Returns P H miss Q := by
  refine Program.Returns.bind (R := fun res => ∀ v, res = .ok v → Q v)
    (returns_attempt_get s (fun v heq => nomatch heq) fun v hv v' heq => ?_) fun res hres => ?_
  · exact Except.ok.inj heq ▸ h v hv
  · cases res with
    | ok v => exact Program.returns_pure (hres v rfl)
    | error e => exact returns_json (Json.setList_null [] hlist) hnew

/-- What a store keeps among operations that rely on `P` and `H`. -/
structure Holds (name : Key → String) (P : Key → Json → Prop) (H : Key → Prop)
    (w : World String Json) : Prop where
  reachable : Reachable w
  /-- Every value ever stored satisfies what its key asks. -/
  stored : Stored name P w
  present : ∀ key, H key → (view name w).versions key ≠ []

theorem holds_init (sel : ReadResponseSelector) :
    Holds name P (fun _ => False) (World.init sel) where
  reachable := .init sel
  stored _ _ hv := (List.not_mem_nil hv).elim
  present _ := False.elim

theorem Holds.mono {H' : Key → Prop} {w : World String Json} (h : Holds name P H w)
    (hH : ∀ key, H' key → H key) : Holds name P H' w :=
  ⟨h.reachable, h.stored, fun key hkey => h.present key (hH key hkey)⟩

variable [DecidableEq Key]

/-- A `put` of what its key asks leaves one more key with a value. -/
theorem Holds.put (hname : Function.Injective name) {w : World String Json}
    (h : Holds name P H w) {key : Key} {v : Json} (hv : P key v) (s : Int) :
    Holds name P (fun k => H k ∨ k = key) (w.put (name key) v s) where
  reachable := h.reachable.put _ _ _
  stored := h.stored.put hname h.reachable hv s
  present k hk := by
    rw [view_put hname h.reachable]
    by_cases hkey : k = key
    · subst hkey
      rw [SessionRegister.write_versions_self]
      simp
    · rw [SessionRegister.write_versions_ne _ _ _ hkey]
      exact h.present k (hk.resolve_right hkey)

/-- The next `get` or `put` of an operation. -/
theorem Holds.advance (hname : Function.Injective name) {w : World String Json}
    (h : Holds name P H w) (draws : Draws) {p : App Key α} {Q : Except AppException α → Prop}
    (hp : p.among P H (missing name) Q) :
    (advance name draws w p).1.among P H (missing name) Q
      ∧ Holds name P H (advance name draws w p).2 := by
  cases p with
  | ret a => exact ⟨hp, h⟩
  | raise e => exact ⟨hp, h⟩
  | put key v s next => exact ⟨hp.2, (h.put hname hp.1 s).mono fun _ => Or.inl⟩
  | get key s next =>
      show (next (w.get (name key) s draws).1).among P H (missing name) Q
        ∧ Holds name P H (w.get (name key) s draws).2
      have hr := h.reachable.get (name key) s draws
      have hs := h.stored.get hname h.reachable key s draws
      rcases view_get hname h.reachable key s draws with
        ⟨hno, hres, hview⟩ | ⟨i, v, hread, hres, hview⟩
      · rw [hres]
        refine ⟨hp.1 fun hkey => h.present key hkey hno, hr, hs, fun k hk => ?_⟩
        rw [hview]
        exact h.present k hk
      · rw [hres]
        refine ⟨hp.2 v (h.stored key v (List.mem_of_getElem? hread.1)), hr, hs, fun k hk => ?_⟩
        rw [hview]
        exact h.present k hk

/--
**What operations guarantee among others, threads get.** Whatever the selector, the
interleaving and the use of `tx_start` and `tx_end`: all that an operation guarantees, as
long as values fit their keys and those of `H` are there, holds of what it was seen to
return, and of the exception that stopped its thread.
-/
theorem threads_among (hname : Function.Injective name) {w : World String Json}
    (h : Holds name P H w) {jobs : Nat → List (Job (App Key α))}
    (hjobs : ∀ i, ∀ job ∈ jobs i, job.work.among P H (missing name) fun _ => True)
    (turns : List (Nat × Draws)) :
    let pool := threads name w jobs turns
    (∀ (i n : Nat) (e : AppException), StoppedAt pool i n e →
        ∃ job : Job (App Key α), (jobs i)[n]? = some job
          ∧ ∀ Q, job.work.among P H (missing name) Q → Q (.error e))
      ∧ ∀ (i n : Nat) (r : α), (pool.parties i).results[n]? = some r →
          ∃ job : Job (App Key α), (jobs i)[n]? = some job
            ∧ ∀ Q, job.work.among P H (missing name) Q → Q (.ok r) := by
  intro pool
  have hkept : Kept (Holds name P H)
      (fun p₀ p : App Key α => p.among P H (missing name) (fun _ => True)
        ∧ ∀ Q, p₀.among P H (missing name) Q → p.among P H (missing name) Q)
      (fun p₀ r => ∀ Q, p₀.among P H (missing name) Q → Q (.ok r)) jobs pool := by
    refine run_induction h (fun i job hjob => ⟨hjobs i job hjob, fun _ hQ => hQ⟩) ?_ ?_ turns
    · intro w p₀ p d hw hgood _
      obtain ⟨hany, hw'⟩ := hw.advance hname d hgood.1
      exact ⟨⟨hany, fun Q hQ => (hw.advance hname d (hgood.2 Q hQ)).1⟩, hw'⟩
    · intro p₀ p r hgood hret Q hQ
      obtain rfl := returned_eq_some.mp hret
      exact hgood.2 Q hQ
  refine ⟨fun i n e hstop => ?_, hkept.results⟩
  obtain ⟨rfl, locked, hcurrent⟩ := hstop
  obtain ⟨job₀, hjob₀, hgood, -⟩ := hkept.current i _ hcurrent
  exact ⟨job₀, hjob₀, hgood.2⟩

/-- The same for the jobs of calls, by what each of them guarantees. -/
theorem calls_among {Call : Type} (hname : Function.Injective name) {w : World String Json}
    (h : Holds name P H w) {calls : Nat → List Call} (job : Call → Job (App Key α))
    {Ends : Call → Except AppException α → Prop}
    (hends : ∀ i, ∀ call ∈ calls i, (job call).work.among P H (missing name) (Ends call))
    (turns : List (Nat × Draws)) :
    let pool := threads name w (fun i => (calls i).map job) turns
    (∀ (i n : Nat) (e : AppException), StoppedAt pool i n e →
        ∃ call, (calls i)[n]? = some call ∧ Ends call (.error e))
      ∧ ∀ (i n : Nat) (r : α), (pool.parties i).results[n]? = some r →
          ∃ call, (calls i)[n]? = some call ∧ Ends call (.ok r) := by
  intro pool
  have hjobs : ∀ i, ∀ job' ∈ (calls i).map job,
      job'.work.among P H (missing name) fun _ => True := by
    intro i job' hjob'
    obtain ⟨call, hcall, rfl⟩ := List.mem_map.mp hjob'
    exact Program.among_mono (hends i call hcall) fun _ _ => trivial
  have hcall : ∀ (i n : Nat) (r : Except AppException α),
      (∃ job' : Job (App Key α), ((calls i).map job)[n]? = some job'
        ∧ ∀ Q, job'.work.among P H (missing name) Q → Q r) →
      ∃ call, (calls i)[n]? = some call ∧ Ends call r := by
    rintro i n r ⟨job', hjob', hall⟩
    rw [List.getElem?_map, Option.map_eq_some_iff] at hjob'
    obtain ⟨call, hcall, rfl⟩ := hjob'
    exact ⟨call, hcall, hall _ (hends i call (List.mem_of_getElem? hcall))⟩
  obtain ⟨hstopped, hresults⟩ := threads_among hname h hjobs turns
  exact ⟨fun i n e hstop => hcall i n _ (hstopped i n e hstop),
    fun i n r hr => hcall i n _ (hresults i n r hr)⟩

end Among

end App

end MockDB
