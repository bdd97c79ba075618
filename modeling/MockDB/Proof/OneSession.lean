import MockDB.Proof.Threads

/-!
# One session has no choice

What a weak selection leaves open is left open to sessions that did not put the latest
version. A session that has put or read the latest version of each key, or finds just one,
reads that and no other, whatever the selector and its random numbers, and all that it does
keeps this so. Operations of one session run on a map, as all do on a linearizable store.
-/

namespace MockDB

open Mutex

namespace App

variable {Key α β : Type} {name : Key → String}

/-- A store in which session `s` has no choice under the application's keys. -/
structure Alone (name : Key → String) (s : Int) (w : World String Json) : Prop where
  reachable : Reachable w
  settled : (view name w).Settled s

theorem alone_init (name : Key → String) (s : Int) (sel : ReadResponseSelector) :
    Alone name s (World.init sel) :=
  ⟨.init sel, fun _ => Nat.zero_le _⟩

theorem contents_eq (name : Key → String) (w : World String Json) :
    contents name w = (view name w).latest := rfl

/-- **An operation of the one session runs on a map.** -/
theorem runsOnMap_alone [DecidableEq Key] (hname : Function.Injective name) (s : Int) :
    RunsOnMap name (Alone name s) fun p : App Key α => p.By s := by
  intro p hp draws w h
  obtain ⟨⟨hres, hlatest, hsettled⟩, hreach⟩ :=
    run_wp hname p draws h.reachable (hp.wp (missing name) h.settled)
  rw [contents_eq, contents_eq]
  exact ⟨hres, hlatest, hreach, hsettled⟩

/--
**Threads of one session run on a map**, on a store of any selector, where the session has no
choice at the start. When no thread is inside an operation, the latest values are those that
the operations leave on a map, one at a time in an order that keeps that of each thread, and
what each thread was returned is what they return there.
-/
theorem one_session_onMap [DecidableEq Key] (hname : Function.Injective name) {s : Int}
    {w : World String Json} (h : Alone name s w) {ops : Nat → List (App Key α)}
    (hops : ∀ i, ∀ p ∈ ops i, p.By s) (turns : List (Nat × Draws))
    (hfree : (threads name w (allInTx ops) turns).holder = none) :
    let pool := threads name w (allInTx ops) turns
    ∃ log : List (Entry (App Key α) α),
      onMapEach (missing name) (log.map (·.job)) (contents name w)
          = (log.map fun e => .ok e.result, contents name pool.shared)
        ∧ (∀ i, (pool.parties i).results = (entriesOf log i).map (·.result))
        ∧ ∀ i, (entriesOf log i).map (·.job) ++ (pool.parties i).todo.map (·.work) = ops i :=
  (runsOnMap_alone hname s).threads h hops turns hfree

/-! ## What operations are made of -/

variable {s : Int}

theorem by_get (key : Key) : (get key s).By s := by
  refine ⟨rfl, fun r => ?_⟩
  cases r <;> trivial

theorem by_put (key : Key) (v : Json) : (put key v s).By s := ⟨rfl, trivial⟩

theorem by_json (result : Option α) : (json result : App Key α).By s :=
  Program.by_ofOption _ result

/-- What comes after a `get` in a `try`. -/
theorem by_attempt_get {key : Key} {f : Except AppException Json → App Key β}
    (hno : ∀ e, (f (.error e)).By s) (hok : ∀ v, (f (.ok v)).By s) :
    ((get key s).attempt >>= f).By s := by
  refine Program.By.bind (by_get key).attempt fun r => ?_
  cases r with
  | error e => exact hno e
  | ok v => exact hok v

/-- Two threads of session 5, one of which reads what the other one puts, on a causal store. -/
theorem one_session_onMap_example :
    let ops : Nat → List (App Unit Bool)
      | 0 => [do put () (.bool true) 5; pure true]
      | 1 => [do let v ← get () 5; json v.asBool]
      | _ => []
    let turns := [(0, zeroDraws), (1, zeroDraws), (0, zeroDraws), (0, zeroDraws), (1, zeroDraws),
      (1, zeroDraws), (1, zeroDraws)]
    let pool := threads (fun _ => "key") (World.init .causal) (allInTx ops) turns
    ∃ log : List (Entry (App Unit Bool) Bool),
      onMapEach (missing fun _ => "key") (log.map (·.job))
          (contents (fun _ => "key") (World.init .causal))
          = (log.map fun e => .ok e.result, contents (fun _ => "key") pool.shared)
        ∧ (∀ i, (pool.parties i).results = (entriesOf log i).map (·.result))
        ∧ ∀ i, (entriesOf log i).map (·.job) ++ (pool.parties i).todo.map (·.work) = ops i := by
  refine one_session_onMap (fun _ _ _ => rfl) (alone_init _ 5 .causal) (fun i p hp => ?_) _ rfl
  match i, hp with
  | 0, hp => exact List.mem_singleton.mp hp ▸ ⟨rfl, trivial⟩
  | 1, hp =>
      rw [List.mem_singleton.mp hp]
      exact (by_get ()).bind fun v => by_json _
  | n + 2, hp => exact absurd hp List.not_mem_nil

end App

end MockDB
