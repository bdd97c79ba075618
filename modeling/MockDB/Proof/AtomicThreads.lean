import MockDB.Lib.Interleaving
import MockDB.Proof.Threads

/-!
# Threads and states

Where operations run on a map, and each does to the map of a state what one step does to the
state, threads that stay between `tx_start` and `tx_end` are served by the steps, in one
sequence that keeps the order of each thread.
-/

namespace MockDB

open Mutex Interleaving

namespace App

variable {Key α Call St : Type} {name : Key → String}

/-- All threads have been through their operations. -/
def Finished (pool : Pool (World String Json) (App Key α) α) (calls : Nat → List Call) : Prop :=
  ∀ i, (pool.parties i).results.length = (calls i).length

/-- Threads are over when those are that have calls and turns. -/
theorem finished_of {w : World String Json} {calls : Nat → List Call} {work : Call → App Key α}
    {turns : List (Nat × Draws)} (active : List Nat) (hturns : ∀ t ∈ turns, t.1 ∈ active)
    (hcalls : ∀ i, i ∉ active → calls i = [])
    (hactive : ∀ i ∈ active, ((threads name w (allInTx fun i => (calls i).map work) turns).parties
      i).results.length = (calls i).length) :
    Finished (threads name w (allInTx fun i => (calls i).map work) turns) calls := by
  intro i
  by_cases hi : i ∈ active
  · exact hactive i hi
  · have hidle : ∀ t ∈ turns, t.1 ≠ i := by
      rintro t ht rfl
      exact hi (hturns t ht)
    unfold threads
    rw [hcalls i hi, Pool.run_parties_of_not_mem hidle]
    rfl

/-- Nobody holds the mutex in the end. -/
theorem holder_of_finished {w : World String Json} {calls : Nat → List Call}
    {work : Call → App Key α} {turns : List (Nat × Draws)}
    (h : Finished (threads name w (allInTx fun i => (calls i).map work) turns) calls) :
    (threads name w (allInTx fun i => (calls i).map work) turns).holder = none := by
  obtain ⟨log, w', under, hs⟩ := serialized_run (machine name) w
    (allInTx_locked fun i => (calls i).map work) turns
  have hholder := hs.holder
  cases under with
  | none => exact hholder
  | some u =>
      -- the job in hand would be one more than there are
      obtain ⟨i, job⟩ := u
      have horder := congrArg List.length (hs.order i)
      have hresults := congrArg List.length (hs.results i)
      have hdone := h i
      rw [allInTx_work] at horder
      simp only [inHand, if_true, List.length_append, List.length_map,
        List.length_singleton] at horder hresults
      unfold threads at hdone
      omega

theorem ofParty_entries {β : Type} (log : List (Entry (App Key α) α))
    (f : Entry (App Key α) α → β) (i : Nat) :
    ofParty (log.map fun e => (e.party, f e)) i = (entriesOf log i).map f := by
  simp [ofParty, entriesOf, List.filter_map, Function.comp_def]

/-- The calls of a thread that have returned. -/
def made (pool : Pool (World String Json) (App Key α) α) (calls : Nat → List Call) (i : Nat) :
    List Call :=
  (calls i).take (pool.parties i).results.length

section Served

variable [DecidableEq Key] {toMap : St → Key → Option Json} {Inv : St → Prop}
  {work : Call → App Key α}

theorem onMapEach_serveAll {step : Call → St → Except AppException α × St}
    {calls : List (Nat × Call)} {st : St} (hst : Inv st)
    (hstep : ∀ c ∈ calls, ∀ st, Inv st → Inv (step c.2 st).2
      ∧ (work c.2).onMap (missing name) (toMap st) = ((step c.2 st).1, toMap (step c.2 st).2)) :
    onMapEach (missing name) (calls.map fun c => work c.2) (toMap st)
        = ((serveAll step calls st).1.map Prod.snd, toMap (serveAll step calls st).2)
      ∧ (serveAll step calls st).1.map Prod.fst = calls.map Prod.fst := by
  induction calls generalizing st with
  | nil => exact ⟨rfl, rfl⟩
  | cons c calls ih =>
      obtain ⟨i, call⟩ := c
      obtain ⟨hinv, honMap⟩ := hstep (i, call) List.mem_cons_self st hst
      obtain ⟨hrest, hparties⟩ := ih hinv fun c hc => hstep c (List.mem_cons_of_mem _ hc)
      constructor
      · simp only [List.map_cons, onMapEach, honMap, hrest, serveAll]
      · simp only [List.map_cons, serveAll, hparties]

/--
**Threads are served one call at a time** where their operations run on a map and `step` says what
a call does to a state. Whenever nobody holds the mutex, there is a sequence of the calls that
have returned, which keeps the order of each thread: each thread has been returned what its
calls return in that sequence, and the store holds the state that it leads to.
-/
theorem RunsOnMap.served {I : World String Json → Prop} {C : App Key α → Prop}
    (h : RunsOnMap name I C) {w : World String Json} (hw : I w) (Inv : St → Prop)
    (step : Call → St → Except AppException α × St) {st : St} (hst : Inv st)
    (hmap : contents name w = toMap st) {calls : Nat → List Call}
    (hcalls : ∀ i, ∀ call ∈ calls i, C (work call))
    (hstep : ∀ i, ∀ call ∈ calls i, ∀ st, Inv st → Inv (step call st).2
      ∧ (work call).onMap (missing name) (toMap st) = ((step call st).1, toMap (step call st).2))
    {turns : List (Nat × Draws)}
    (hfree : (App.threads name w (allInTx fun i => (calls i).map work) turns).holder = none) :
    let pool := App.threads name w (allInTx fun i => (calls i).map work) turns
    ∃ order : List (Nat × Call), Interleaves (made pool calls) order
      ∧ (∀ i, (pool.parties i).results.map .ok = ofParty (serveAll step order st).1 i)
      ∧ contents name pool.shared = toMap (serveAll step order st).2 := by
  intro pool
  have hops : ∀ i, ∀ p ∈ (calls i).map work, C p := by
    intro i p hp
    obtain ⟨call, hcall, rfl⟩ := List.mem_map.mp hp
    exact hcalls i call hcall
  obtain ⟨log, hlog, hresults, hjobs⟩ := h.threads hw hops turns hfree
  have horder : Interleaves (fun i => (made pool calls i).map work)
      (log.map fun e => (e.party, e.job)) := by
    intro i
    have hall := hjobs i
    rw [ofParty_entries log (·.job)]
    show _ = ((calls i).take (pool.parties i).results.length).map work
    rw [List.map_take, ← hall, hresults i, List.length_map]
    exact (List.take_left' (List.length_map _)).symm
  obtain ⟨order, hentries, hinterleaves⟩ := horder.exists_calls
  obtain ⟨hserve, hparties⟩ := onMapEach_serveAll hst fun c hc =>
    hstep c.1 c.2 (List.mem_of_mem_take (hinterleaves.mem hc))
  have hjob : order.map (fun c => work c.2) = log.map (·.job) := by
    have hsnd := congrArg (List.map Prod.snd) hentries
    rw [List.map_map, List.map_map] at hsnd
    exact hsnd.symm
  rw [hmap, ← hjob, hserve] at hlog
  obtain ⟨hreplies, hcontents⟩ := Prod.mk.inj hlog
  refine ⟨order, hinterleaves, fun i => ?_, hcontents.symm⟩
  have hserved : (serveAll step order st).1
      = log.map fun e => (e.party, (.ok e.result : Except AppException α)) := by
    have hfst := congrArg (List.map Prod.fst) hentries
    rw [List.map_map, List.map_map] at hfst
    rw [List.zip_of_prod (hparties.trans hfst.symm) hreplies]
    exact (List.zip_of_prod (by rw [List.map_map]; rfl) (by rw [List.map_map]; rfl)).symm
  rw [hserved, ofParty_entries, hresults i, List.map_map]
  rfl

variable {step : Call → St → α × St}

/-- With calls that do not throw. -/
theorem RunsOnMap.served_ok {I : World String Json → Prop} {C : App Key α → Prop}
    (h : RunsOnMap name I C) {w : World String Json} (hw : I w) {st : St} (hst : Inv st)
    (hmap : contents name w = toMap st) {calls : Nat → List Call}
    (hcalls : ∀ i, ∀ call ∈ calls i, C (work call))
    (hstep : ∀ i, ∀ call ∈ calls i, ∀ st, Inv st → Inv (step call st).2
      ∧ (work call).onMap (missing name) (toMap st)
        = (.ok (step call st).1, toMap (step call st).2))
    {turns : List (Nat × Draws)}
    (hfree : (App.threads name w (allInTx fun i => (calls i).map work) turns).holder = none) :
    let pool := App.threads name w (allInTx fun i => (calls i).map work) turns
    ∃ order : List (Nat × Call), Interleaves (made pool calls) order
      ∧ (∀ i, (pool.parties i).results = ofParty (serveAll step order st).1 i)
      ∧ contents name pool.shared = toMap (serveAll step order st).2 := by
  intro pool
  obtain ⟨order, horder, hresults, hcontents⟩ := h.served hw Inv
    (fun call st => (.ok (step call st).1, (step call st).2)) hst hmap hcalls hstep hfree
  have hserve := serveAll_map (f := Except.ok) (fun call st => rfl :
    ∀ call st, ((Except.ok (step call st).1 : Except AppException α), (step call st).2) = _)
    order st
  have hok : Function.Injective (Except.ok : α → Except AppException α) :=
    fun _ _ => Except.ok.inj
  refine ⟨order, horder, fun i => List.map_injective_iff.mpr hok ?_, ?_⟩
  · rw [hresults i, hserve, ofParty_map]
  · rw [hcontents, hserve]

/-- With threads that have been through their calls. -/
theorem RunsOnMap.served_finished {I : World String Json → Prop} {C : App Key α → Prop}
    (h : RunsOnMap name I C) {w : World String Json} (hw : I w) {st : St} (hst : Inv st)
    (hmap : contents name w = toMap st) {calls : Nat → List Call}
    (hcalls : ∀ i, ∀ call ∈ calls i, C (work call))
    (hstep : ∀ i, ∀ call ∈ calls i, ∀ st, Inv st → Inv (step call st).2
      ∧ (work call).onMap (missing name) (toMap st)
        = (.ok (step call st).1, toMap (step call st).2))
    {turns : List (Nat × Draws)}
    (hfinished : Finished (App.threads name w (allInTx fun i => (calls i).map work) turns) calls) :
    let pool := App.threads name w (allInTx fun i => (calls i).map work) turns
    ∃ order : List (Nat × Call), Interleaves calls order
      ∧ ∀ i, (pool.parties i).results = ofParty (serveAll step order st).1 i := by
  intro pool
  obtain ⟨order, horder, hresults, -⟩ :=
    h.served_ok hw hst hmap hcalls hstep (holder_of_finished hfinished)
  have hmade : made pool calls = calls := funext fun i => List.take_of_length_le (hfinished i).ge
  exact ⟨order, hmade ▸ horder, hresults⟩

/-- With threads below `n` only, there are finitely many such sequences. -/
theorem RunsOnMap.exists_served {I : World String Json → Prop} {C : App Key α → Prop}
    (h : RunsOnMap name I C) {w : World String Json} (hw : I w) {st : St} (hst : Inv st)
    (hmap : contents name w = toMap st) {calls : Nat → List Call}
    (hcalls : ∀ i, ∀ call ∈ calls i, C (work call))
    (hstep : ∀ i, ∀ call ∈ calls i, ∀ st, Inv st → Inv (step call st).2
      ∧ (work call).onMap (missing name) (toMap st)
        = (.ok (step call st).1, toMap (step call st).2))
    {turns : List (Nat × Draws)}
    (hfinished : Finished (App.threads name w (allInTx fun i => (calls i).map work) turns) calls)
    (n : Nat) (hn : ∀ i, n ≤ i → calls i = []) :
    ∃ order, Interleaves calls order ∧ order ∈ interleavings ((List.range n).map calls)
      ∧ replyOf (App.threads name w (allInTx fun i => (calls i).map work) turns)
        = fun i k => (ofParty (serveAll step order st).1 i)[k]? := by
  obtain ⟨order, horder, hresults⟩ := h.served_finished hw hst hmap hcalls hstep hfinished
  refine ⟨order, horder, horder.mem_interleavings hn, ?_⟩
  funext i k
  exact congrArg (·[k]?) (hresults i)

end Served

end App

end MockDB
