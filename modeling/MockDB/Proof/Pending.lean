import MockDB.Proof.SessionReads

/-!
# Transactions outside the lock

A thread that has created its transaction waits for the mutex with it. Other threads
creating and entering leave that transaction where it is, and entering under its id runs
exactly its critical section.
-/

namespace MockDB

variable {K V : Type} [DecidableEq K]

omit [DecidableEq K] in
/-- The transaction waiting under an id. -/
def World.pending (w : World K V) (txId : Nat) : Option (Transaction K V) :=
  w.waiting.find? (fun tx => tx.txId = txId)

section Pending

variable {w : World K V} {txId : Nat} {tx : Transaction K V}

omit [DecidableEq K] in
theorem pending_txId (hp : w.pending txId = some tx) : tx.txId = txId := by
  simpa using List.find?_some hp

omit [DecidableEq K] in
theorem pending_mem (hp : w.pending txId = some tx) : tx ∈ w.waiting :=
  List.mem_of_find?_eq_some hp

/-- Ids waiting have been handed out. -/
theorem pending_le (h : WorldOk w) (hp : w.pending txId = some tx) : txId ≤ w.txCount := by
  rw [← pending_txId hp]
  exact h.bound _ (List.mem_append_right _ (List.mem_map_of_mem (pending_mem hp)))

theorem pending_create_of (hp : w.pending txId = some tx) (call : Call K V) (s : Int) :
    (w.act (.create call s)).pending txId = some tx := by
  have hp' : w.waiting.find? (fun t => t.txId = txId) = some tx := hp
  simp [World.pending, World.act, World.newTransaction, List.find?_append, hp']

theorem pending_create_self (h : WorldOk w) (call : Call K V) (s : Int) :
    (w.act (.create call s)).pending (w.txCount + 1)
      = some (w.newTransaction call.newOperation s).1 := by
  have hnone : w.waiting.find? (fun t => t.txId = w.txCount + 1) = none := by
    rw [List.find?_eq_none]
    intro t ht heq
    have := h.bound t.txId (List.mem_append_right _ (List.mem_map_of_mem ht))
    have : t.txId = w.txCount + 1 := by simpa using heq
    omega
  simp [World.pending, World.act, World.newTransaction, List.find?_append, hnone]

/-- Entering runs the critical section of the transaction waiting under the id. -/
theorem act_enter_eq (hp : w.pending txId = some tx) (draws : Draws) :
    w.act (.enter txId draws)
      = { w with
          store := (w.store.enter tx draws).2
          waiting := w.waiting.filter (fun t => t.txId ≠ txId) } := by
  have hp' : w.waiting.find? (fun t => t.txId = txId) = some tx := hp
  simp [World.act, hp']

/-- Others keep waiting. -/
theorem pending_enter_ne {id : Nat} (hne : txId ≠ id) (draws : Draws) :
    (w.act (.enter id draws)).pending txId = w.pending txId := by
  cases hf : w.pending id with
  | none =>
      have hf' : w.waiting.find? (fun t => t.txId = id) = none := hf
      simp [World.act, hf']
  | some t =>
      rw [act_enter_eq hf]
      unfold World.pending
      rw [List.find?_filter]
      congr 1
      funext t'
      by_cases he : t'.txId = txId
      · simp [he, hne]
      · simp [he]

/-! ## What entering does -/

/-- A GET that enters is given a version allowed to its session, or none exists. -/
theorem enter_get (h : WellFormed w.store) (hp : w.pending txId = some tx) {p : GetParam K}
    {r : Option (GetResponse K V)} (hop : tx.op = .get p r) (draws : Draws) :
    (versionsOf p.key w.store.history = []
        ∧ w.enterGetWithVersion txId draws = some (.error (.keyNotFound p.key))
        ∧ w.enterResponse txId draws = some (.threw (.keyNotFound p.key))
        ∧ (w.act (.enter txId draws)).store = w.store)
      ∨ ∃ i c, Allowed w.store tx.sessionId p.key i c
        ∧ w.enterGetWithVersion txId draws = some (.ok (c.1, i + 1))
        ∧ w.enterResponse txId draws = some (.got c.1 (i + 1))
        ∧ (w.act (.enter txId draws)).store = w.store.afterGet tx p.key i c := by
  have hp' : w.waiting.find? (fun t => t.txId = txId) = some tx := hp
  rw [act_enter_eq hp]
  simp only [World.enterGetWithVersion, World.enterResponse, hp', Option.map_some, hop,
    KvStore.enter]
  rcases h.getLocked_spec tx p.key draws with ⟨hv, heq⟩ | ⟨i, c, ha, heq⟩
  · left
    rw [heq]
    exact ⟨hv, rfl, rfl, rfl⟩
  · right
    rw [heq]
    exact ⟨i, c, ha, rfl, rfl, rfl⟩

/-- Each version allowed to its session is one a GET can be given. -/
theorem enter_get_pick (h : WellFormed w.store) (hp : w.pending txId = some tx) {p : GetParam K}
    {r : Option (GetResponse K V)} (hop : tx.op = .get p r) {i : Nat} {c : V × Nat}
    (ha : Allowed w.store tx.sessionId p.key i c) :
    ∃ draws, w.enterGetWithVersion txId draws = some (.ok (c.1, i + 1)) := by
  have hp' : w.waiting.find? (fun t => t.txId = txId) = some tx := hp
  obtain ⟨draws, heq⟩ := h.getLocked_pick _ ha
  refine ⟨draws, ?_⟩
  simp only [World.enterGetWithVersion, hp', hop, heq]
  rfl

theorem enter_put (hp : w.pending txId = some tx) {p : PutParam K V} {r : Option PutResponse}
    (hop : tx.op = .put p r) (draws : Draws) :
    w.enterResponse txId draws = some (.put 1)
      ∧ (w.act (.enter txId draws)).store = w.store.putLocked tx p.key p.value := by
  have hp' : w.waiting.find? (fun t => t.txId = txId) = some tx := hp
  rw [act_enter_eq hp]
  simp only [World.enterResponse, hp', KvStore.enter, hop, Option.map_some, and_self]

end Pending

end MockDB
