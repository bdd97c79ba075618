import MockDB.Proof.Read

/-!
# The store's three structures agree

`put` and `_get` update the version lists, the global history and one session's
history separately. `WellFormed` says the first and the last are views of the second,
that ids are unique, and that every GET in the history was answered from the versions
committed before it.

Ids are handed out before the lock is taken, so uniqueness needs the transactions
still waiting for it: `WorldOk` carries them along.
-/

namespace MockDB

variable {K V : Type} [DecidableEq K]

/-- The version lists, the sessions and the responses agree with the history. -/
structure WellFormed (σ : KvStore K V) : Prop where
  /-- Transaction ids are unique. -/
  ids : (σ.history.map (·.txId)).Nodup
  /-- A key is present once it was put, with exactly the versions put on it. -/
  versions : ∀ k, σ.kvMap.lookup k
    = if versionsOf k σ.history = [] then none else some (versionsOf k σ.history)
  /-- A session's history is the global one, restricted to it. -/
  sessions : ∀ s, σ.getSessionHistory s = σ.history.filter (fun tx => tx.sessionId = s)
  /-- Every transaction was answered from the history before it. -/
  answered : ∀ n tx, σ.history[n]? = some tx → Answered (σ.history.take n) tx

namespace WellFormed

theorem init (sel : ReadResponseSelector) : WellFormed (KvStore.new sel : KvStore K V) where
  ids := List.nodup_nil
  versions := by intro k; simp
  sessions := by intro s; rfl
  answered := by intro n tx h; simp at h

theorem setGenNextTx {σ : KvStore K V} (h : WellFormed σ) (sel : ReadResponseSelector) :
    WellFormed (σ.setGenNextTx sel) := ⟨h.ids, h.versions, h.sessions, h.answered⟩

variable {σ : KvStore K V} {tx : Transaction K V} {key : K}

/-- The versions `_get` lists are the history's. -/
theorem lookup_some (h : WellFormed σ) {versions : List (V × Nat)}
    (hl : σ.kvMap.lookup key = some versions) : versions = versionsOf key σ.history := by
  rw [h.versions] at hl
  split at hl
  · exact absurd hl (by simp)
  · exact (Option.some.inj hl).symm

theorem lookup_eq_none (h : WellFormed σ) :
    σ.kvMap.lookup key = none ↔ versionsOf key σ.history = [] := by
  rw [h.versions]
  by_cases hv : versionsOf key σ.history = []
  · simp [hv]
  · simp [hv]

theorem lookup_of_ne_nil (h : WellFormed σ) (hv : versionsOf key σ.history ≠ []) :
    σ.kvMap.lookup key = some (versionsOf key σ.history) := by
  rw [h.versions, if_neg hv]

omit [DecidableEq K] in
/-- Ids stay unique when the id committed is new. -/
theorem nodup_concat {h : List (Transaction K V)} {tx : Transaction K V}
    (hnd : (h.map (·.txId)).Nodup) (hfresh : tx.txId ∉ h.map (·.txId)) :
    ((h ++ [tx]).map (·.txId)).Nodup := by
  rw [List.map_append, List.map_singleton]
  exact ListOrder.nodup_concat.mpr ⟨hfresh, hnd⟩

theorem answered_concat {h : List (Transaction K V)} {tx' : Transaction K V}
    (ha : ∀ n tx, h[n]? = some tx → Answered (h.take n) tx) (hnew : Answered h tx') :
    ∀ n tx, (h ++ [tx'])[n]? = some tx → Answered ((h ++ [tx']).take n) tx := by
  intro n tx hn
  rcases ListOrder.getElem?_concat hn with ⟨hlt, hold⟩ | ⟨heq, rfl⟩
  · rw [ListOrder.take_concat (Nat.le_of_lt hlt)]
    exact ha n tx hold
  · subst heq
    rw [List.take_left]
    exact hnew

omit [DecidableEq K] in
theorem filter_session_concat (h : List (Transaction K V)) (tx : Transaction K V) (s : Int) :
    (h ++ [tx]).filter (fun t => t.sessionId = s)
      = if s = tx.sessionId then h.filter (fun t => t.sessionId = s) ++ [tx]
        else h.filter (fun t => t.sessionId = s) := by
  rw [List.filter_append]
  by_cases hs : s = tx.sessionId
  · subst hs; simp
  · have hs' : ¬ tx.sessionId = s := fun he => hs he.symm
    simp [hs, hs']

/-- **A PUT keeps the store well formed.** -/
theorem putLocked (h : WellFormed σ) (hfresh : tx.txId ∉ σ.history.map (·.txId)) (v : V) :
    WellFormed (σ.putLocked tx key v) where
  ids := nodup_concat h.ids hfresh
  versions := by
    intro k
    rw [KvStore.putLocked_lookup, KvStore.putLocked_history, versionsOf_concat_put]
    by_cases hk : k = key
    · subst hk
      rw [if_pos rfl, if_pos rfl, if_neg (by simp), h.versions]
      by_cases hv : versionsOf k σ.history = []
      · simp [hv]
      · simp [hv]
    · rw [if_neg hk, if_neg hk]
      exact h.versions k
  sessions := by
    intro s
    rw [KvStore.putLocked_getSessionHistory, KvStore.putLocked_history, filter_session_concat,
      ← h.sessions]
    rfl
  answered := by
    rw [KvStore.putLocked_history]
    exact answered_concat h.answered (answered_put tx key v)

/-- **A GET that found a version keeps the store well formed.** -/
theorem afterGet (h : WellFormed σ) (hfresh : tx.txId ∉ σ.history.map (·.txId)) {i : Nat}
    {c : V × Nat} (hc : (versionsOf key σ.history)[i]? = some c) :
    WellFormed (σ.afterGet tx key i c) where
  ids := nodup_concat h.ids hfresh
  versions := by
    intro k
    rw [KvStore.afterGet_kvMap, KvStore.afterGet_history, versionsOf_concat_get]
    exact h.versions k
  sessions := by
    intro s
    rw [KvStore.afterGet_getSessionHistory, KvStore.afterGet_history, filter_session_concat,
      ← h.sessions]
    rfl
  answered := by
    rw [KvStore.afterGet_history]
    exact answered_concat h.answered (answered_get hc)

theorem getLocked (h : WellFormed σ) (hfresh : tx.txId ∉ σ.history.map (·.txId))
    (draws : Draws) : WellFormed (σ.getLocked tx key draws).2 := by
  cases hl : σ.kvMap.lookup key with
  | none => rw [KvStore.getLocked_none hl]; exact h
  | some versions =>
      rcases KvStore.getLocked_cases tx draws hl with
        ⟨i, c, hs, heq⟩ | ⟨-, heq⟩
      · rw [heq]
        exact h.afterGet hfresh (h.lookup_some hl ▸ hs.1)
      · rw [heq]
        exact h.setGenNextTx _

theorem enter (h : WellFormed σ) (hfresh : tx.txId ∉ σ.history.map (·.txId)) (draws : Draws) :
    WellFormed (σ.enter tx draws).2 := by
  unfold KvStore.enter
  cases hop : tx.op with
  | put p r => exact h.putLocked hfresh p.value
  | get p r => exact h.getLocked hfresh draws

end WellFormed

/-! ## What a critical section adds to the history -/

namespace KvStore

variable {σ : KvStore K V} {tx : Transaction K V} {key : K}

/-- `_get` appends its own transaction or nothing. -/
theorem getLocked_history (σ : KvStore K V) (tx : Transaction K V) (key : K) (draws : Draws) :
    (σ.getLocked tx key draws).2.history = σ.history
      ∨ ∃ r, (σ.getLocked tx key draws).2.history = σ.history ++ [tx.setResponse key r] := by
  cases hl : σ.kvMap.lookup key with
  | none => rw [getLocked_none hl]; exact Or.inl rfl
  | some versions =>
      rcases getLocked_cases tx draws hl with ⟨i, c, -, heq⟩ | ⟨-, heq⟩
      · rw [heq]; exact Or.inr ⟨_, rfl⟩
      · rw [heq]; exact Or.inl rfl

/-- So the ids of the history grow by the transaction's own id or not at all. -/
theorem enter_ids (σ : KvStore K V) (tx : Transaction K V) (draws : Draws) :
    (σ.enter tx draws).2.history.map (·.txId) = σ.history.map (·.txId)
      ∨ (σ.enter tx draws).2.history.map (·.txId) = σ.history.map (·.txId) ++ [tx.txId] := by
  unfold enter
  cases hop : tx.op with
  | put p r => exact Or.inr (by simp)
  | get p r =>
      rcases getLocked_history σ tx p.key draws with heq | ⟨r', heq⟩
      · exact Or.inl (by simp [heq])
      · exact Or.inr (by simp [heq])

end KvStore

/-! ## Every reachable state -/

/-- The states of a program run: any calls, any schedule, any swapping of selectors. -/
inductive Reachable : World K V → Prop where
  | init (sel : ReadResponseSelector) : Reachable (World.init sel)
  | act {w : World K V} (h : Reachable w) (a : Act K V) : Reachable (w.act a)
  | setGenNextTx {w : World K V} (h : Reachable w) (sel : ReadResponseSelector) :
      Reachable (w.setGenNextTx sel)

/-- The ids handed out so far: those in the history, then those still waiting. -/
def World.ids (w : World K V) : List Nat :=
  w.store.history.map (·.txId) ++ w.waiting.map (·.txId)

/-- The store is well formed, and no two transactions share an id. -/
structure WorldOk (w : World K V) : Prop where
  store : WellFormed w.store
  /-- Ids are unique, those still waiting for the lock included. -/
  nodup : w.ids.Nodup
  /-- Every id came from the counter. -/
  bound : ∀ id ∈ w.ids, id ≤ w.txCount

theorem worldOk_init (sel : ReadResponseSelector) : WorldOk (World.init sel : World K V) where
  store := WellFormed.init sel
  nodup := List.nodup_nil
  bound := by intro id h; simp [World.ids, World.init] at h

theorem worldOk_create {w : World K V} (h : WorldOk w) (call : Call K V) (s : Int) :
    WorldOk (w.act (.create call s)) where
  store := h.store
  nodup := by
    show (w.store.history.map (·.txId)
      ++ (w.waiting ++ [(w.newTransaction call.newOperation s).1]).map (·.txId)).Nodup
    rw [List.map_append, ← List.append_assoc, List.nodup_append]
    refine ⟨h.nodup, by simp, ?_⟩
    intro a ha b hb hab
    have hb' : b = w.txCount + 1 := by simpa [World.newTransaction] using hb
    have := h.bound a ha
    omega
  bound := by
    intro id hid
    have hid' : id ∈ w.ids ∨ id = w.txCount + 1 := by
      simpa [World.ids, World.act, World.newTransaction, or_assoc] using hid
    show id ≤ w.txCount + 1
    rcases hid' with hm | rfl
    · exact Nat.le_succ_of_le (h.bound id hm)
    · exact Nat.le_refl _

/-- A transaction still waiting has not committed under its id. -/
theorem WorldOk.waiting_fresh {w : World K V} (h : WorldOk w) {txId : Nat}
    {tx : Transaction K V} (hf : w.waiting.find? (fun t => t.txId = txId) = some tx) :
    tx.txId ∉ w.store.history.map (·.txId) := by
  intro hc
  have hidw : tx.txId ∈ w.waiting.map (·.txId) := List.mem_map_of_mem (List.mem_of_find?_eq_some hf)
  exact (List.nodup_append.mp h.nodup).2.2 _ hc _ hidw rfl

/-- The store after a waiting transaction got its turn, and what is still waiting. -/
theorem worldOk_enter {w : World K V} (h : WorldOk w) (txId : Nat) (draws : Draws) :
    WorldOk (w.act (.enter txId draws)) := by
  cases hf : w.waiting.find? (fun tx => tx.txId = txId) with
  | none =>
      have : w.act (.enter txId draws) = w := by simp [World.act, hf]
      rw [this]; exact h
  | some tx =>
      have hmem : tx ∈ w.waiting := List.mem_of_find?_eq_some hf
      have htx : tx.txId = txId := by simpa using List.find?_some hf
      have hact : w.act (.enter txId draws) =
          { w with
            store := (w.store.enter tx draws).2
            waiting := w.waiting.filter (fun t => t.txId ≠ txId) } := by
        simp [World.act, hf]
      obtain ⟨hnd1, hnd2, hdisj⟩ := List.nodup_append.mp h.nodup
      have hidw : tx.txId ∈ w.waiting.map (·.txId) := List.mem_map_of_mem hmem
      have hfresh : tx.txId ∉ w.store.history.map (·.txId) := h.waiting_fresh hf
      -- what stays in the waiting list never had this id
      have hsub : (w.waiting.filter (fun t => t.txId ≠ txId)).map (·.txId)
          |>.Sublist (w.waiting.map (·.txId)) := List.filter_sublist.map _
      have hnot : txId ∉ (w.waiting.filter (fun t => t.txId ≠ txId)).map (·.txId) := by
        intro hc
        obtain ⟨t, ht, hid⟩ := List.mem_map.mp hc
        have := (List.mem_filter.mp ht).2
        simp [hid] at this
      rw [hact]
      refine ⟨h.store.enter hfresh draws, ?_, ?_⟩
      · unfold World.ids
        rcases KvStore.enter_ids w.store tx draws with heq | heq
        · rw [heq]
          exact h.nodup.sublist (hsub.append_left _)
        · rw [heq, List.append_assoc, List.singleton_append, htx, List.nodup_append]
          refine ⟨hnd1, List.nodup_cons.mpr ⟨hnot, hnd2.sublist hsub⟩, ?_⟩
          intro a ha b hb
          rcases List.mem_cons.mp hb with rfl | hb'
          · exact hdisj a ha b (htx ▸ hidw)
          · exact hdisj a ha b (hsub.subset hb')
      · intro id hid
        refine h.bound id ?_
        unfold World.ids at hid ⊢
        rcases List.mem_append.mp hid with hid' | hid'
        · rcases KvStore.enter_ids w.store tx draws with heq | heq
          · rw [heq] at hid'; exact List.mem_append_left _ hid'
          · rw [heq] at hid'
            rcases List.mem_append.mp hid' with hh | hh
            · exact List.mem_append_left _ hh
            · exact List.mem_append_right _ (List.mem_singleton.mp hh ▸ hidw)
        · exact List.mem_append_right _ (hsub.subset hid')

theorem worldOk_act {w : World K V} (h : WorldOk w) (a : Act K V) : WorldOk (w.act a) := by
  cases a with
  | create call s => exact worldOk_create h call s
  | enter txId draws => exact worldOk_enter h txId draws

/-- **What an action does to the store**: nothing, or the critical section of a transaction
whose id is not in the history. -/
theorem act_cases {w : World K V} (h : WorldOk w) (a : Act K V) :
    (w.act a).store = w.store
      ∨ ∃ txId draws tx, a = .enter txId draws
        ∧ w.waiting.find? (fun t => t.txId = txId) = some tx
        ∧ tx.txId ∉ w.store.history.map (·.txId)
        ∧ (w.act a).store = (w.store.enter tx draws).2 := by
  cases a with
  | create call s => exact Or.inl rfl
  | enter txId draws =>
      cases hf : w.waiting.find? (fun tx => tx.txId = txId) with
      | none => exact Or.inl (by simp [World.act, hf])
      | some tx =>
          exact Or.inr ⟨txId, draws, tx, rfl, hf, h.waiting_fresh hf, by simp [World.act, hf]⟩

theorem worldOk_setGenNextTx {w : World K V} (h : WorldOk w) (sel : ReadResponseSelector) :
    WorldOk (w.setGenNextTx sel) := ⟨h.store.setGenNextTx sel, h.nodup, h.bound⟩

theorem worldOk_reachable {w : World K V} (h : Reachable w) : WorldOk w := by
  induction h with
  | init sel => exact worldOk_init sel
  | act _ a ih => exact worldOk_act ih a
  | setGenNextTx _ sel ih => exact worldOk_setGenNextTx ih sel

theorem wellFormed_reachable {w : World K V} (h : Reachable w) : WellFormed w.store :=
  (worldOk_reachable h).store

theorem reachable_run {w : World K V} (h : Reachable w) (acts : List (Act K V)) :
    Reachable (w.run acts) := by
  induction acts generalizing w with
  | nil => exact h
  | cons a acts ih => exact ih (h.act a)

/-! ## Uninterrupted calls are runs -/

/-- The id the counter hands out next is not in use. -/
theorem WorldOk.fresh {w : World K V} (h : WorldOk w) :
    w.txCount + 1 ∉ w.store.history.map (·.txId) := by
  intro hc
  have := h.bound _ (List.mem_append_left _ hc)
  omega

/-- A thread that enters right after creating its transaction is one uninterrupted call. -/
theorem create_enter {w : World K V} (h : WorldOk w) (call : Call K V) (s : Int)
    (draws : Draws) :
    (w.act (.create call s)).act (.enter (w.txCount + 1) draws)
      = { w with
          store := (w.store.enter (w.newTransaction call.newOperation s).1 draws).2
          txCount := w.txCount + 1 } := by
  have hold : ∀ t ∈ w.waiting, t.txId ≠ w.txCount + 1 := by
    intro t ht he
    have := h.bound t.txId (List.mem_append_right _ (List.mem_map_of_mem ht))
    omega
  have hnone : w.waiting.find? (fun t => t.txId = w.txCount + 1) = none := by
    rw [List.find?_eq_none]
    intro t ht
    simpa using hold t ht
  have hfilter : w.waiting.filter (fun t => t.txId ≠ w.txCount + 1) = w.waiting := by
    rw [List.filter_eq_self]
    intro t ht
    simpa using hold t ht
  simp only [World.act, World.newTransaction, List.find?_append, hnone, List.filter_append,
    hfilter]
  simp

theorem put_eq {w : World K V} (h : WorldOk w) (key : K) (v : V) (s : Int) (draws : Draws) :
    w.put key v s = (w.act (.create (.put key v) s)).act (.enter (w.txCount + 1) draws) := by
  rw [create_enter h]
  rfl

theorem _get_eq {w : World K V} (h : WorldOk w) (key : K) (s : Int) (draws : Draws) :
    (w._get key s draws).2
      = (w.act (.create (.get key) s)).act (.enter (w.txCount + 1) draws) := by
  rw [create_enter h]
  rfl

theorem Reachable.put {w : World K V} (h : Reachable w) (key : K) (v : V) (s : Int) :
    Reachable (w.put key v s) := by
  rw [put_eq (worldOk_reachable h) key v s zeroDraws]
  exact (h.act _).act _

theorem Reachable._get {w : World K V} (h : Reachable w) (key : K) (s : Int) (draws : Draws) :
    Reachable (w._get key s draws).2 := by
  rw [_get_eq (worldOk_reachable h)]
  exact (h.act _).act _

theorem Reachable.exec {w : World K V} (h : Reachable w) (call : Call K V) (s : Int)
    (draws : Draws) : Reachable (w.exec call s draws).2 := by
  cases call with
  | get key => exact h._get key s draws
  | put key v => exact h.put key v s

/-! ## The agreement, spelled out -/

/--
**Store well-formedness.** In every reachable state: ids are unique; a key is present
iff it was put, and then lists its PUTs in history order; a session's history is the
global one restricted to it; and each GET names a PUT on its key strictly before it,
with that PUT's value and its position among the key's PUTs.
-/
theorem store_agreement {w : World K V} (h : Reachable w) :
    -- 1. unique ids
    (w.store.history.map (·.txId)).Nodup
      -- 2. the version lists
      ∧ (∀ k, (w.store.kvMap.lookup k).isSome = true ↔
          ∃ tx ∈ w.store.history, tx.op.isPut = true ∧ tx.op.key = k)
      ∧ (∀ k versions, w.store.kvMap.lookup k = some versions →
          versions ≠ [] ∧ versions = w.store.history.filterMap (putOn k))
      -- 3. the sessions
      ∧ (∀ s, (w.store.sessionOrder.lookup s).getD []
          = w.store.history.filter (fun tx => tx.sessionId = s))
      -- 4. the responses
      ∧ (∀ n tx p response, w.store.history[n]? = some tx → tx.op = .get p response →
          ∃ r m tw ok, response = some r ∧ r.key = p.key ∧ m < n
            ∧ w.store.history[m]? = some tw ∧ tw.op = .put ⟨p.key, r.value⟩ ok
            ∧ tw.txId = r.writtenByTxId
            ∧ r.versionNumber = (versionsOf p.key (w.store.history.take m)).length + 1) := by
  have hwf := wellFormed_reachable h
  refine ⟨hwf.ids, ?_, ?_, hwf.sessions, ?_⟩
  · intro k
    rw [Option.isSome_iff_ne_none, ne_eq, hwf.lookup_eq_none, ← ne_eq]
    exact wasPut_iff.symm
  · intro k versions hl
    have hv := hwf.lookup_some hl
    refine ⟨?_, hv⟩
    intro hnil
    rw [hv] at hnil
    rw [hwf.lookup_eq_none.mpr hnil] at hl
    exact absurd hl (by simp)
  · intro n tx p response hn hop
    have ha := hwf.answered n tx hn
    unfold Answered at ha
    rw [hop] at ha
    obtain ⟨i, c, hic, hr⟩ := ha
    obtain ⟨m, tw, ok, hm, htw, hid, hi⟩ := versionsOf_getElem?.mp hic
    have hmn : m < n := by
      have := (List.getElem?_eq_some_iff.mp hm).1
      exact Nat.lt_of_lt_of_le this (List.length_take_le n _)
    rw [List.getElem?_take_of_lt hmn] at hm
    rw [List.take_take, Nat.min_eq_left (Nat.le_of_lt hmn)] at hi
    exact ⟨chosen p.key i c, m, tw, ok, hr, rfl, hmn, hm, htw, hid, by rw [hi]; rfl⟩

/-- Three calls whose critical sections run in another order than their ids. -/
def overtaking : List (Act Nat Nat) :=
  [.create (.put 7 50) 1, .create (.put 7 60) 2, .create (.get 7) 2,
    .enter 2 zeroDraws, .enter 1 zeroDraws, .enter 3 (fun n => Fin.last n)]

theorem store_agreement_overtaking :
    (((World.init .causal).run overtaking).store.history.map (·.txId)).Nodup
      ∧ ((World.init .causal).run overtaking).store.history.map (·.txId) = [2, 1, 3] :=
  ⟨(store_agreement (reachable_run (.init .causal) overtaking)).1, by decide⟩

end MockDB
