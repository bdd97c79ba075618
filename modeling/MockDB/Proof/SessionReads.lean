import MockDB.Proof.HighWater

/-!
# Reads in a well-formed store

With the checker reduced to session floors, `_get` has a specification that mentions
neither the checker nor the selection loop: on a key that was put it returns a version
no older than the session's floor, the latest one when the selection is strong, and
any such version can be had. It never throws `consistency_exception`.

The second half says how one critical section moves the floors.
-/

namespace MockDB

variable {K V : Type} [DecidableEq K]

/-- Version `i` of `key` is one that session `s` may be given. -/
def Allowed (σ : KvStore K V) (s : Int) (key : K) (i : Nat) (c : V × Nat) : Prop :=
  (versionsOf key σ.history)[i]? = some c
    ∧ sessionFloor σ.history s key ≤ i + 1
    ∧ (σ.readSelector.isWeak = false → i + 1 = (versionsOf key σ.history).length)

/-- A weak selection allows every version at or above the floor. -/
theorem Allowed.of_weak {σ : KvStore K V} {s : Int} {key : K} {i : Nat} {c : V × Nat}
    (hw : σ.readSelector.isWeak = true) (hc : (versionsOf key σ.history)[i]? = some c)
    (hfloor : sessionFloor σ.history s key ≤ i + 1) : Allowed σ s key i c :=
  ⟨hc, hfloor, fun hn => by rw [hw] at hn; exact Bool.noConfusion hn⟩

namespace WellFormed

variable {σ : KvStore K V} {tx : Transaction K V} {key : K}

theorem selectable_iff (h : WellFormed σ) (tx : Transaction K V) (key : K) (i : Nat)
    (c : V × Nat) :
    σ.Selectable tx key (versionsOf key σ.history) i c ↔ Allowed σ tx.sessionId key i c := by
  constructor
  · rintro ⟨hic, hweak, hstrong⟩
    refine ⟨hic, ?_, hstrong⟩
    cases hw : σ.readSelector.isWeak with
    | true => exact (h.isConsistent_iff hic).mp (hweak hw)
    | false =>
        -- the last version is above every floor
        rw [hstrong hw]
        exact h.sessionFloor_le_length _ _
  · rintro ⟨hic, hfloor, hstrong⟩
    exact ⟨hic, fun _ => (h.isConsistent_iff hic).mpr hfloor, hstrong⟩

/-- The latest version is always allowed. -/
theorem allowed_last (h : WellFormed σ) (s : Int) {c : V × Nat}
    (hc : (versionsOf key σ.history).getLast? = some c) :
    Allowed σ s key ((versionsOf key σ.history).length - 1) c := by
  rw [List.getLast?_eq_getElem?] at hc
  have hlt := (List.getElem?_eq_some_iff.mp hc).1
  refine ⟨hc, ?_, fun _ => by omega⟩
  have := h.sessionFloor_le_length s key
  omega

/-- **The specification of `_get`.** -/
theorem getLocked_spec (h : WellFormed σ) (tx : Transaction K V) (key : K) (draws : Draws) :
    (versionsOf key σ.history = []
        ∧ σ.getLocked tx key draws = (.error (.keyNotFound key), σ))
      ∨ ∃ i c, Allowed σ tx.sessionId key i c
        ∧ σ.getLocked tx key draws = (.ok (chosen key i c), σ.afterGet tx key i c) := by
  by_cases hv : versionsOf key σ.history = []
  · exact Or.inl ⟨hv, KvStore.getLocked_none (h.lookup_eq_none.mpr hv)⟩
  · right
    rcases KvStore.getLocked_cases tx draws (h.lookup_of_ne_nil hv) with
      ⟨i, c, hs, heq⟩ | ⟨hno, -⟩
    · exact ⟨i, c, (h.selectable_iff tx key i c).mp hs, heq⟩
    · exfalso
      have ha := h.allowed_last tx.sessionId (List.getLast?_eq_some_getLast hv)
      exact hno _ _ ((h.selectable_iff tx key _ _).mpr ha)

/-- **What a critical section does to the store**: a PUT appends its version, and a GET nothing
or what its session may be told. -/
theorem enter_cases (h : WellFormed σ) (tx : Transaction K V) (draws : Draws) :
    (∃ p r, tx.op = .put p r ∧ (σ.enter tx draws).2 = σ.putLocked tx p.key p.value)
      ∨ (σ.enter tx draws).2 = σ
      ∨ ∃ p r i c, tx.op = .get p r ∧ Allowed σ tx.sessionId p.key i c
        ∧ (σ.enter tx draws).2 = σ.afterGet tx p.key i c := by
  unfold KvStore.enter
  cases hop : tx.op with
  | put p r => exact Or.inl ⟨p, r, rfl, rfl⟩
  | get p r =>
      right
      dsimp only
      rcases h.getLocked_spec tx p.key draws with ⟨-, heq⟩ | ⟨i, c, ha, heq⟩
      · rw [heq]
        exact Or.inl rfl
      · rw [heq]
        exact Or.inr ⟨p, r, i, c, rfl, ha, rfl⟩

/-- Every allowed version is returned for suitable draws. -/
theorem getLocked_pick (h : WellFormed σ) (tx : Transaction K V) {i : Nat} {c : V × Nat}
    (ha : Allowed σ tx.sessionId key i c) :
    ∃ draws, σ.getLocked tx key draws = (.ok (chosen key i c), σ.afterGet tx key i c) := by
  have hne : versionsOf key σ.history ≠ [] := by
    intro hv
    have := (List.getElem?_eq_some_iff.mp ha.1).1
    simp [hv] at this
  exact KvStore.getLocked_reach (h.lookup_of_ne_nil hne) ((h.selectable_iff tx key i c).mpr ha)

/-! ## How floors move -/

/-- What an old transaction touched does not change. -/
theorem touched_concat {h : List (Transaction K V)} (t : Transaction K V) (k : K)
    {tx : Transaction K V} (htx : tx ∈ h) : touched (h ++ [t]) k tx = touched h k tx := by
  unfold touched
  cases hop : tx.op with
  | get p r => cases r <;> rfl
  | put p r =>
      dsimp only
      by_cases hk : p.key = k
      · rw [if_pos hk, if_pos hk, versionsOf_append, List.map_append, List.idxOf_append_of_mem]
        refine List.mem_map.mpr ⟨(p.value, tx.txId), mem_versionsOf.mpr ⟨tx, htx, r, ?_, rfl⟩, rfl⟩
        rw [hop, ← hk]
      · rw [if_neg hk, if_neg hk]

theorem sessionFloor_concat (h : List (Transaction K V)) (t : Transaction K V) (s : Int) (k : K) :
    sessionFloor (h ++ [t]) s k
      = if s = t.sessionId then max (sessionFloor h s k) (touched (h ++ [t]) k t)
        else sessionFloor h s k := by
  have hold : (h.filter (fun tx => tx.sessionId = s)).map (touched (h ++ [t]) k)
      = (h.filter (fun tx => tx.sessionId = s)).map (touched h k) :=
    List.map_congr_left (fun tx htx => touched_concat t k (List.mem_filter.mp htx).1)
  have hfold : ∀ (l : List Nat) (x : Nat), (l ++ [x]).foldr max 0 = max (l.foldr max 0) x := by
    intro l x
    induction l with
    | nil => simp
    | cons y l ih => simp [ih, max_assoc]
  unfold sessionFloor
  rw [filter_session_concat]
  by_cases hs : s = t.sessionId
  · rw [if_pos hs, if_pos hs, List.map_append, List.map_singleton, hfold, hold]
  · rw [if_neg hs, if_neg hs, hold]

/-- A PUT raises its own session's floor to the version it adds. -/
theorem sessionFloor_put (h : WellFormed σ) (hfresh : tx.txId ∉ σ.history.map (·.txId)) (v : V)
    (s : Int) (k : K) :
    sessionFloor (σ.history ++ [tx.setPutResponse key v]) s k
      = if s = tx.sessionId ∧ k = key then (versionsOf key σ.history).length + 1
        else sessionFloor σ.history s k := by
  rw [sessionFloor_concat, Transaction.setPutResponse_sessionId]
  by_cases hs : s = tx.sessionId
  · by_cases hk : k = key
    · subst hk
      have hnew : touched (σ.history ++ [tx.setPutResponse k v]) k (tx.setPutResponse k v)
          = (versionsOf k σ.history).length + 1 := by
        have hni : tx.txId ∉ (versionsOf k σ.history).map Prod.snd :=
          fun hm => hfresh ((versionsOf_ids_sublist k σ.history).subset hm)
        unfold touched
        rw [Transaction.setPutResponse_op]
        dsimp only
        rw [if_pos rfl, versionsOf_concat_put, if_pos rfl, List.map_append,
          Transaction.setPutResponse_txId, List.idxOf_append_of_notMem hni]
        simp
      rw [if_pos hs, if_pos ⟨hs, rfl⟩, hnew]
      have := h.sessionFloor_le_length s k
      omega
    · have hk' : ¬ key = k := fun he => hk he.symm
      have hnew : touched (σ.history ++ [tx.setPutResponse key v]) k (tx.setPutResponse key v)
          = 0 := by simp [touched, hk']
      rw [if_pos hs, if_neg (fun hh => hk hh.2), hnew]
      omega
  · rw [if_neg hs, if_neg (fun hh => hs hh.1)]

/-- A GET raises its own session's floor to the version it returned. -/
theorem sessionFloor_get (σ : KvStore K V) (tx : Transaction K V) (key : K) (i : Nat)
    (c : V × Nat) (s : Int) (k : K) :
    sessionFloor (σ.history ++ [tx.setResponse key (chosen key i c)]) s k
      = if s = tx.sessionId ∧ k = key then max (sessionFloor σ.history s key) (i + 1)
        else sessionFloor σ.history s k := by
  rw [sessionFloor_concat, Transaction.setResponse_sessionId]
  by_cases hs : s = tx.sessionId
  · by_cases hk : k = key
    · subst hk
      rw [if_pos hs, if_pos ⟨hs, rfl⟩]
      simp [touched, chosen]
    · have hk' : ¬ key = k := fun he => hk he.symm
      rw [if_pos hs, if_neg (fun hh => hk hh.2)]
      simp [touched, hk']
  · rw [if_neg hs, if_neg (fun hh => hs hh.1)]

end WellFormed

/-! ## Selectors without state -/

theorem enter_readSelector {σ : KvStore K V} {sel : ReadResponseSelector} (hsel : sel.next = sel)
    (h : σ.readSelector = sel) (hwf : WellFormed σ) (tx : Transaction K V) (draws : Draws) :
    (σ.enter tx draws).2.readSelector = sel := by
  rcases hwf.enter_cases tx draws with ⟨p, r, -, heq⟩ | heq | ⟨p, r, i, c, -, -, heq⟩
  · rw [heq]; exact h
  · rw [heq]; exact h
  · rw [heq, KvStore.afterGet_readSelector, h, hsel]

/-- The causal and the linearizable selector stay what they are through a run. -/
theorem run_readSelector {sel : ReadResponseSelector} (hsel : sel.next = sel)
    (acts : List (Act K V)) {w : World K V} (hr : Reachable w) (h : w.store.readSelector = sel) :
    (w.run acts).store.readSelector = sel := by
  induction acts generalizing w with
  | nil => exact h
  | cons a acts ih =>
      refine ih (hr.act a) ?_
      rcases act_cases (worldOk_reachable hr) a with heq | ⟨-, draws, tx, -, -, -, heq⟩
      · rw [heq]; exact h
      · rw [heq]; exact enter_readSelector hsel h (wellFormed_reachable hr) tx draws

/-! ## Failing reads -/

/-- What `_get` at the store amounts to for the client that called it. -/
theorem World._get_fst (w : World K V) (key : K) (s : Int) (draws : Draws) :
    (w._get key s draws).1
      = (w.store.getLocked (w.newTransaction (.get ⟨key⟩ none) s).1 key draws).1 := rfl

/-- The world after a GET, where only the store and the id counter have moved. -/
theorem World._get_snd (w : World K V) (key : K) (s : Int) (draws : Draws) :
    (w._get key s draws).2
      = { w with
          store := (w.store.getLocked (w.newTransaction (.get ⟨key⟩ none) s).1 key draws).2
          txCount := w.txCount + 1 } := rfl

theorem World._get_store (w : World K V) (key : K) (s : Int) (draws : Draws) :
    (w._get key s draws).2.store
      = (w.store.getLocked (w.newTransaction (.get ⟨key⟩ none) s).1 key draws).2 := rfl

/-- **A GET can be given any version allowed to its session.** -/
theorem World._get_pick {w : World K V} (h : Reachable w) {s : Int} {key : K} {i : Nat}
    {c : V × Nat} (ha : Allowed w.store s key i c) :
    ∃ draws, (w._get key s draws).1 = .ok (chosen key i c)
      ∧ (w._get key s draws).2.store
          = w.store.afterGet (w.newTransaction (.get ⟨key⟩ none) s).1 key i c := by
  obtain ⟨draws, heq⟩ := (wellFormed_reachable h).getLocked_pick
    (w.newTransaction (.get ⟨key⟩ none) s).1 ha
  refine ⟨draws, ?_, ?_⟩
  · rw [World._get_fst, heq]
  · rw [World._get_store, heq]

/--
**Reads of existing keys never fail, and failing reads change nothing.** Whichever
transaction enters, in whatever reachable state and with whatever draws: without a PUT
on the key it throws `key_not_found_exception` and leaves the store as it is; with one
it returns, because the candidates include one the checker accepts. `get` and
`get_with_version` hand on exactly that.
-/
theorem get_fails_iff {w : World K V} (h : Reachable w) (key : K) (draws : Draws) :
    (∀ tx, ¬ WasPut key w.store.history →
        w.store.getLocked tx key draws = (.error (.keyNotFound key), w.store))
      ∧ (∀ tx, WasPut key w.store.history →
          (∃ r, (w.store.getLocked tx key draws).1 = .ok r)
          ∧ ∃ c ∈ newCandidates key ((w.store.kvMap.lookup key).getD []),
              w.store.isConsistent (tx.setResponse key c) = true)
      ∧ (∀ s, ((w.getWithVersion key s draws).1 = .error (.keyNotFound key)
            ↔ ¬ WasPut key w.store.history)
          ∧ ((w.get key s draws).1 = .error (.keyNotFound key) ↔ ¬ WasPut key w.store.history)
          ∧ (¬ WasPut key w.store.history →
              (w.getWithVersion key s draws).2.store = w.store
              ∧ (w.get key s draws).2.store = w.store)
          ∧ (WasPut key w.store.history →
              (∃ vn, (w.getWithVersion key s draws).1 = .ok vn)
              ∧ ∃ v, (w.get key s draws).1 = .ok v)) := by
  have hwf := wellFormed_reachable h
  have hmiss : ∀ tx, ¬ WasPut key w.store.history →
      w.store.getLocked tx key draws = (.error (.keyNotFound key), w.store) := by
    intro tx hno
    rw [wasPut_iff, not_not] at hno
    exact KvStore.getLocked_none (hwf.lookup_eq_none.mpr hno)
  have hhit : ∀ tx, WasPut key w.store.history →
      ∃ r, (w.store.getLocked tx key draws).1 = .ok r := by
    intro tx hput
    rcases hwf.getLocked_spec tx key draws with ⟨hv, -⟩ | ⟨i, c, -, heq⟩
    · exact absurd hv (wasPut_iff.mp hput)
    · exact ⟨_, by rw [heq]⟩
  refine ⟨hmiss, fun tx hput => ⟨hhit tx hput, ?_⟩, fun s => ?_⟩
  · have hv := wasPut_iff.mp hput
    have ha := hwf.allowed_last tx.sessionId (List.getLast?_eq_some_getLast hv)
    rw [hwf.lookup_of_ne_nil hv]
    refine ⟨_, mem_newCandidates.mpr ⟨_, _, ha.1, rfl⟩, ?_⟩
    rw [KvStore.isConsistent_versionNumber]
    exact (hwf.isConsistent_iff ha.1).mpr ha.2.1
  · by_cases hput : WasPut key w.store.history
    · obtain ⟨r, hr⟩ := hhit (w.newTransaction (.get ⟨key⟩ none) s).1 hput
      rw [← World._get_fst] at hr
      have h1 : (w.getWithVersion key s draws).1 = .ok (r.value, r.versionNumber) := by
        simp [World.getWithVersion, hr, Except.map]
      have h2 : (w.get key s draws).1 = .ok r.value := by
        simp [World.get, hr, Except.map]
      simp [h1, h2, hput]
    · have hstore := congrArg Prod.snd (hmiss (w.newTransaction (.get ⟨key⟩ none) s).1 hput)
      have hr := congrArg Prod.fst (hmiss (w.newTransaction (.get ⟨key⟩ none) s).1 hput)
      rw [← World._get_fst] at hr
      have h1 : (w.getWithVersion key s draws).1 = .error (.keyNotFound key) := by
        simp [World.getWithVersion, hr, Except.map]
      have h2 : (w.get key s draws).1 = .error (.keyNotFound key) := by
        simp [World.get, hr, Except.map]
      simp only [h1, h2, hput, not_false_eq_true, iff_self, true_and, forall_const, false_implies,
        and_true]
      exact ⟨hstore, hstore⟩

theorem get_fails_iff_example :
    (((World.init .causal).put 7 50 1 : World Nat Nat).getWithVersion 8 1 zeroDraws).1
      = .error (.keyNotFound 8) :=
  (((get_fails_iff (Reachable.init .causal |>.put 7 50 1) 8 zeroDraws).2.2 1).1).mpr
    (by simp [WasPut, World.put, World.newTransaction, World.init, KvStore.putLocked,
      KvStore.commitTx])

end MockDB
