import MockDB.Proof.Refine

/-!
# The store as a map

Under the linearizable selector a client sees one value for each key, the latest put.
The number of keys, which any client sees, grows by one with each new key.
-/

namespace MockDB

variable {K V : Type} [DecidableEq K]

/-- The latest value of each key. -/
def World.latest (w : World K V) (key : K) : Option V :=
  ((registers w.store.history).versions key).getLast?

section Latest

variable {w : World K V}

theorem latest_eq_none {key : K} :
    w.latest key = none ↔ (registers w.store.history).versions key = [] :=
  List.getLast?_eq_none_iff

/-- A key has a latest value just if it is in the map. -/
theorem latest_eq_none_iff_lookup (h : Reachable w) {key : K} :
    w.latest key = none ↔ w.store.kvMap.lookup key = none := by
  rw [latest_eq_none, (wellFormed_reachable h).lookup_eq_none]
  exact List.map_eq_nil_iff

theorem latest_put (h : Reachable w) (key : K) (v : V) (s : Int) :
    (w.put key v s).latest = Function.update w.latest key (some v) := by
  funext k
  unfold World.latest
  rw [registers_put h]
  by_cases hk : k = key
  · subst hk
    rw [SessionRegister.write_versions_self, List.getLast?_concat, Function.update_self]
  · rw [SessionRegister.write_versions_ne _ _ _ hk, Function.update_of_ne hk]

theorem getSize_put (h : Reachable w) (key : K) (v : V) (s : Int) :
    (w.put key v s).store.getSize
      = if w.latest key = none then w.store.getSize + 1 else w.store.getSize := by
  obtain ⟨versions', hput⟩ : ∃ versions',
      (w.put key v s).store.kvMap = w.store.kvMap.insert key versions' := by
    show ∃ versions', (w.store.putLocked (w.newTransaction (.put ⟨key, v⟩ none) s).1 key v).kvMap
      = w.store.kvMap.insert key versions'
    unfold KvStore.putLocked
    cases w.store.kvMap.lookup key with
    | none => exact ⟨_, rfl⟩
    | some versions => exact ⟨_, rfl⟩
  show (w.put key v s).store.kvMap.keys.length = _
  rw [hput]
  have hnone : w.latest key = none ↔ w.store.kvMap.lookup key = none :=
    latest_eq_none_iff_lookup h
  cases hl : w.store.kvMap.lookup key with
  | none =>
      have hkey : key ∉ w.store.kvMap.keys := AList.lookup_eq_none.mp hl
      rw [if_pos (hnone.mpr hl), AList.keys_insert, List.length_cons,
        List.erase_of_not_mem hkey]
      rfl
  | some versions =>
      have hkey : key ∈ w.store.kvMap.keys := by
        by_contra hno
        rw [AList.lookup_eq_none.mpr hno] at hl
        cases hl
      rw [if_neg (by rw [hnone, hl]; exact Option.some_ne_none _), AList.keys_insert,
        List.length_cons, List.length_erase_of_mem hkey]
      exact Nat.sub_add_cancel (List.length_pos_of_mem hkey)

theorem getSize_get (h : Reachable w) (key : K) (s : Int) (draws : Draws) :
    (w.get key s draws).2.store.getSize = w.store.getSize := by
  show (w._get key s draws).2.store.getSize = w.store.getSize
  rw [World._get_store]
  rcases (wellFormed_reachable h).getLocked_spec (w.newTransaction (.get ⟨key⟩ none) s).1 key draws
    with ⟨-, heq⟩ | ⟨i, c, -, heq⟩
  · rw [heq]
  · rw [heq]; rfl

theorem Reachable.get (h : Reachable w) (key : K) (s : Int) (draws : Draws) :
    Reachable (w.get key s draws).2 := h._get key s draws

/-- **A strong GET** returns the latest value and changes no value. -/
theorem get_latest (h : Reachable w) (hsel : w.store.readSelector = .linearizable) (key : K)
    (s : Int) (draws : Draws) :
    (w.get key s draws).1 = (match w.latest key with
        | none => .error (.keyNotFound key)
        | some v => .ok v)
      ∧ (w.get key s draws).2.latest = w.latest
      ∧ (w.get key s draws).2.store.readSelector = .linearizable := by
  show (w._get key s draws).1.map (·.value) = _ ∧ (w._get key s draws).2.latest = _
    ∧ (w._get key s draws).2.store.readSelector = _
  rcases registers_get h key s draws with ⟨hv, hres, hst⟩ | ⟨i, r, hm, -, hi, hres, hreg, hsel'⟩
  · rw [latest_eq_none.mpr hv, hres]
    refine ⟨rfl, ?_, ?_⟩
    · funext k
      unfold World.latest
      rw [hst]
    · rw [hst, hsel]
  · have hlast : w.latest key = some r.value :=
      (hm.eq_last_of_index (hi (by rw [hsel]; rfl)))
    rw [hlast, hres]
    refine ⟨rfl, ?_, ?_⟩
    · funext k
      unfold World.latest
      rw [hreg]
      rfl
    · rw [hsel', hsel]
      rfl

/-- A strong GET as a whole: its answer, and the world after it. -/
theorem get_strong (h : Reachable w) (hsel : w.store.readSelector = .linearizable) {key : K}
    (s : Int) (draws : Draws) {res : Except (StoreException K) V}
    (hres : (w.get key s draws).1 = res) :
    ∃ w', w.get key s draws = (res, w') ∧ Reachable w'
      ∧ w'.store.readSelector = .linearizable ∧ w'.latest = w.latest
      ∧ w'.store.getSize = w.store.getSize := by
  obtain ⟨-, hlat, hsel'⟩ := get_latest h hsel key s draws
  exact ⟨_, Prod.ext hres rfl, h.get key s draws, hsel', hlat, getSize_get h key s draws⟩

theorem get_ok (h : Reachable w) (hsel : w.store.readSelector = .linearizable) {key : K} {v : V}
    (hv : w.latest key = some v) (s : Int) (draws : Draws) :
    ∃ w', w.get key s draws = (.ok v, w') ∧ Reachable w'
      ∧ w'.store.readSelector = .linearizable ∧ w'.latest = w.latest
      ∧ w'.store.getSize = w.store.getSize := by
  have hres := (get_latest h hsel key s draws).1
  rw [hv] at hres
  exact get_strong h hsel s draws hres

theorem get_error (h : Reachable w) (hsel : w.store.readSelector = .linearizable) {key : K}
    (hv : w.latest key = none) (s : Int) (draws : Draws) :
    ∃ w', w.get key s draws = (.error (.keyNotFound key), w') ∧ Reachable w'
      ∧ w'.store.readSelector = .linearizable ∧ w'.latest = w.latest
      ∧ w'.store.getSize = w.store.getSize := by
  have hres := (get_latest h hsel key s draws).1
  rw [hv] at hres
  exact get_strong h hsel s draws hres

end Latest

end MockDB
