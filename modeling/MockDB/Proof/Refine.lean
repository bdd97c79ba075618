import MockDB.Lib.SessionRegister
import MockDB.Proof.SessionReads

/-!
# The store refines the session registers

`registers` forgets ids and histories. A PUT is a `write`; a GET is a `read` of a
version its session may read, and under a weak selection every such read is possible.
So a client of a weak store can be reasoned about on the registers alone.
-/

namespace MockDB

variable {K V : Type} [DecidableEq K]

/-- The registers a history amounts to. -/
def registers (h : List (Transaction K V)) : SessionRegister K V Int where
  versions k := (versionsOf k h).map Prod.fst
  floor := sessionFloor h

namespace WellFormed

variable {σ : KvStore K V} {tx : Transaction K V} {key : K}

theorem registers_putLocked (h : WellFormed σ) (hfresh : tx.txId ∉ σ.history.map (·.txId))
    (v : V) :
    registers (σ.putLocked tx key v).history
      = (registers σ.history).write tx.sessionId key v := by
  unfold registers SessionRegister.write
  rw [KvStore.putLocked_history]
  congr 1
  · funext k
    rw [versionsOf_concat_put]
    by_cases hk : k = key
    · subst hk; simp
    · simp [hk]
  · funext s k
    rw [h.sessionFloor_put hfresh]
    simp

theorem registers_afterGet (tx : Transaction K V) {i : Nat} {c : V × Nat}
    (ha : Allowed σ tx.sessionId key i c) :
    registers (σ.afterGet tx key i c).history
      = (registers σ.history).read tx.sessionId key i := by
  unfold registers SessionRegister.read
  rw [KvStore.afterGet_history]
  congr 1
  · funext k
    rw [versionsOf_concat_get]
  · funext s k
    rw [sessionFloor_get]
    by_cases hs : s = tx.sessionId ∧ k = key
    · rw [if_pos hs, if_pos hs, hs.1]
      exact Nat.max_eq_right ha.2.1
    · rw [if_neg hs, if_neg hs]

/-- A version allowed to a session is one it may read off the registers. -/
theorem mayRead_of_allowed {s : Int} {i : Nat} {c : V × Nat} (ha : Allowed σ s key i c) :
    (registers σ.history).MayRead s key i c.1 := by
  refine ⟨?_, ha.2.1⟩
  show ((versionsOf key σ.history).map Prod.fst)[i]? = some c.1
  rw [List.getElem?_map, ha.1]
  rfl

/-- Under a weak selection the converse holds as well. -/
theorem allowed_of_mayRead {s : Int} {i : Nat} {v : V}
    (hw : σ.readSelector.isWeak = true) (hr : (registers σ.history).MayRead s key i v) :
    ∃ c, Allowed σ s key i c ∧ c.1 = v := by
  obtain ⟨hi, hf⟩ := hr
  have hi' : ((versionsOf key σ.history).map Prod.fst)[i]? = some v := hi
  rw [List.getElem?_map, Option.map_eq_some_iff] at hi'
  obtain ⟨c, hc, hcv⟩ := hi'
  exact ⟨c, .of_weak hw hc hf, hcv⟩

theorem registers_bounded (h : WellFormed σ) : (registers σ.history).Bounded := by
  intro s k
  have := h.sessionFloor_le_length s k
  simpa [registers] using this

end WellFormed

/-! ## Whole calls -/

theorem registers_init (sel : ReadResponseSelector) :
    registers (World.init sel : World K V).store.history = SessionRegister.empty := rfl

/-- `put` is a `write`. -/
theorem registers_put {w : World K V} (h : Reachable w) (key : K) (v : V) (s : Int) :
    registers (w.put key v s).store.history = (registers w.store.history).write s key v :=
  (wellFormed_reachable h).registers_putLocked (worldOk_reachable h).fresh v

/-- **`_get` is a `read` the session may make**, or fails on a key never written. -/
theorem registers_get {w : World K V} (h : Reachable w) (key : K) (s : Int) (draws : Draws) :
    ((registers w.store.history).versions key = []
        ∧ (w._get key s draws).1 = .error (.keyNotFound key)
        ∧ (w._get key s draws).2.store = w.store)
      ∨ ∃ i r, (registers w.store.history).MayRead s key i r.value ∧ r.versionNumber = i + 1
        ∧ (w.store.readSelector.isWeak = false →
            i + 1 = ((registers w.store.history).versions key).length)
        ∧ (w._get key s draws).1 = .ok r
        ∧ registers (w._get key s draws).2.store.history
            = (registers w.store.history).read s key i
        ∧ (w._get key s draws).2.store.readSelector = w.store.readSelector.next := by
  have hwf := wellFormed_reachable h
  rcases hwf.getLocked_spec (w.newTransaction (.get ⟨key⟩ none) s).1 key draws with
    ⟨hv, heq⟩ | ⟨i, c, ha, heq⟩
  · left
    refine ⟨by simp [registers, hv], ?_, ?_⟩
    · rw [World._get_fst, heq]
    · rw [World._get_store, heq]
  · right
    refine ⟨i, chosen key i c, WellFormed.mayRead_of_allowed ha, rfl, ?_, ?_, ?_, ?_⟩
    · intro hw
      have := ha.2.2 hw
      simpa [registers] using this
    · rw [World._get_fst, heq]
    · rw [World._get_store, heq]
      exact WellFormed.registers_afterGet _ ha
    · rw [World._get_store, heq]
      rfl

/-- **Every `read` a session may make is made** by a weak `_get`, for suitable draws. -/
theorem get_of_mayRead {w : World K V} (h : Reachable w) {key : K} {s : Int} {i : Nat} {v : V}
    (hw : w.store.readSelector.isWeak = true)
    (hr : (registers w.store.history).MayRead s key i v) :
    ∃ draws r, (w._get key s draws).1 = .ok r ∧ r.value = v ∧ r.versionNumber = i + 1
      ∧ registers (w._get key s draws).2.store.history
          = (registers w.store.history).read s key i := by
  obtain ⟨c, ha, hcv⟩ := WellFormed.allowed_of_mayRead hw hr
  obtain ⟨draws, hres, hstore⟩ := World._get_pick h ha
  refine ⟨draws, chosen key i c, hres, hcv, rfl, ?_⟩
  rw [hstore]
  exact WellFormed.registers_afterGet (w.newTransaction (.get ⟨key⟩ none) s).1 ha

end MockDB
