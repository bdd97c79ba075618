import MockDB.Lib.Causal
import MockDB.Proof.SessionReads

/-!
# A history as an execution

Transactions are positions of the history. Session order and reads-from are read off
the transactions themselves, over all keys.
-/

namespace MockDB

open Causal

variable {K V : Type} [DecidableEq K]

omit [DecidableEq K] in
/-- The execution a history records. -/
def execution (h : List (Transaction K V)) : Execution Nat K where
  write n x := ∃ tx, h[n]? = some tx ∧ tx.op.isPut = true ∧ tx.op.key = x
  read n x := ∃ tx, h[n]? = some tx ∧ tx.op.isPut = false ∧ tx.op.key = x
  so m n := m < n ∧ ∃ a b, h[m]? = some a ∧ h[n]? = some b ∧ a.sessionId = b.sessionId
  wr m n := ∃ a b p r, h[m]? = some a ∧ a.op.isPut = true ∧ h[n]? = some b
    ∧ b.op = .get p (some r) ∧ r.writtenByTxId = a.txId

/-- The version number of the PUT on `x` at position `i`. -/
def versionAt (h : List (Transaction K V)) (x : K) (i : Nat) : Nat :=
  (versionsOf x (h.take i)).length + 1

/-- Later PUTs on a key have higher version numbers. -/
theorem versionAt_lt {h : List (Transaction K V)} {x : K} {i j : Nat}
    (hi : (execution h).write i x) (hij : i < j) : versionAt h x i < versionAt h x j := by
  obtain ⟨tx, hn, hput, hkey⟩ := hi
  obtain ⟨v, hv⟩ := putOn_of_write hput hkey
  have h1 := ListOrder.length_filterMap_take_succ (f := putOn x) hn hv
  have h2 := ListOrder.length_filterMap_take_mono (f := putOn x) (l := h)
    (show i + 1 ≤ j from hij)
  unfold versionAt versionsOf
  omega

/-- So PUTs on a key are ordered as their version numbers are. -/
theorem le_of_versionAt_le {h : List (Transaction K V)} {x : K} {i j : Nat}
    (hj : (execution h).write j x) (hle : versionAt h x i ≤ versionAt h x j) : i ≤ j := by
  by_contra hlt
  have := versionAt_lt hj (Nat.not_le.mp hlt)
  omega

/-- A version is written at a position of the history with its number. -/
theorem version_write {h : List (Transaction K V)} {x : K} {i : Nat} {c : V × Nat}
    (hc : (versionsOf x h)[i]? = some c) :
    ∃ n tx, h[n]? = some tx ∧ tx.txId = c.2 ∧ tx.op.isPut = true ∧ (execution h).write n x
      ∧ versionAt h x n = i + 1 := by
  obtain ⟨n, tx, r, hn, hop, hid, hi⟩ := versionsOf_getElem?.mp hc
  refine ⟨n, tx, hn, hid, by rw [hop]; rfl, ⟨tx, hn, by rw [hop]; rfl, by rw [hop]; rfl⟩, ?_⟩
  unfold versionAt
  rw [hi]

/-- A PUT on a key is one of its versions. -/
theorem write_version {h : List (Transaction K V)} {x : K} {n : Nat}
    (hw : (execution h).write n x) :
    ∃ c tx r, h[n]? = some tx ∧ tx.op = .put ⟨x, c.1⟩ r ∧ tx.txId = c.2
      ∧ (versionsOf x h)[versionAt h x n - 1]? = some c := by
  obtain ⟨tx, hn, hput, hkey⟩ := hw
  obtain ⟨v, hv⟩ := putOn_of_write hput hkey
  obtain ⟨r, hop, hid⟩ := putOn_eq_some.mp hv
  exact ⟨(v, tx.txId), tx, r, hn, hop, rfl, versionsOf_getElem?.mpr ⟨n, tx, r, hn, hop, hid, by
    simp [versionAt]⟩⟩

namespace WellFormed

variable {σ : KvStore K V}

/-- Equal ids are equal positions. -/
theorem position_unique (h : WellFormed σ) {m n : Nat} {a b : Transaction K V}
    (hm : σ.history[m]? = some a) (hn : σ.history[n]? = some b) (hid : a.txId = b.txId) :
    m = n := by
  have hlt : m < (σ.history.map (·.txId)).length := by
    simpa using (List.getElem?_eq_some_iff.mp hm).1
  refine (List.getElem?_inj hlt h.ids).mp ?_
  rw [List.getElem?_map, List.getElem?_map, hm, hn]
  exact congrArg some hid

/-- **A GET's response names the PUT it reads from**: on the same key, strictly before,
with the version number it carries. -/
theorem wr_spec (h : WellFormed σ) {m n : Nat} (hwr : (execution σ.history).wr m n) :
    ∃ b p r, σ.history[n]? = some b ∧ b.op = .get p (some r) ∧ m < n
      ∧ (execution σ.history).write m p.key
      ∧ r.versionNumber = versionAt σ.history p.key m := by
  obtain ⟨a, b, p, r, hm, hput, hn, hop, hid⟩ := hwr
  have ha := h.answered n b hn
  unfold Answered at ha
  rw [hop] at ha
  obtain ⟨i, c, hic, hr⟩ := ha
  have hrc : r = chosen p.key i c := Option.some.inj hr
  obtain ⟨m', tx, hm', htx, hput', hw, hver⟩ := version_write hic
  have hlt : m' < n := by
    have := (List.getElem?_eq_some_iff.mp hm').1
    exact Nat.lt_of_lt_of_le this (List.length_take_le n _)
  rw [List.getElem?_take_of_lt hlt] at hm'
  have hmm : m = m' := by
    refine h.position_unique hm hm' ?_
    rw [← hid, htx, hrc]
    rfl
  subst hmm
  refine ⟨b, p, r, hn, hop, hlt, ?_, ?_⟩
  · obtain ⟨t, ht, hp, hk⟩ := hw
    rw [List.getElem?_take_of_lt hlt] at ht
    exact ⟨t, ht, hp, hk⟩
  · rw [hrc]
    show i + 1 = _
    rw [← hver]
    unfold versionAt
    rw [List.take_take, Nat.min_eq_left (Nat.le_of_lt hlt)]

/-- What a transaction touched was written by itself or by the PUT it reads from. -/
theorem touched_write (h : WellFormed σ) (x : K) {q : Nat} {tx : Transaction K V}
    (hq : σ.history[q]? = some tx) :
    touched σ.history x tx = 0
      ∨ ∃ n, (execution σ.history).write n x ∧ versionAt σ.history x n = touched σ.history x tx
          ∧ (n = q ∨ (execution σ.history).wr n q) := by
  rcases h.touched_eq x (List.mem_iff_getElem?.mpr ⟨q, hq⟩) with ⟨-, h0⟩ | ⟨i, c, hic, hdep, ht⟩
  · exact Or.inl h0
  right
  obtain ⟨n, w, hn, hid, hput, hw, hver⟩ := version_write hic
  refine ⟨n, hw, by rw [hver, ht], ?_⟩
  unfold dependsOn at hdep
  cases hop : tx.op with
  | put p r =>
      rw [hop] at hdep
      have hid' : tx.txId = c.2 := (by simpa using hdep : p.key = x ∧ tx.txId = c.2).2
      exact Or.inl (h.position_unique hn hq (by rw [hid, hid']))
  | get p r =>
      rw [hop] at hdep
      obtain ⟨-, g, hg, hid'⟩ := (by simpa using hdep :
        p.key = x ∧ ∃ g, r = some g ∧ g.writtenByTxId = c.2)
      exact Or.inr ⟨w, tx, p, g, hn, hput, hq, hg ▸ hop, by rw [hid, hid']⟩

/-- Causality runs forward in the history. -/
theorem base_lt (h : WellFormed σ) (m n : Nat) (hb : (execution σ.history).Base m n) : m < n := by
  rcases hb with hso | hwr
  · exact hso.1
  · obtain ⟨_, _, _, _, _, hlt, _⟩ := h.wr_spec hwr
    exact hlt

end WellFormed

end MockDB
