import MockDB.Proof.SessionReads
import Mathlib.Data.List.Range

/-!
# How weak a k-causal store is

The selector counts the reads it answers and is weak only for the `k` ids it picked.
Every read it answers is committed, so its counter is the number of GETs in the
history, and a stale GET is one whose number was picked.
-/

namespace MockDB

variable {K V : Type} [DecidableEq K]

/-- The number of GETs in a history. -/
def getCount (h : List (Transaction K V)) : Nat := h.countP (fun tx => !tx.op.isPut)

/-- Whether `tx`, committed after `h`, returned another PUT than the latest on its key. -/
def isStale (h : List (Transaction K V)) (tx : Transaction K V) : Bool :=
  match tx.op with
  | .get params (some r) =>
      decide ((versionsOf params.key h).getLast?.map Prod.snd ≠ some r.writtenByTxId)
  | _ => false

/-- How many GETs of a history were stale when they were answered. -/
def staleCount (h : List (Transaction K V)) : Nat :=
  (List.range h.length).countP (fun n => h[n]?.any (isStale (h.take n)))

/-- The k-causal selector of a run: constructed, then initialised once. -/
def kCausalSelector (k totalReadCount : Nat)
    (readIds : KCausalReadResponseSelector.Shuffle totalReadCount) :
    KCausalReadResponseSelector :=
  (KCausalReadResponseSelector.new k totalReadCount).initConsistencyChecker readIds

theorem staleCount_concat (h : List (Transaction K V)) (tx : Transaction K V) :
    staleCount (h ++ [tx]) = staleCount h + if isStale h tx then 1 else 0 := by
  unfold staleCount
  rw [List.length_append, List.length_singleton, List.range_succ, List.countP_append]
  congr 1
  · refine List.countP_congr (fun n hn => ?_)
    have hlt := List.mem_range.mp hn
    rw [List.getElem?_append_left hlt, ListOrder.take_concat (Nat.le_of_lt hlt)]
  · cases hs : isStale h tx <;> simp [hs]

/-- A GET that took the last version is not stale. -/
theorem isStale_last {h : List (Transaction K V)} {tx : Transaction K V} {key : K} {i : Nat}
    {c : V × Nat} (hc : (versionsOf key h)[i]? = some c)
    (hi : i + 1 = (versionsOf key h).length) :
    isStale h (tx.setResponse key (chosen key i c)) = false := by
  have hlast : (versionsOf key h).getLast? = some c := by
    rw [List.getLast?_eq_getElem?, ← hi, Nat.add_sub_cancel]
    exact hc
  simp [isStale, hlast, chosen]

/-- The picked ids are `k` of the ids `1 … total_read_count`. -/
theorem kReadIds_bound (k total : Nat) (readIds : KCausalReadResponseSelector.Shuffle total) :
    (kCausalSelector k total readIds).kReadIds.card ≤ k
      ∧ ∀ id ∈ (kCausalSelector k total readIds).kReadIds, 1 ≤ id ∧ id ≤ total := by
  have heq : (kCausalSelector k total readIds).kReadIds = (readIds.val.take k).toFinset := by
    simp [kCausalSelector, KCausalReadResponseSelector.new,
      KCausalReadResponseSelector.initConsistencyChecker,
      KCausalReadResponseSelector.pickKReadIds]
  rw [heq]
  constructor
  · exact Nat.le_trans (List.toFinset_card_le _) (List.length_take_le _ _)
  · intro id hid
    have hmem : id ∈ readIds.val := List.mem_of_mem_take (List.mem_toFinset.mp hid)
    have := List.mem_range'.mp (readIds.property.mem_iff.mp hmem)
    omega

/-- What the selector's counters say about the history, `sel` being the selector the run
started with. -/
structure KCausalInv (sel : KCausalReadResponseSelector) (σ : KvStore K V) : Prop where
  wellFormed : WellFormed σ
  /-- The counter is the number of GETs committed. -/
  selector : σ.readSelector = .kCausal { sel with readCount := getCount σ.history }
  /-- Stale GETs had picked numbers. -/
  stale : staleCount σ.history
    ≤ (sel.kReadIds.filter (fun id => id ≤ getCount σ.history)).card
  /-- A GET whose number was not picked returned the latest PUT. -/
  fresh : ∀ n tx, σ.history[n]? = some tx → tx.op.isPut = false →
    getCount (σ.history.take n) + 1 ∉ sel.kReadIds → isStale (σ.history.take n) tx = false

namespace KCausalInv

variable {sel : KCausalReadResponseSelector} {σ : KvStore K V} {tx : Transaction K V} {key : K}

/-- Whether the next GET is weak is whether its number was picked. -/
theorem isWeak_iff (h : KCausalInv sel σ) :
    σ.readSelector.isWeak = true ↔ getCount σ.history + 1 ∈ sel.kReadIds := by
  rw [h.selector]
  simp [ReadResponseSelector.isWeak]

theorem putLocked (h : KCausalInv sel σ) (hfresh : tx.txId ∉ σ.history.map (·.txId)) (v : V) :
    KCausalInv sel (σ.putLocked tx key v) := by
  have hcount : getCount (σ.history ++ [tx.setPutResponse key v]) = getCount σ.history := by
    simp [getCount]
  refine ⟨h.wellFormed.putLocked hfresh v, ?_, ?_, ?_⟩
  · rw [KvStore.putLocked_readSelector, KvStore.putLocked_history, hcount]
    exact h.selector
  · rw [KvStore.putLocked_history, hcount, staleCount_concat]
    have : isStale σ.history (tx.setPutResponse key v) = false := rfl
    simpa [this] using h.stale
  · intro n t hn hget hid
    rw [KvStore.putLocked_history] at hn hid ⊢
    rcases ListOrder.getElem?_concat hn with ⟨hlt, hold⟩ | ⟨-, rfl⟩
    · rw [ListOrder.take_concat (Nat.le_of_lt hlt)] at hid ⊢
      exact h.fresh n t hold hget hid
    · exact absurd hget (by simp)

theorem afterGet (h : KCausalInv sel σ) (hfresh : tx.txId ∉ σ.history.map (·.txId)) {i : Nat}
    {c : V × Nat} (ha : Allowed σ tx.sessionId key i c) :
    KCausalInv sel (σ.afterGet tx key i c) := by
  have hcount : getCount (σ.history ++ [tx.setResponse key (chosen key i c)])
      = getCount σ.history + 1 := by simp [getCount]
  have hlatest : getCount σ.history + 1 ∉ sel.kReadIds →
      isStale σ.history (tx.setResponse key (chosen key i c)) = false := by
    intro hid
    refine isStale_last ha.1 (ha.2.2 ?_)
    rw [← h.isWeak_iff] at hid
    simpa using hid
  refine ⟨h.wellFormed.afterGet hfresh ha.1, ?_, ?_, ?_⟩
  · rw [KvStore.afterGet_readSelector, KvStore.afterGet_history, hcount, h.selector]
    rfl
  · rw [KvStore.afterGet_history, hcount, staleCount_concat]
    by_cases hid : getCount σ.history + 1 ∈ sel.kReadIds
    · -- a picked number: one more stale read is allowed
      have hsplit : sel.kReadIds.filter (fun id => id ≤ getCount σ.history + 1)
          = insert (getCount σ.history + 1)
              (sel.kReadIds.filter (fun id => id ≤ getCount σ.history)) := by
        ext id
        simp only [Finset.mem_filter, Finset.mem_insert]
        constructor
        · rintro ⟨hm, hle⟩
          rcases Nat.lt_or_ge (getCount σ.history) id with hlt | hge
          · exact Or.inl (by omega)
          · exact Or.inr ⟨hm, hge⟩
        · rintro (rfl | ⟨hm, hle⟩)
          · exact ⟨hid, Nat.le_refl _⟩
          · exact ⟨hm, by omega⟩
      rw [hsplit, Finset.card_insert_of_notMem (by simp)]
      have := h.stale
      split <;> omega
    · rw [hlatest hid]
      have hmono : (sel.kReadIds.filter (fun id => id ≤ getCount σ.history)).card
          ≤ (sel.kReadIds.filter (fun id => id ≤ getCount σ.history + 1)).card := by
        refine Finset.card_le_card (fun id hid' => ?_)
        simp only [Finset.mem_filter] at hid' ⊢
        exact ⟨hid'.1, by omega⟩
      have := h.stale
      simp only [Bool.false_eq_true, if_false]
      omega
  · intro n t hn hget hid
    rw [KvStore.afterGet_history] at hn hid ⊢
    rcases ListOrder.getElem?_concat hn with ⟨hlt, hold⟩ | ⟨heq, rfl⟩
    · rw [ListOrder.take_concat (Nat.le_of_lt hlt)] at hid ⊢
      exact h.fresh n t hold hget hid
    · subst heq
      rw [List.take_left] at hid ⊢
      exact hlatest hid

theorem enter (h : KCausalInv sel σ) (hfresh : tx.txId ∉ σ.history.map (·.txId))
    (draws : Draws) : KCausalInv sel (σ.enter tx draws).2 := by
  rcases h.wellFormed.enter_cases tx draws with
    ⟨p, r, -, heq⟩ | heq | ⟨p, r, i, c, -, ha, heq⟩
  · rw [heq]; exact h.putLocked hfresh p.value
  · rw [heq]; exact h
  · rw [heq]; exact h.afterGet hfresh ha

end KCausalInv

/-- The waiting transactions of a run that never swaps its selector. -/
theorem kCausalInv_act {sel : KCausalReadResponseSelector} {w : World K V} (hok : WorldOk w)
    (h : KCausalInv sel w.store) (a : Act K V) : KCausalInv sel (w.act a).store := by
  rcases act_cases hok a with heq | ⟨-, draws, tx, -, -, hfresh, heq⟩
  · rw [heq]; exact h
  · rw [heq]; exact h.enter hfresh draws

theorem kCausalInv_run (k total : Nat) (readIds : KCausalReadResponseSelector.Shuffle total)
    (acts : List (Act K V)) :
    KCausalInv (kCausalSelector k total readIds)
      ((World.init (.kCausal (kCausalSelector k total readIds))).run acts).store := by
  have hinit : KCausalInv (kCausalSelector k total readIds)
      (World.init (.kCausal (kCausalSelector k total readIds)) : World K V).store :=
    ⟨WellFormed.init _, rfl, by simp [World.init, staleCount], by
      intro n tx hn; simp [World.init] at hn⟩
  have hrun : ∀ (acts : List (Act K V)) (w : World K V), WorldOk w →
      KCausalInv (kCausalSelector k total readIds) w.store →
      KCausalInv (kCausalSelector k total readIds) (w.run acts).store := by
    intro acts
    induction acts with
    | nil => intro w _ h; exact h
    | cons a acts ih =>
        intro w hok h
        exact ih _ (worldOk_act hok a) (kCausalInv_act hok h a)
  exact hrun acts _ (worldOk_init _) hinit

/--
**The k-causal bound.** For every shuffle of the read ids and every run under a
k-causal selector: at most `k` GETs returned anything but the latest PUT on their key,
none after the first `total_read_count` did, reads of existing keys succeed, and each
response is one the causal checker accepts where it was made. Nothing here needs
`k ≤ total_read_count`, which is what keeps the code's iterator inside `read_ids`.
-/
theorem kCausal_bound (k total : Nat)
    (readIds : KCausalReadResponseSelector.Shuffle total) (acts : List (Act K V)) :
    let σ := ((World.init (.kCausal (kCausalSelector k total readIds))).run acts).store
    staleCount σ.history ≤ k
      ∧ (∀ n tx, σ.history[n]? = some tx → tx.op.isPut = false →
          total ≤ getCount (σ.history.take n) → isStale (σ.history.take n) tx = false)
      ∧ (∀ tx key draws, WasPut key σ.history → ∃ r, (σ.getLocked tx key draws).1 = .ok r)
      ∧ (∀ tx key draws r, (σ.getLocked tx key draws).1 = .ok r →
          σ.isConsistent (tx.setResponse key r) = true) := by
  intro σ
  have hinv := kCausalInv_run (K := K) (V := V) k total readIds acts
  obtain ⟨hcard, hrange⟩ := kReadIds_bound k total readIds
  refine ⟨?_, ?_, ?_, ?_⟩
  · exact Nat.le_trans hinv.stale (Nat.le_trans (Finset.card_filter_le _ _) hcard)
  · intro n tx hn hget htotal
    refine hinv.fresh n tx hn hget (fun hid => ?_)
    exact absurd htotal (Nat.not_le.mpr (Nat.lt_of_succ_le (hrange _ hid).2))
  · intro tx key draws hput
    rcases hinv.wellFormed.getLocked_spec tx key draws with ⟨hv, -⟩ | ⟨i, c, -, heq⟩
    · exact absurd hv (wasPut_iff.mp hput)
    · exact ⟨_, by rw [heq]⟩
  · intro tx key draws r hr
    rcases hinv.wellFormed.getLocked_spec tx key draws with ⟨-, heq⟩ | ⟨i, c, ha, heq⟩
    · rw [heq] at hr; exact absurd hr (by simp)
    · rw [heq] at hr
      have hrc : chosen key i c = r := Except.ok.inj hr
      rw [← hrc]
      exact (hinv.wellFormed.isConsistent_iff ha.1).mpr ha.2.1

end MockDB
