import MockDB.Spec.SessionFloor
import MockDB.Proof.WellFormed
import Mathlib.Order.Bounds.Defs

/-!
# The checker is a high-water mark

`is_consistent` collects writer ids and counts how many of them the history scan
passes before the candidate's writer. Ids are unique, every id collected is a PUT on
the key, and versions are numbered in history order; so the count is complete exactly
when the candidate is no older than anything its session has touched of the key.
-/

namespace MockDB

variable {K V : Type} [DecidableEq K]

/-! ## Which writers are collected -/

/-- The writer one session transaction contributes to `dependent_txs`. -/
def dependsOn (key : K) (tx : Transaction K V) : Option Nat :=
  match tx.op with
  | .put params _ => if params.key = key then some tx.txId else none
  | .get params response => if params.key = key then response.map (·.writtenByTxId) else none

namespace KvStore

theorem insertDependent_eq (key : K) (deps : Finset Nat) (tx : Transaction K V) :
    insertDependent key deps tx
      = match dependsOn key tx with
        | some d => insert d deps
        | none => deps := by
  unfold insertDependent dependsOn
  cases tx.op with
  | put p r => by_cases hk : p.key = key <;> simp [hk]
  | get p r =>
      by_cases hk : p.key = key
      · cases r <;> simp [hk]
      · simp [hk]

theorem mem_dependentTxs {σ : KvStore K V} {key : K} {s : Int} {d : Nat} :
    d ∈ σ.dependentTxs key s ↔ ∃ tx ∈ σ.getSessionHistory s, dependsOn key tx = some d := by
  have hfold : ∀ (l : List (Transaction K V)) (deps : Finset Nat),
      d ∈ l.foldl (insertDependent key) deps ↔
        d ∈ deps ∨ ∃ tx ∈ l, dependsOn key tx = some d := by
    intro l
    induction l with
    | nil => intro deps; simp
    | cons tx l ih =>
        intro deps
        rw [List.foldl_cons, ih, insertDependent_eq]
        cases hd : dependsOn key tx with
        | none => simp [hd]
        | some d' =>
            simp only [Finset.mem_insert, List.mem_cons, exists_eq_or_imp, hd, Option.some.injEq]
            constructor
            · rintro ((rfl | hm) | hm)
              · exact Or.inr (Or.inl rfl)
              · exact Or.inl hm
              · exact Or.inr (Or.inr hm)
            · rintro (hm | rfl | hm)
              · exact Or.inl (Or.inr hm)
              · exact Or.inl (Or.inl rfl)
              · exact Or.inr hm
  unfold dependentTxs
  rw [hfold]
  simp

/-! ## The scan -/

omit [DecidableEq K] in
/-- The scan stops at the first transaction with the id it looks for. -/
theorem committedBefore_append (deps : Finset Nat) {pre : List (Transaction K V)}
    {t : Transaction K V} (post : List (Transaction K V)) (n : Nat)
    (hpre : t.txId ∉ pre.map (·.txId)) :
    committedBefore deps t.txId n (pre ++ t :: post)
      = (n + ((pre ++ [t]).map (·.txId)).countP (fun d => d ∈ deps) == deps.card) := by
  induction pre generalizing n with
  | nil =>
      rw [List.nil_append, committedBefore]
      by_cases ht : t.txId ∈ deps <;> simp [ht]
  | cons x pre ih =>
      have hx : x.txId ≠ t.txId := fun he => hpre (by simp [he])
      have hpre' : t.txId ∉ pre.map (·.txId) := fun hm => hpre (by simp [hm])
      rw [List.cons_append, committedBefore]
      simp only [if_neg hx, ih _ hpre']
      by_cases hd : x.txId ∈ deps
      · simp only [hd, if_true, List.cons_append, List.map_cons, List.countP_cons, decide_true]
        rw [show n + 1 + ((pre ++ [t]).map (·.txId)).countP (fun d => d ∈ deps)
          = n + (((pre ++ [t]).map (·.txId)).countP (fun d => d ∈ deps) + 1) by omega]
      · simp [hd]

end KvStore

/-- Unique ids are all counted iff they are all there. -/
theorem countP_mem_eq_card {l : List Nat} (hnd : l.Nodup) (s : Finset Nat) :
    l.countP (fun d => d ∈ s) = s.card ↔ ∀ d ∈ s, d ∈ l := by
  have hcount : l.countP (fun d => d ∈ s) = (s ∩ l.toFinset).card := by
    rw [List.countP_eq_length_filter,
      ← List.toFinset_card_of_nodup (hnd.filter _)]
    congr 1
    ext d
    simp [and_comm]
  rw [hcount]
  constructor
  · intro hcard d hd
    have heq : s ∩ l.toFinset = s :=
      Finset.eq_of_subset_of_card_le Finset.inter_subset_left (Nat.le_of_eq hcard.symm)
    rw [← heq] at hd
    exact List.mem_toFinset.mp (Finset.mem_inter.mp hd).2
  · intro hall
    congr 1
    exact Finset.inter_eq_left.mpr (fun d hd => List.mem_toFinset.mpr (hall d hd))

namespace WellFormed

variable {σ : KvStore K V} {key : K} {s : Int}

/-! ## Positions of versions -/

theorem versions_nodup (h : WellFormed σ) (key : K) :
    ((versionsOf key σ.history).map Prod.snd).Nodup :=
  h.ids.sublist (versionsOf_ids_sublist key σ.history)

/-- An id sits at one position of the version list. -/
theorem idxOf_version (h : WellFormed σ) {i : Nat} {c : V × Nat}
    (hc : (versionsOf key σ.history)[i]? = some c) :
    ((versionsOf key σ.history).map Prod.snd).idxOf c.2 = i := by
  obtain ⟨hi, hci⟩ := List.getElem?_eq_some_iff.mp hc
  have hi' : i < ((versionsOf key σ.history).map Prod.snd).length := by simpa using hi
  have := (h.versions_nodup key).idxOf_getElem i hi'
  rw [List.getElem_map, hci] at this
  exact this

/-- Versions keep their positions as the history grows. -/
theorem version_of_take {h : List (Transaction K V)} {n i : Nat} {c : V × Nat}
    (hc : (versionsOf key (h.take n))[i]? = some c) : (versionsOf key h)[i]? = some c := by
  have hsplit : versionsOf key h = versionsOf key (h.take n) ++ versionsOf key (h.drop n) := by
    rw [← versionsOf_append, List.take_append_drop]
  rw [hsplit, List.getElem?_append_left (List.getElem?_eq_some_iff.mp hc).1]
  exact hc

/-- A transaction either contributes no writer, or the writer of the version it touched. -/
theorem touched_eq (h : WellFormed σ) (key : K) {tx : Transaction K V} (htx : tx ∈ σ.history) :
    (dependsOn key tx = none ∧ touched σ.history key tx = 0)
      ∨ ∃ i c, (versionsOf key σ.history)[i]? = some c ∧ dependsOn key tx = some c.2
          ∧ touched σ.history key tx = i + 1 := by
  obtain ⟨n, hn⟩ := List.mem_iff_getElem?.mp htx
  have ha := h.answered n tx hn
  unfold Answered at ha
  unfold dependsOn touched
  cases hop : tx.op with
  | put p r =>
      by_cases hk : p.key = key
      · right
        obtain ⟨k, v⟩ := p
        dsimp only at hk
        subst hk
        have hmem : (v, tx.txId) ∈ versionsOf k σ.history :=
          mem_versionsOf.mpr ⟨tx, htx, r, hop, rfl⟩
        obtain ⟨i, hi⟩ := List.mem_iff_getElem?.mp hmem
        refine ⟨i, _, hi, by simp, ?_⟩
        have hidx := h.idxOf_version hi
        dsimp only at hidx ⊢
        rw [if_pos rfl, hidx]
      · left; simp [hk]
  | get p r =>
      rw [hop] at ha
      obtain ⟨i, c, hic, hr⟩ := ha
      subst hr
      by_cases hk : p.key = key
      · right
        refine ⟨i, c, version_of_take (hk ▸ hic), ?_, ?_⟩
        · simp [hk, chosen]
        · simp [hk, chosen]
      · left; simp [hk]

/-- No session has seen more of a key than there is. -/
theorem sessionFloor_le_length (h : WellFormed σ) (s : Int) (key : K) :
    sessionFloor σ.history s key ≤ (versionsOf key σ.history).length := by
  rw [sessionFloor_le]
  intro tx htx _
  rcases h.touched_eq key htx with ⟨-, h0⟩ | ⟨i, c, hi, -, ht⟩
  · omega
  · have := (List.getElem?_eq_some_iff.mp hi).1
    omega

/-- A version's writer is in the history up to position `n` iff the version is numbered
no higher than the one written at `n`. -/
theorem version_mem_take (h : WellFormed σ) {i j n : Nat} {c : V × Nat} {t : Transaction K V}
    (hn : σ.history[n]? = some t) (hput : putOn key t ≠ none)
    (hlen : (versionsOf key (σ.history.take n)).length = i)
    (hc : (versionsOf key σ.history)[j]? = some c) :
    c.2 ∈ (σ.history.take (n + 1)).map (·.txId) ↔ j ≤ i := by
  obtain ⟨m, tw, r, hm, hop, hid, hj⟩ := versionsOf_getElem?.mp hc
  have hmlt := (List.getElem?_eq_some_iff.mp hm).1
  have hnlt := (List.getElem?_eq_some_iff.mp hn).1
  have hmn : c.2 ∈ (σ.history.take (n + 1)).map (·.txId) ↔ m ≤ n := by
    constructor
    · intro hmem
      obtain ⟨tx, htx, htid⟩ := List.mem_map.mp hmem
      obtain ⟨m', hm'⟩ := List.mem_iff_getElem?.mp htx
      have hm'lt : m' < n + 1 :=
        Nat.lt_of_lt_of_le (List.getElem?_eq_some_iff.mp hm').1 (List.length_take_le _ _)
      rw [List.getElem?_take_of_lt hm'lt] at hm'
      -- the same id at two positions is one position
      have hl' : m' < (σ.history.map (·.txId)).length := by
        simpa using (List.getElem?_eq_some_iff.mp hm').1
      have heq : (σ.history.map (·.txId))[m']? = (σ.history.map (·.txId))[m]? := by
        rw [List.getElem?_map, List.getElem?_map, hm', hm]
        exact congrArg some (htid.trans hid.symm)
      have := (List.getElem?_inj hl' h.ids).mp heq
      omega
    · intro hle
      refine List.mem_map.mpr ⟨tw, ?_, hid⟩
      refine List.mem_iff_getElem?.mpr ⟨m, ?_⟩
      rw [List.getElem?_take_of_lt (by omega)]
      exact hm
  rw [hmn]
  constructor
  · intro hle
    have := ListOrder.length_filterMap_take_mono (f := putOn key) (l := σ.history) hle
    unfold versionsOf at hlen hj
    omega
  · intro hle
    by_contra hlt
    obtain ⟨b, hb⟩ := Option.ne_none_iff_exists'.mp hput
    have h1 := ListOrder.length_filterMap_take_succ (f := putOn key) hn hb
    have h2 := ListOrder.length_filterMap_take_mono (f := putOn key) (l := σ.history)
      (show n + 1 ≤ m by omega)
    unfold versionsOf at hlen hj
    omega

/--
**The checker is a high-water mark.** It accepts version `i` for a session iff that
version is numbered no lower than the session's floor.
-/
theorem isConsistent_iff (h : WellFormed σ) {tx : Transaction K V} {i : Nat} {c : V × Nat}
    (hc : (versionsOf key σ.history)[i]? = some c) :
    σ.isConsistent (tx.setResponse key (chosen key i c)) = true ↔
      sessionFloor σ.history tx.sessionId key ≤ i + 1 := by
  obtain ⟨n, t, r, hn, hop, hid, hlen⟩ := versionsOf_getElem?.mp hc
  have hput : putOn key t ≠ none := by rw [putOn_eq_some.mpr ⟨r, hop, hid⟩]; simp
  -- split the history at the writer of the candidate
  have hnlt := (List.getElem?_eq_some_iff.mp hn).1
  have htake : σ.history.take (n + 1) = σ.history.take n ++ [t] := by
    rw [List.take_add_one, hn]; rfl
  have hsplit : σ.history = σ.history.take n ++ t :: σ.history.drop (n + 1) := by
    rw [← List.singleton_append, ← List.append_assoc, ← htake, List.take_append_drop]
  have hpre : t.txId ∉ (σ.history.take n).map (·.txId) := by
    have hnd := h.ids
    rw [hsplit, List.map_append, List.nodup_append] at hnd
    intro hm
    exact hnd.2.2 _ hm t.txId (by simp) rfl
  have hnd' : ((σ.history.take (n + 1)).map (·.txId)).Nodup :=
    h.ids.sublist ((List.take_sublist _ _).map _)
  -- the scan counts the dependents in the prefix up to that writer
  have hscan : KvStore.committedBefore (σ.dependentTxs key tx.sessionId) c.2 0 σ.history = true ↔
      ∀ d ∈ σ.dependentTxs key tx.sessionId, d ∈ (σ.history.take (n + 1)).map (·.txId) := by
    rw [← countP_mem_eq_card hnd', htake]
    conv_lhs => rw [hsplit, ← hid]
    rw [KvStore.committedBefore_append _ _ _ hpre]
    simp
  have hcheck : σ.isConsistent (tx.setResponse key (chosen key i c)) = true ↔
      ∀ d ∈ σ.dependentTxs key tx.sessionId, d ∈ (σ.history.take (n + 1)).map (·.txId) := by
    rw [← hscan]
    show (if (σ.dependentTxs key tx.sessionId).card = 0 then true
      else KvStore.committedBefore (σ.dependentTxs key tx.sessionId) c.2 0 σ.history) = true ↔ _
    by_cases h0 : (σ.dependentTxs key tx.sessionId).card = 0
    · rw [if_pos h0, hscan]
      rw [Finset.card_eq_zero] at h0
      simp [h0]
    · rw [if_neg h0]
  rw [hcheck, sessionFloor_le]
  constructor
  · intro hall t' ht' hs
    rcases h.touched_eq key ht' with ⟨-, h0⟩ | ⟨j, c', hj, hdep, hto⟩
    · omega
    · have hmem : c'.2 ∈ σ.dependentTxs key tx.sessionId := by
        rw [KvStore.mem_dependentTxs, h.sessions]
        exact ⟨t', List.mem_filter.mpr ⟨ht', by simpa using hs⟩, hdep⟩
      have := (h.version_mem_take hn hput hlen hj).mp (hall _ hmem)
      omega
  · intro hall d hd
    rw [KvStore.mem_dependentTxs, h.sessions] at hd
    obtain ⟨t', ht', hdep⟩ := hd
    obtain ⟨ht', hs⟩ := List.mem_filter.mp ht'
    rcases h.touched_eq key ht' with ⟨hnone, -⟩ | ⟨j, c', hj, hdep', hto⟩
    · rw [hnone] at hdep; exact absurd hdep (by simp)
    · rw [hdep'] at hdep
      have hcd : c'.2 = d := Option.some.inj hdep
      rw [← hcd, h.version_mem_take hn hput hlen hj]
      have := hall t' ht' (by simpa using hs)
      omega

end WellFormed

/-! ## The mark, spelled out -/

section Mark

variable {w : World K V} {s : Int} {key : K}

/-- `c` is version `j` of `key`, counting from one: entry `j - 1` of `kv_map[key]`. -/
def VersionAt (σ : KvStore K V) (key : K) (j : Nat) (c : V × Nat) : Prop :=
  1 ≤ j ∧ ∃ versions, σ.kvMap.lookup key = some versions ∧ versions[j - 1]? = some c

/-- Session `s` has put version `j` of `key`, or a GET of its has returned it. -/
def PutOrReturned (σ : KvStore K V) (s : Int) (key : K) (j : Nat) : Prop :=
  ∃ c, VersionAt σ key j c ∧ ∃ tx ∈ σ.getSessionHistory s,
    (∃ v r, tx.op = .put ⟨key, v⟩ r ∧ tx.txId = c.2)
      ∨ ∃ r, tx.op = .get ⟨key⟩ (some r) ∧ r.writtenByTxId = c.2

theorem WellFormed.versionAt_iff {σ : KvStore K V} (h : WellFormed σ) {j : Nat} {c : V × Nat} :
    VersionAt σ key j c ↔ 1 ≤ j ∧ (versionsOf key σ.history)[j - 1]? = some c := by
  constructor
  · rintro ⟨hj, versions, hl, hc⟩
    exact ⟨hj, h.lookup_some hl ▸ hc⟩
  · rintro ⟨hj, hc⟩
    refine ⟨hj, _, h.lookup_of_ne_nil ?_, hc⟩
    intro hnil
    rw [hnil] at hc
    exact absurd hc (by simp)

/-- A transaction of the session touches a version iff the version is one it put or was
returned. -/
theorem WellFormed.putOrReturned_iff {σ : KvStore K V} (h : WellFormed σ) {j : Nat} :
    PutOrReturned σ s key j ↔
      1 ≤ j ∧ ∃ tx ∈ σ.history, tx.sessionId = s ∧ touched σ.history key tx = j := by
  have hdep : ∀ (tx : Transaction K V) (d : Nat), dependsOn key tx = some d ↔
      (∃ v r, tx.op = .put ⟨key, v⟩ r ∧ tx.txId = d)
        ∨ ∃ r, tx.op = .get ⟨key⟩ (some r) ∧ r.writtenByTxId = d := by
    intro tx d
    unfold dependsOn
    cases hop : tx.op with
    | put p r =>
        obtain ⟨k, v⟩ := p
        by_cases hk : k = key <;> simp [hk]
    | get p r =>
        obtain ⟨k⟩ := p
        by_cases hk : k = key
        · cases r <;> simp [hk]
        · simp [hk]
  unfold PutOrReturned
  simp only [h.versionAt_iff, h.sessions, ← hdep]
  constructor
  · rintro ⟨c, ⟨hj, hc⟩, tx, htx, hd⟩
    obtain ⟨htx', hs⟩ := List.mem_filter.mp htx
    refine ⟨hj, tx, htx', by simpa using hs, ?_⟩
    rcases h.touched_eq key htx' with ⟨hnone, -⟩ | ⟨i, c', hi, hd', ht⟩
    · rw [hnone] at hd; exact absurd hd (by simp)
    · rw [hd'] at hd
      have hcc : c'.2 = c.2 := Option.some.inj hd
      have hi' := h.idxOf_version hi
      have hj' := h.idxOf_version hc
      rw [hcc] at hi'
      omega
  · rintro ⟨hj, tx, htx, hs, ht⟩
    rcases h.touched_eq key htx with ⟨-, h0⟩ | ⟨i, c, hi, hd, hti⟩
    · omega
    · have hij : j - 1 = i := by omega
      exact ⟨c, ⟨hj, hij ▸ hi⟩, tx, List.mem_filter.mpr ⟨htx, by simpa using hs⟩, hd⟩

/-- The checker only looks at the session, the key and the writer. -/
theorem KvStore.isConsistent_congr (σ : KvStore K V) (tx tx' : Transaction K V)
    {p p' : GetParam K} {r r' : GetResponse K V} (hop : tx.op = .get p (some r))
    (hop' : tx'.op = .get p' (some r')) (hs : tx.sessionId = tx'.sessionId)
    (hkey : r.key = r'.key) (hwriter : r.writtenByTxId = r'.writtenByTxId) :
    σ.isConsistent tx = σ.isConsistent tx' := by
  unfold isConsistent
  rw [hop, hop']
  dsimp only
  rw [hs, hkey, hwriter]

/--
**The history-scanning checker is a per-session high-water mark.** In every reachable
state there is a greatest position `m` among the versions of `key` that session `s` has
put or been returned, zero if there are none, and `is_consistent` accepts a GET by `s`
that reads version `j` of `key` iff `j` is at least `m`.
-/
theorem isConsistent_iff_highWater (h : Reachable w) (s : Int) (key : K) :
    ∃ m, IsGreatest (insert 0 { j | PutOrReturned w.store s key j }) m
      ∧ ∀ (j : Nat) (c : V × Nat) (tx : Transaction K V) (r : GetResponse K V),
          VersionAt w.store key j c → tx.sessionId = s → tx.op = .get ⟨key⟩ (some r) →
          r.key = key → r.value = c.1 → r.writtenByTxId = c.2 →
          (w.store.isConsistent tx = true ↔ m ≤ j) := by
  have hwf := wellFormed_reachable h
  refine ⟨sessionFloor w.store.history s key, ⟨?_, ?_⟩, ?_⟩
  · -- the floor is zero or a position
    rcases Nat.eq_zero_or_pos (sessionFloor w.store.history s key) with h0 | hpos
    · exact Set.mem_insert_iff.mpr (Or.inl h0)
    · right
      obtain ⟨tx, htx, hs, ht⟩ := exists_touched_eq hpos
      exact hwf.putOrReturned_iff.mpr ⟨hpos, tx, htx, hs, ht⟩
  · rintro j (rfl | hj)
    · exact Nat.zero_le _
    · obtain ⟨-, tx, htx, rfl, rfl⟩ := hwf.putOrReturned_iff.mp hj
      exact touched_le_sessionFloor key htx
  · intro j c tx r hat hs hop hkey hval hwriter
    obtain ⟨hj, hc⟩ := hwf.versionAt_iff.mp hat
    rw [w.store.isConsistent_congr tx (tx.setResponse key (chosen key (j - 1) c)) hop
      (Transaction.setResponse_op _ _ _) rfl hkey hwriter, hwf.isConsistent_iff hc, hs,
      Nat.sub_add_cancel hj]

/-- Session 1 put version 2 of key 7, so a GET of version 1 is refused to it. -/
theorem isConsistent_iff_highWater_overtaking :
    ((World.init .causal).run overtaking).store.isConsistent
      ⟨4, 1, .get ⟨7⟩ (some (chosen 7 0 (60, 2)))⟩ ≠ true := by
  obtain ⟨m, ⟨-, hm⟩, hiff⟩ :=
    isConsistent_iff_highWater (reachable_run (.init .causal) overtaking) 1 7
  have hput : PutOrReturned ((World.init .causal).run overtaking).store 1 7 2 :=
    ⟨(50, 1), ⟨by decide, [(60, 2), (50, 1)], by decide, rfl⟩,
      ⟨1, 1, .put ⟨7, 50⟩ (some ⟨true⟩)⟩, by decide, Or.inl ⟨50, _, rfl, rfl⟩⟩
  have h2 : 2 ≤ m := hm (Or.inr hput)
  have hat : VersionAt ((World.init .causal).run overtaking).store 7 1 (60, 2) :=
    ⟨Nat.le_refl 1, [(60, 2), (50, 1)], by decide, rfl⟩
  rw [ne_eq, hiff 1 (60, 2) _ _ hat rfl rfl rfl rfl rfl]
  omega

end Mark

end MockDB
