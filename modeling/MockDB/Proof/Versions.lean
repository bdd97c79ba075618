import MockDB.Proof.Pending

/-!
# Version numbers name PUTs

`get_with_version` numbers a version by where it stands among the candidates of that
read. Version lists only grow at their end, so the number a PUT gets when it commits
is the one every later read of it returns, and a session's floor keeps the numbers it
is given from going down.
-/

namespace MockDB

variable {K V : Type} [DecidableEq K]

/-- The world before step `i` of a schedule. -/
def World.before (w : World K V) (acts : List (Act K V)) (i : Nat) : World K V :=
  w.run (acts.take i)

/-- At step `i`, `get_with_version` of `key` hands value `v` and number `n` to session `s`,
off the version that transaction `writer` put. -/
def GotAt (w : World K V) (acts : List (Act K V)) (i : Nat) (s : Int) (key : K) (v : V)
    (n writer : Nat) : Prop :=
  ∃ txId draws tx response r, acts[i]? = some (.enter txId draws)
    ∧ (w.before acts i).pending txId = some tx ∧ tx.sessionId = s
    ∧ tx.op = .get ⟨key⟩ response
    ∧ (w.before acts i).enterGetWithVersion txId draws = some (.ok (v, n))
    ∧ ((w.before acts i).store.getLocked tx key draws).1 = .ok r ∧ r.writtenByTxId = writer

/-- At step `i`, transaction `writer` of session `s` puts `v` on `key`, which becomes
version `n`. -/
def PutAt (w : World K V) (acts : List (Act K V)) (i : Nat) (s : Int) (key : K) (v : V)
    (n writer : Nat) : Prop :=
  ∃ draws tx response versions, acts[i]? = some (.enter writer draws)
    ∧ (w.before acts i).pending writer = some tx ∧ tx.sessionId = s
    ∧ tx.op = .put ⟨key, v⟩ response
    ∧ (w.before acts (i + 1)).store.kvMap.lookup key = some versions ∧ versions.length = n

/-! ## Histories grow at their end -/

/-- A step adds nothing to the history, the answer to a GET, or a PUT. -/
theorem act_history (w : World K V) (a : Act K V) :
    (w.act a).store.history = w.store.history
      ∨ (∃ (tx : Transaction K V) (key : K) (r : GetResponse K V),
          (w.act a).store.history = w.store.history ++ [tx.setResponse key r])
      ∨ ∃ (txId : Nat) (draws : Draws) (tx : Transaction K V) (key : K) (v : V)
          (r : Option PutResponse), a = .enter txId draws ∧ w.pending txId = some tx
          ∧ tx.op = .put ⟨key, v⟩ r
          ∧ (w.act a).store.history = w.store.history ++ [tx.setPutResponse key v] := by
  cases a with
  | create call s => exact Or.inl rfl
  | enter txId draws =>
      cases hp : w.pending txId with
      | none =>
          have hp' : w.waiting.find? (fun tx => tx.txId = txId) = none := hp
          exact Or.inl (by simp [World.act, hp'])
      | some tx =>
          cases hop : tx.op with
          | put p r =>
              refine Or.inr (Or.inr ⟨txId, draws, tx, p.key, p.value, r, rfl, hp, hop, ?_⟩)
              rw [(enter_put hp hop draws).2, KvStore.putLocked_history]
          | get p r =>
              rw [act_enter_eq hp]
              unfold KvStore.enter
              rw [hop]
              rcases KvStore.getLocked_history w.store tx p.key draws with heq | ⟨r', heq⟩
              · exact Or.inl heq
              · exact Or.inr (Or.inl ⟨tx, p.key, r', heq⟩)

section Before

variable {w : World K V} {acts : List (Act K V)} {i j : Nat}

theorem before_succ {a : Act K V} (ha : acts[i]? = some a) :
    w.before acts (i + 1) = (w.before acts i).act a := by
  unfold World.before World.run
  rw [List.take_add_one, ha, Option.toList_some, List.foldl_append]
  rfl

theorem before_succ_none (ha : acts[i]? = none) : w.before acts (i + 1) = w.before acts i := by
  unfold World.before
  rw [List.take_add_one, ha, Option.toList_none, List.append_nil]

theorem reachable_before (h : Reachable w) (acts : List (Act K V)) (i : Nat) :
    Reachable (w.before acts i) := reachable_run h _

theorem history_prefix (w : World K V) (acts : List (Act K V)) (hij : i ≤ j) :
    (w.before acts i).store.history <+: (w.before acts j).store.history := by
  induction hij with
  | refl => exact List.prefix_refl _
  | @step m _ ih =>
      cases ha : acts[m]? with
      | none => rw [before_succ_none ha]; exact ih
      | some a =>
          rw [before_succ ha]
          rcases act_history (w.before acts m) a with heq | ⟨tx, key, r, heq⟩ |
            ⟨-, -, tx, key, v, r, -, -, -, heq⟩
          · rw [heq]; exact ih
          · rw [heq]; exact ih.trans (List.prefix_append _ _)
          · rw [heq]; exact ih.trans (List.prefix_append _ _)

/-- A version keeps its position. -/
theorem version_before_mono (hij : i ≤ j) {key : K} {n : Nat} {c : V × Nat}
    (hc : (versionsOf key (w.before acts i).store.history)[n]? = some c) :
    (versionsOf key (w.before acts j).store.history)[n]? = some c := by
  obtain ⟨t, ht⟩ := history_prefix w acts hij
  rw [← ht, versionsOf_append, List.getElem?_append_left (List.getElem?_eq_some_iff.mp hc).1]
  exact hc

/-- Floors only rise. -/
theorem sessionFloor_append (h t : List (Transaction K V)) (s : Int) (key : K) :
    sessionFloor h s key ≤ sessionFloor (h ++ t) s key := by
  induction t generalizing h with
  | nil => rw [List.append_nil]
  | cons tx t ih =>
      have hone : sessionFloor h s key ≤ sessionFloor (h ++ [tx]) s key := by
        rw [WellFormed.sessionFloor_concat]
        split
        · exact Nat.le_max_left _ _
        · exact Nat.le_refl _
      rw [List.append_cons]
      exact Nat.le_trans hone (ih (h ++ [tx]))

theorem sessionFloor_before_mono (hij : i ≤ j) (s : Int) (key : K) :
    sessionFloor (w.before acts i).store.history s key
      ≤ sessionFloor (w.before acts j).store.history s key := by
  obtain ⟨t, ht⟩ := history_prefix w acts hij
  rw [← ht]
  exact sessionFloor_append _ _ s key

/-! ## What a step says about versions and floors -/

variable {s : Int} {key : K} {v : V} {n writer : Nat}

/-- What is got is version `n`; the session's floor was no higher, and is `n` or more from
then on. -/
theorem gotAt_spec (h : Reachable w) (hg : GotAt w acts i s key v n writer) :
    1 ≤ n ∧ (versionsOf key (w.before acts i).store.history)[n - 1]? = some (v, writer)
      ∧ sessionFloor (w.before acts i).store.history s key ≤ n
      ∧ n ≤ sessionFloor (w.before acts (i + 1)).store.history s key := by
  obtain ⟨txId, draws, tx, response, r, ha, hp, hs, hop, hres, hlocked, hwriter⟩ := hg
  have hwf := wellFormed_reachable (reachable_before h acts i)
  rcases hwf.getLocked_spec tx key draws with ⟨-, heq⟩ | ⟨m, c, hallowed, heq⟩
  · rw [heq] at hlocked; exact absurd hlocked (by simp)
  · rw [heq] at hlocked
    have hr : chosen key m c = r := Except.ok.inj hlocked
    subst hr
    have hp' : (w.before acts i).waiting.find? (fun t => t.txId = txId) = some tx := hp
    have hvn : (c.1, m + 1) = (v, n) := by
      have hres' := hres
      simp only [World.enterGetWithVersion, hp', hop, heq] at hres'
      exact Except.ok.inj (Option.some.inj hres')
    obtain ⟨rfl, rfl⟩ := Prod.mk.inj hvn
    have hw : c.2 = writer := hwriter
    subst hw hs
    refine ⟨by omega, hallowed.1, hallowed.2.1, ?_⟩
    rw [before_succ ha, act_enter_eq hp]
    unfold KvStore.enter
    rw [hop]
    dsimp only
    rw [heq, KvStore.afterGet_history, WellFormed.sessionFloor_get, if_pos ⟨rfl, rfl⟩]
    exact Nat.le_max_right _ _

/-- A PUT appends its version, whose number becomes its session's floor. -/
theorem putAt_spec (h : Reachable w) (hp : PutAt w acts i s key v n writer) :
    versionsOf key (w.before acts (i + 1)).store.history
        = versionsOf key (w.before acts i).store.history ++ [(v, writer)]
      ∧ n = (versionsOf key (w.before acts i).store.history).length + 1
      ∧ sessionFloor (w.before acts (i + 1)).store.history s key = n := by
  obtain ⟨draws, tx, response, versions, ha, hpend, hs, hop, hl, hlen⟩ := hp
  have hr := reachable_before h acts i
  have hhist : (w.before acts (i + 1)).store.history
      = (w.before acts i).store.history ++ [tx.setPutResponse key v] := by
    rw [before_succ ha, (enter_put hpend hop draws).2, KvStore.putLocked_history]
  have hvs : versionsOf key (w.before acts (i + 1)).store.history
      = versionsOf key (w.before acts i).store.history ++ [(v, writer)] := by
    rw [hhist, versionsOf_concat_put, if_pos rfl, pending_txId hpend]
  have hn : n = (versionsOf key (w.before acts i).store.history).length + 1 := by
    rw [(wellFormed_reachable (reachable_before h acts (i + 1))).lookup_some hl, hvs] at hlen
    simpa using hlen.symm
  refine ⟨hvs, hn, ?_⟩
  have hfresh := (worldOk_reachable hr).waiting_fresh hpend
  rw [hhist, (wellFormed_reachable hr).sessionFloor_put hfresh,
    if_pos ⟨hs.symm, rfl⟩, hn]

/-- Each version was put at an earlier step of the schedule. -/
theorem exists_putAt (sel : ReadResponseSelector) :
    ∀ {i m : Nat} {c : V × Nat},
      (versionsOf key ((World.init sel).before acts i).store.history)[m]? = some c →
      ∃ a < i, ∃ t, PutAt (World.init sel) acts a t key c.1 (m + 1) c.2 := by
  intro i
  induction i with
  | zero =>
      intro m c hc
      have hnil : ((World.init sel : World K V).before acts 0).store.history = [] := rfl
      rw [hnil] at hc
      exact absurd hc (by simp)
  | succ i ih =>
      intro m c hc
      have hold : (versionsOf key ((World.init sel).before acts i).store.history)[m]? = some c →
          ∃ a < i + 1, ∃ t, PutAt (World.init sel) acts a t key c.1 (m + 1) c.2 := by
        intro hc'
        obtain ⟨a, hai, hput⟩ := ih hc'
        exact ⟨a, Nat.lt_succ_of_lt hai, hput⟩
      cases ha : acts[i]? with
      | none => rw [before_succ_none ha] at hc; exact hold hc
      | some a =>
          have hwf := wellFormed_reachable
            (reachable_before (.init sel : Reachable (World.init sel)) acts (i + 1))
          have hsucc := before_succ (w := World.init sel) ha
          rcases act_history ((World.init sel).before acts i) a with heq | ⟨tx, k, r, heq⟩ |
            ⟨txId, draws, tx, k, v, r, rfl, hp, hop, heq⟩
          · rw [hsucc, heq] at hc
            exact hold hc
          · rw [hsucc, heq, versionsOf_concat_get] at hc
            exact hold hc
          · rw [← hsucc] at heq
            by_cases hk : key = k
            · subst hk
              have hvs : versionsOf key ((World.init sel).before acts (i + 1)).store.history
                  = versionsOf key ((World.init sel).before acts i).store.history
                    ++ [(v, tx.txId)] := by
                rw [heq, versionsOf_concat_put, if_pos rfl]
              rw [hvs] at hc
              rcases ListOrder.getElem?_concat hc with ⟨-, hc'⟩ | ⟨hm, rfl⟩
              · exact hold hc'
              · -- the version is the one this step puts
                refine ⟨i, Nat.lt_succ_self i, tx.sessionId, draws, tx, r, _, ?_, ?_, rfl, hop,
                  hwf.lookup_of_ne_nil ?_, ?_⟩
                · rw [ha, pending_txId hp]
                · rw [pending_txId hp]; exact hp
                · rw [hvs]; simp
                · rw [hvs, hm]; simp
            · rw [heq, versionsOf_concat_put, if_neg hk] at hc
              exact hold hc

/-- The later of two PUTs on a key gets the higher number. -/
theorem putAt_lt (h : Reachable w) {s' : Int} {v' : V} {n' writer' : Nat} (hij : i < j)
    (hi : PutAt w acts i s key v n writer) (hj : PutAt w acts j s' key v' n' writer') :
    n < n' := by
  obtain ⟨hvs, hn, -⟩ := putAt_spec h hi
  obtain ⟨-, hn', -⟩ := putAt_spec h hj
  obtain ⟨t, ht⟩ := history_prefix w acts (show i + 1 ≤ j from hij)
  rw [← ht, versionsOf_append, hvs] at hn'
  simp only [List.length_append, List.length_singleton] at hn'
  omega

end Before

/-! ## The contract -/

/--
**Version numbers identify writes and respect sessions.** In every run under any of the
selectors: 1. each `get_with_version` result comes off an earlier PUT, which became the
version of that number when it was committed; two results on a key have equal numbers
iff they come off the same PUT, and then equal values, and otherwise their numbers are
ordered as the PUTs were committed; 2. a session's numbers for a key never go down;
3. after its own PUT, which became version `n`, they are at least `n`.
-/
theorem get_with_version_versions (sel : ReadResponseSelector) (acts : List (Act K V)) (key : K) :
    (∀ i j s s' v v' n n' writer writer',
        GotAt (World.init sel) acts i s key v n writer →
        GotAt (World.init sel) acts j s' key v' n' writer' →
        ∃ a b t t', a < i ∧ PutAt (World.init sel) acts a t key v n writer
          ∧ b < j ∧ PutAt (World.init sel) acts b t' key v' n' writer'
          ∧ (n = n' ↔ writer = writer') ∧ (writer = writer' ↔ a = b)
          ∧ (n = n' → v = v') ∧ (n < n' ↔ a < b))
      ∧ (∀ i j s v v' n n' writer writer', i < j →
          GotAt (World.init sel) acts i s key v n writer →
          GotAt (World.init sel) acts j s key v' n' writer' → n ≤ n')
      ∧ ∀ i j s v v' n n' writer writer', i < j →
          PutAt (World.init sel) acts i s key v n writer →
          GotAt (World.init sel) acts j s key v' n' writer' → n ≤ n' := by
  have hr : Reachable (World.init sel : World K V) := .init sel
  refine ⟨?_, ?_, ?_⟩
  · intro i j s s' v v' n n' writer writer' hi hj
    obtain ⟨h1, hv, -, -⟩ := gotAt_spec hr hi
    obtain ⟨h1', hv', -, -⟩ := gotAt_spec hr hj
    obtain ⟨a, hai, t, ha⟩ := exists_putAt sel hv
    obtain ⟨b, hbj, t', hb⟩ := exists_putAt sel hv'
    rw [Nat.sub_add_cancel h1] at ha
    rw [Nat.sub_add_cancel h1'] at hb
    -- both versions are still there when the later of the two reads runs
    have hwf := wellFormed_reachable (reachable_before hr acts (max i j))
    have hv2 := version_before_mono (Nat.le_max_left i j) hv
    have hv2' := version_before_mono (Nat.le_max_right i j) hv'
    have hwriter : n = n' ↔ writer = writer' := by
      constructor
      · rintro rfl
        rw [hv2] at hv2'
        exact congrArg Prod.snd (Option.some.inj hv2')
      · intro hw
        have hidx := hwf.idxOf_version hv2
        have hidx' := hwf.idxOf_version hv2'
        dsimp only at hidx hidx'
        rw [hw, hidx'] at hidx
        omega
    have heq : a = b → n = n' := by
      rintro rfl
      rw [(putAt_spec hr ha).2.1, (putAt_spec hr hb).2.1]
    have hlt : a < b → n < n' := fun hab => putAt_lt hr hab ha hb
    have hgt : b < a → n' < n := fun hba => putAt_lt hr hba hb ha
    refine ⟨a, b, t, t', hai, ha, hbj, hb, hwriter, ?_, ?_, ?_⟩
    · rw [← hwriter]
      constructor
      · intro hnn
        rcases Nat.lt_trichotomy a b with h | h | h
        · have := hlt h; omega
        · exact h
        · have := hgt h; omega
      · exact heq
    · rintro rfl
      rw [hv2] at hv2'
      exact congrArg Prod.fst (Option.some.inj hv2')
    · constructor
      · intro hnn
        rcases Nat.lt_trichotomy a b with h | h | h
        · exact h
        · have := heq h; omega
        · have := hgt h; omega
      · exact hlt
  · intro i j s v v' n n' writer writer' hij hi hj
    obtain ⟨-, -, -, hn⟩ := gotAt_spec hr hi
    obtain ⟨-, -, hn', -⟩ := gotAt_spec hr hj
    exact Nat.le_trans hn (Nat.le_trans (sessionFloor_before_mono hij s key) hn')
  · intro i j s v v' n n' writer writer' hij hi hj
    obtain ⟨-, -, hn⟩ := putAt_spec hr hi
    obtain ⟨-, -, hn', -⟩ := gotAt_spec hr hj
    exact Nat.le_trans (hn ▸ sessionFloor_before_mono hij s key) hn'

example : GotAt (World.init .causal) overtaking 5 2 7 50 2 1 :=
  ⟨3, fun n => Fin.last n, ⟨3, 2, .get ⟨7⟩ none⟩, none, chosen 7 1 (50, 1), rfl, by decide, rfl,
    rfl, by decide, by decide, rfl⟩

end MockDB
