import MockDB.Proof.KCausal

/-!
# The hierarchy of selectors

Two stores with the same contents and different selectors. If the second selects
weakly whenever the first does, it can give any response the first gives and end up
with the same contents again; so the responses of a whole run carry over. The
linearizable, k-causal and causal selectors are ordered this way.

A session that made every PUT on a key has its floor at the last version, so there all
selectors agree.
-/

namespace MockDB

variable {K V : Type} [DecidableEq K]

/-- The calls of a run, without its random numbers. -/
def callsOf (calls : List (Call K V × Int × Draws)) : List (Call K V × Int) :=
  calls.map fun c => (c.1, c.2.1)

/-! ## One call -/

omit [DecidableEq K] in
theorem afterGet_setGenNextTx (σ : KvStore K V) (sel : ReadResponseSelector)
    (tx : Transaction K V) (key : K) (i : Nat) (c : V × Nat) :
    (σ.setGenNextTx sel).afterGet tx key i c
      = (σ.afterGet tx key i c).setGenNextTx sel.next := rfl

/-- **A weaker selector can do what a stronger one does.** -/
theorem getLocked_weaker {σ : KvStore K V} (h : WellFormed σ) {sel : ReadResponseSelector}
    (hweak : σ.readSelector.isWeak = true → sel.isWeak = true) (tx : Transaction K V) (key : K)
    (draws : Draws) :
    ∃ draws', ((σ.setGenNextTx sel).getLocked tx key draws').1 = (σ.getLocked tx key draws).1
      ∧ ∃ sel', ((σ.setGenNextTx sel).getLocked tx key draws').2
          = (σ.getLocked tx key draws).2.setGenNextTx sel'
        ∧ ((sel' = sel ∧ (σ.getLocked tx key draws).2.readSelector = σ.readSelector)
          ∨ (sel' = sel.next
            ∧ (σ.getLocked tx key draws).2.readSelector = σ.readSelector.next)) := by
  rcases h.getLocked_spec tx key draws with ⟨hv, heq⟩ | ⟨i, c, ha, heq⟩
  · have hnone : (σ.setGenNextTx sel).kvMap.lookup key = none :=
      (h.setGenNextTx sel).lookup_eq_none.mpr hv
    refine ⟨draws, ?_, sel, ?_, Or.inl ⟨rfl, by rw [heq]⟩⟩
    · rw [KvStore.getLocked_none hnone, heq]
    · rw [KvStore.getLocked_none hnone, heq]
  · -- the version the first store chose is allowed in the second
    have ha' : Allowed (σ.setGenNextTx sel) tx.sessionId key i c := by
      refine ⟨ha.1, ha.2.1, fun hn => ha.2.2 ?_⟩
      rw [KvStore.setGenNextTx_readSelector] at hn
      by_contra hc
      rw [hweak (by simpa using hc)] at hn
      exact Bool.noConfusion hn
    obtain ⟨draws', heq'⟩ := (h.setGenNextTx sel).getLocked_pick tx ha'
    refine ⟨draws', ?_, sel.next, ?_, Or.inr ⟨rfl, by rw [heq]; rfl⟩⟩
    · rw [heq', heq]
    · rw [heq', heq, afterGet_setGenNextTx]

/-! ## Whole runs -/

/-- A relation between selectors that survives a selection and never asks the second to
be stronger than the first. -/
structure Weaker (R : ReadResponseSelector → ReadResponseSelector → Prop) : Prop where
  weak : ∀ {a b}, R a b → a.isWeak = true → b.isWeak = true
  next : ∀ {a b}, R a b → R a.next b.next

/-- **Responses carry over to weaker selectors**, call by call. -/
theorem execAll_weaker {R : ReadResponseSelector → ReadResponseSelector → Prop} (hR : Weaker R) :
    ∀ (calls : List (Call K V × Int × Draws)) {w : World K V}, Reachable w →
      ∀ sel : ReadResponseSelector, R w.store.readSelector sel →
      ∃ calls', callsOf calls' = callsOf calls
        ∧ ((w.setGenNextTx sel).execAll calls').1 = (w.execAll calls).1 := by
  intro calls
  induction calls with
  | nil => intro w _ sel _; exact ⟨[], rfl, rfl⟩
  | cons c calls ih =>
      intro w hr sel hsel
      obtain ⟨call, s, draws⟩ := c
      have hr' := hr.exec call s draws
      cases call with
      | put key v =>
          have hexec : (w.setGenNextTx sel).put key v s = (w.put key v s).setGenNextTx sel := rfl
          obtain ⟨calls', hcalls, hres⟩ := ih (hr.put key v s) sel hsel
          refine ⟨(.put key v, s, draws) :: calls', ?_, ?_⟩
          · simpa [callsOf] using hcalls
          · simp only [World.execAll, World.exec, hexec, hres]
      | get key =>
          obtain ⟨draws', hfst, sel', hsnd, hnext⟩ :=
            getLocked_weaker (wellFormed_reachable hr) (hR.weak hsel)
              (w.newTransaction (Call.get key).newOperation s).1 key draws
          have hsel' : R (w._get key s draws).2.store.readSelector sel' := by
            rcases hnext with ⟨rfl, hs⟩ | ⟨rfl, hs⟩
            · rw [World._get_store]; exact hs ▸ hsel
            · rw [World._get_store]; exact hs ▸ hR.next hsel
          have h1 : ((w.setGenNextTx sel)._get key s draws').1 = (w._get key s draws).1 := hfst
          have h2 : ((w.setGenNextTx sel)._get key s draws').2
              = (w._get key s draws).2.setGenNextTx sel' := by
            rw [World._get_snd, World._get_snd]
            show ({ w with store := _, txCount := w.txCount + 1 } : World K V)
              = { w with store := _, txCount := w.txCount + 1 }
            congr 1
          obtain ⟨calls', hcalls, hres⟩ := ih (hr._get key s draws) _ hsel'
          refine ⟨(.get key, s, draws') :: calls', ?_, ?_⟩
          · simpa [callsOf] using hcalls
          · simp only [World.execAll, World.exec, h1, h2, hres]

/-! ## One session's own keys -/

/-- The versions of a key all of whose PUTs session `s` made are under its floor. -/
theorem sessionFloor_own {σ : KvStore K V} (h : WellFormed σ) {key : K} {s : Int}
    (hown : ∀ tx ∈ σ.history, tx.op.isPut = true → tx.op.key = key → tx.sessionId = s) :
    sessionFloor σ.history s key = (versionsOf key σ.history).length := by
  refine Nat.le_antisymm (h.sessionFloor_le_length s key) ?_
  by_cases hv : versionsOf key σ.history = []
  · simp [hv]
  · -- the writer of the last version is the session's own
    have hlast := List.getLast?_eq_some_getLast hv
    rw [List.getLast?_eq_getElem?] at hlast
    have hlt := (List.getElem?_eq_some_iff.mp hlast).1
    obtain ⟨tx, htx, r, hop, hid⟩ := mem_versionsOf.mp (List.mem_of_getElem? hlast)
    have hs : tx.sessionId = s := hown tx htx (by rw [hop]; rfl) (by rw [hop]; rfl)
    have htouch := touched_le_sessionFloor key htx
    have hidx := h.idxOf_version hlast
    rw [hs] at htouch
    unfold touched at htouch
    rw [hop] at htouch
    dsimp only at htouch
    rw [if_pos rfl, hid, hidx] at htouch
    omega

/-- **Own keys are read exactly.** Whatever the selector and the draws, a session that
made every PUT on a key reads the last of them. -/
theorem getLocked_own {σ : KvStore K V} (h : WellFormed σ) {tx : Transaction K V} {key : K}
    (hown : ∀ t ∈ σ.history, t.op.isPut = true → t.op.key = key → t.sessionId = tx.sessionId)
    {c : V × Nat} (hc : (versionsOf key σ.history).getLast? = some c) (draws : Draws) :
    σ.getLocked tx key draws
      = (.ok (chosen key ((versionsOf key σ.history).length - 1) c),
          σ.afterGet tx key ((versionsOf key σ.history).length - 1) c) := by
  have hfloor := sessionFloor_own h hown
  rcases h.getLocked_spec tx key draws with ⟨hv, -⟩ | ⟨i, c', ha, heq⟩
  · rw [hv] at hc; exact absurd hc (by simp)
  · have hle := ha.2.1
    have hlt := (List.getElem?_eq_some_iff.mp ha.1).1
    have hi : (versionsOf key σ.history).length - 1 = i := by omega
    have hcc : c' = c := by
      rw [List.getLast?_eq_getElem?, hi, ha.1] at hc
      exact Option.some.inj hc
    rw [heq, hi, hcc]

theorem getWithVersion_own {w : World K V} (h : Reachable w) {key : K} {s : Int}
    (hown : ∀ tx ∈ w.store.history, tx.op.isPut = true → tx.op.key = key → tx.sessionId = s)
    {c : V × Nat} (hc : (versionsOf key w.store.history).getLast? = some c) (draws : Draws) :
    (w.getWithVersion key s draws).1
      = .ok (c.1, (versionsOf key w.store.history).length) := by
  have hres : (w._get key s draws).1
      = .ok (chosen key ((versionsOf key w.store.history).length - 1) c) := by
    rw [World._get_fst, getLocked_own (wellFormed_reachable h) hown hc]
  have hpos : 0 < (versionsOf key w.store.history).length := by
    rw [List.length_pos_iff]
    intro hv
    rw [hv] at hc; exact absurd hc (by simp)
  simp only [World.getWithVersion, hres, Except.map, chosen]
  rw [Nat.sub_add_cancel hpos]

/-- What one session's GET does depends on the history alone. -/
theorem getLocked_single {σ σ' : KvStore K V} (h : WellFormed σ) (h' : WellFormed σ')
    (hhist : σ.history = σ'.history) (tx : Transaction K V)
    (hall : ∀ t ∈ σ.history, t.sessionId = tx.sessionId) (key : K) (draws draws' : Draws) :
    (σ.getLocked tx key draws).1 = (σ'.getLocked tx key draws').1
      ∧ (σ.getLocked tx key draws).2.history = (σ'.getLocked tx key draws').2.history
      ∧ ∀ t ∈ (σ.getLocked tx key draws).2.history, t.sessionId = tx.sessionId := by
  by_cases hv : versionsOf key σ.history = []
  · rw [KvStore.getLocked_none (h.lookup_eq_none.mpr hv),
      KvStore.getLocked_none (h'.lookup_eq_none.mpr (hhist ▸ hv))]
    exact ⟨rfl, hhist, hall⟩
  · obtain ⟨c, hlast⟩ : ∃ c, (versionsOf key σ.history).getLast? = some c :=
      ⟨_, List.getLast?_eq_some_getLast hv⟩
    rw [getLocked_own h (fun t ht _ _ => hall t ht) hlast,
      getLocked_own h' (fun t ht _ _ => hall t (hhist ▸ ht)) (hhist ▸ hlast), ← hhist]
    refine ⟨rfl, by simp [hhist], ?_⟩
    intro t ht
    rcases List.mem_append.mp ht with hold | hnew
    · exact hall t hold
    · rw [List.mem_singleton.mp hnew]; rfl

/-- **A run of one session** has the same responses whatever the selector and the draws. -/
theorem execAll_single {s : Int} :
    ∀ (calls calls' : List (Call K V × Int × Draws)), callsOf calls = callsOf calls' →
      (∀ c ∈ calls, c.2.1 = s) →
      ∀ {w w' : World K V}, Reachable w → Reachable w' →
        w.store.history = w'.store.history →
        (∀ tx ∈ w.store.history, tx.sessionId = s) → w.txCount = w'.txCount →
        (w.execAll calls).1 = (w'.execAll calls').1 := by
  intro calls
  induction calls with
  | nil =>
      intro calls' hcalls _ w w' _ _ _ _ _
      cases calls' with
      | nil => rfl
      | cons c calls' => exact absurd hcalls (by simp [callsOf])
  | cons c calls ih =>
      intro calls' hcalls hsess w w' hr hr' hhist hall hcount
      cases calls' with
      | nil => exact absurd hcalls (by simp [callsOf])
      | cons c' calls' =>
          obtain ⟨call, s₁, draws⟩ := c
          obtain ⟨call', s₂, draws'⟩ := c'
          simp only [callsOf, List.map_cons, List.cons.injEq, Prod.mk.injEq] at hcalls
          obtain ⟨⟨rfl, rfl⟩, hrest⟩ := hcalls
          have hs : s₁ = s := hsess _ List.mem_cons_self
          subst hs
          have hsess' : ∀ c ∈ calls, c.2.1 = s₁ := fun c hc => hsess c (List.mem_cons_of_mem _ hc)
          cases call with
          | put key v =>
              have hsame := ih calls' hrest hsess' (hr.put key v s₁) (hr'.put key v s₁)
                (by simp [World.put, World.newTransaction, hhist, hcount])
                (by
                  intro tx htx
                  rcases List.mem_append.mp htx with h1 | h1
                  · exact hall tx h1
                  · rw [List.mem_singleton.mp h1]; rfl)
                (by simp [World.put, World.newTransaction, hcount])
              simp only [World.execAll, World.exec, hsame]
          | get key =>
              have htx : (w'.newTransaction (.get ⟨key⟩ none) s₁).1
                  = (w.newTransaction (.get ⟨key⟩ none) s₁).1 := by
                simp [World.newTransaction, hcount]
              obtain ⟨h1, h2, h3⟩ := getLocked_single (wellFormed_reachable hr)
                (wellFormed_reachable hr') hhist
                (w.newTransaction (.get ⟨key⟩ none) s₁).1 hall key draws draws'
              have hfst : (w._get key s₁ draws).1 = (w'._get key s₁ draws').1 := by
                rw [World._get_fst, World._get_fst, htx, h1]
              have hhist' : (w._get key s₁ draws).2.store.history
                  = (w'._get key s₁ draws').2.store.history := by
                rw [World._get_store, World._get_store, htx, h2]
              have hsame := ih calls' hrest hsess' (hr._get key s₁ draws)
                (hr'._get key s₁ draws') hhist' h3
                (by rw [World._get_snd, World._get_snd]; simp [hcount])
              simp only [World.execAll, World.exec, hfst, hsame]

/--
**The hierarchy of selectors.** Responses possible under the linearizable selector are
possible under the k-causal one whatever it picked, and those possible under the
k-causal one are possible under the causal one. All of them give a session the latest
version of a key it alone has written, so a run of one session has the same responses
under each.
-/
theorem selector_hierarchy (k total : Nat) :
    (∀ (readIds : KCausalReadResponseSelector.Shuffle total)
        (calls : List (Call K V × Int × Draws)),
      ∃ calls', callsOf calls' = callsOf calls
        ∧ ((World.init (.kCausal (kCausalSelector k total readIds))).execAll calls').1
          = ((World.init .linearizable).execAll calls).1)
      ∧ (∀ (readIds : KCausalReadResponseSelector.Shuffle total)
          (calls : List (Call K V × Int × Draws)),
        ∃ calls', callsOf calls' = callsOf calls
          ∧ ((World.init .causal).execAll calls').1
            = ((World.init (.kCausal (kCausalSelector k total readIds))).execAll calls).1)
      ∧ (∀ (w : World K V), Reachable w → ∀ (key : K) (s : Int) (c : V × Nat),
          (∀ tx ∈ w.store.history, tx.op.isPut = true → tx.op.key = key → tx.sessionId = s) →
          (versionsOf key w.store.history).getLast? = some c →
          ∀ sel draws, ((w.setGenNextTx sel).getWithVersion key s draws).1
            = .ok (c.1, (versionsOf key w.store.history).length))
      ∧ (∀ (s : Int) (calls calls' : List (Call K V × Int × Draws)),
          callsOf calls = callsOf calls' → (∀ c ∈ calls, c.2.1 = s) →
          ∀ sel sel',
            ((World.init sel).execAll calls).1 = ((World.init sel').execAll calls').1) := by
  have hlin : Weaker (fun a _ => a = .linearizable) :=
    ⟨fun ha hw => by rw [ha] at hw; exact absurd hw (by simp), fun ha => by rw [ha]; rfl⟩
  have hcausal : Weaker (fun _ b => b = .causal) :=
    ⟨fun hb _ => by rw [hb]; rfl, fun hb => by rw [hb]; rfl⟩
  refine ⟨?_, ?_, ?_, ?_⟩
  · intro readIds calls
    exact execAll_weaker hlin calls (Reachable.init .linearizable)
      (.kCausal (kCausalSelector k total readIds)) rfl
  · intro readIds calls
    exact execAll_weaker hcausal calls
      (Reachable.init (.kCausal (kCausalSelector k total readIds))) .causal rfl
  · intro w hr key s c hown hc sel draws
    exact getWithVersion_own (hr.setGenNextTx sel) hown hc draws
  · intro s calls calls' hcalls hs sel sel'
    exact execAll_single calls calls' hcalls hs (Reachable.init sel) (Reachable.init sel') rfl
      (by intro tx htx; simp [World.init] at htx) rfl

end MockDB
