import MockDB.Proof.Hierarchy
import MockDB.Proof.Refine
import MockDB.Proof.Pending

/-!
# Independent calls commute

Under the causal selector a store is known by its registers: two of them with equal
registers allow the same responses, call after call. The order of two calls by different
sessions shows in the history and in the transaction ids, but unless both are on one key
and one of them is a PUT it does not show in the registers.
-/

namespace MockDB

variable {K V : Type} [DecidableEq K]

/-! ## Calls on the registers -/

/-- On registers `r`, a call by `s` may respond with `x` and leave `r'`. -/
inductive Does (r : SessionRegister K V Int) :
    Call K V → Int → Response K V → SessionRegister K V Int → Prop where
  | put (s : Int) (key : K) (v : V) : Does r (.put key v) s (.put 1) (r.write s key v)
  | get {s : Int} {key : K} {i : Nat} {v : V} (h : r.MayRead s key i v) :
      Does r (.get key) s (.got v (i + 1)) (r.read s key i)
  | notFound {s : Int} {key : K} (h : r.versions key = []) :
      Does r (.get key) s (.threw (.keyNotFound key)) r

/-- The response determines what is left. -/
theorem Does.deterministic {r r' r'' : SessionRegister K V Int} {call : Call K V} {s : Int}
    {x : Response K V} (h : Does r call s x r') (h' : Does r call s x r'') : r' = r'' := by
  cases h <;> cases h' <;> rfl

/-- The calls are not both on one key with at least one of them a PUT. -/
def Independent (c₁ c₂ : Call K V) : Prop :=
  ¬ (c₁.newOperation.key = c₂.newOperation.key
    ∧ (c₁.newOperation.isPut = true ∨ c₂.newOperation.isPut = true))

/-- **Independent calls of two sessions can be made in either order.** -/
theorem Does.swap {r r₁ r₁₂ : SessionRegister K V Int} {c₁ c₂ : Call K V} {s₁ s₂ : Int}
    {x₁ x₂ : Response K V} (hs : s₁ ≠ s₂) (hind : Independent c₁ c₂)
    (h₁ : Does r c₁ s₁ x₁ r₁) (h₂ : Does r₁ c₂ s₂ x₂ r₁₂) :
    ∃ r₂, Does r c₂ s₂ x₂ r₂ ∧ Does r₂ c₁ s₁ x₁ r₁₂ := by
  cases h₁ with
  | put _ k₁ v₁ =>
      cases h₂ with
      | put _ k₂ v₂ =>
          have hk : k₁ ≠ k₂ := fun he => hind ⟨he, Or.inl rfl⟩
          refine ⟨_, .put s₂ k₂ v₂, ?_⟩
          rw [SessionRegister.write_write_comm r s₁ s₂ v₁ v₂ hk]
          exact .put s₁ k₁ v₁
      | @get _ k₂ i v₂ hread =>
          have hk : k₁ ≠ k₂ := fun he => hind ⟨he, Or.inl rfl⟩
          refine ⟨_, .get (i := i) ⟨?_, ?_⟩, ?_⟩
          · rw [← SessionRegister.write_versions_ne r s₁ v₁ hk.symm]; exact hread.1
          · rw [← SessionRegister.write_floor_ne r s₁ s₂ v₁ hk.symm]; exact hread.2
          · rw [SessionRegister.write_read_comm r s₁ s₂ v₁ i hk]
            exact .put s₁ k₁ v₁
      | @notFound _ k₂ hnone =>
          have hk : k₁ ≠ k₂ := fun he => hind ⟨he, Or.inl rfl⟩
          rw [SessionRegister.write_versions_ne r s₁ v₁ hk.symm] at hnone
          exact ⟨r, .notFound hnone, .put s₁ k₁ v₁⟩
  | @get _ k₁ i₁ v₁ hread₁ =>
      cases h₂ with
      | put _ k₂ v₂ =>
          have hk : k₂ ≠ k₁ := fun he => hind ⟨he.symm, Or.inr rfl⟩
          refine ⟨_, .put s₂ k₂ v₂, ?_⟩
          rw [← SessionRegister.write_read_comm r s₂ s₁ v₂ i₁ hk]
          refine .get ⟨?_, ?_⟩
          · rw [SessionRegister.write_versions_ne r s₂ v₂ hk.symm]; exact hread₁.1
          · rw [SessionRegister.write_floor_ne r s₂ s₁ v₂ hk.symm]; exact hread₁.2
      | @get _ k₂ i₂ v₂ hread₂ =>
          refine ⟨_, .get (i := i₂) ⟨hread₂.1, ?_⟩, ?_⟩
          · rw [← SessionRegister.read_floor_other r k₁ k₂ i₁ hs.symm]; exact hread₂.2
          · rw [SessionRegister.read_read_comm r k₁ k₂ i₁ i₂ hs]
            refine .get ⟨hread₁.1, ?_⟩
            rw [SessionRegister.read_floor_other r k₂ k₁ i₂ hs]; exact hread₁.2
      | notFound hnone => exact ⟨r, .notFound hnone, .get hread₁⟩
  | @notFound _ k₁ hnone₁ =>
      cases h₂ with
      | put _ k₂ v₂ =>
          have hk : k₁ ≠ k₂ := fun he => hind ⟨he, Or.inr rfl⟩
          refine ⟨_, .put s₂ k₂ v₂, .notFound ?_⟩
          rw [SessionRegister.write_versions_ne r s₂ v₂ hk]; exact hnone₁
      | get hread₂ => exact ⟨_, .get hread₂, .notFound hnone₁⟩
      | notFound hnone₂ => exact ⟨r, .notFound hnone₂, .notFound hnone₁⟩

/-! ## Calls on the store -/

/-- The call a transaction was created for. -/
def Transaction.call (tx : Transaction K V) : Call K V :=
  match tx.op with
  | .get params _ => .get params.key
  | .put params _ => .put params.key params.value

omit [DecidableEq K] in
theorem newTransaction_call (w : World K V) (call : Call K V) (s : Int) :
    (w.newTransaction call.newOperation s).1.call = call := by
  cases call <;> rfl

namespace WellFormed

variable {σ : KvStore K V}

/-- A critical section does what its call may do on the registers. -/
theorem enter_does (h : WellFormed σ) (tx : Transaction K V)
    (hfresh : tx.txId ∉ σ.history.map (·.txId)) (draws : Draws) :
    Does (registers σ.history) tx.call tx.sessionId (σ.enter tx draws).1
      (registers (σ.enter tx draws).2.history) := by
  unfold KvStore.enter Transaction.call
  cases hop : tx.op with
  | put p r =>
      dsimp only
      rw [h.registers_putLocked hfresh]
      exact .put _ _ _
  | get p r =>
      dsimp only
      rcases h.getLocked_spec tx p.key draws with ⟨hv, heq⟩ | ⟨i, c, ha, heq⟩
      · rw [heq]
        refine .notFound ?_
        show (versionsOf p.key σ.history).map Prod.fst = []
        rw [hv, List.map_nil]
      · rw [heq, WellFormed.registers_afterGet tx ha]
        exact .get (WellFormed.mayRead_of_allowed ha)

/-- **A weak store does, for suitable draws, all that a call may do.** -/
theorem enter_of_does (h : WellFormed σ) (tx : Transaction K V)
    (hfresh : tx.txId ∉ σ.history.map (·.txId)) (hw : σ.readSelector.isWeak = true)
    {x : Response K V} {r' : SessionRegister K V Int}
    (hd : Does (registers σ.history) tx.call tx.sessionId x r') :
    ∃ draws, (σ.enter tx draws).1 = x ∧ registers (σ.enter tx draws).2.history = r' := by
  obtain ⟨draws, hx⟩ : ∃ draws, (σ.enter tx draws).1 = x := by
    unfold Transaction.call at hd
    unfold KvStore.enter
    cases hop : tx.op with
    | put p r =>
        rw [hop] at hd
        cases hd with
        | put => exact ⟨zeroDraws, rfl⟩
    | get p r =>
        rw [hop] at hd
        cases hd with
        | @get _ _ i v hread =>
            obtain ⟨c, ha, rfl⟩ := WellFormed.allowed_of_mayRead hw hread
            obtain ⟨draws, heq⟩ := h.getLocked_pick tx ha
            exact ⟨draws, by dsimp only; rw [heq]; rfl⟩
        | notFound hnone =>
            have hv : versionsOf p.key σ.history = [] := List.map_eq_nil_iff.mp hnone
            refine ⟨zeroDraws, ?_⟩
            dsimp only
            rw [KvStore.getLocked_none (h.lookup_eq_none.mpr hv)]
            rfl
  exact ⟨draws, hx, (h.enter_does tx hfresh draws).deterministic (hx ▸ hd)⟩

end WellFormed

/-- A call is its critical section, run as soon as its transaction is created. -/
theorem World.exec_eq (w : World K V) (call : Call K V) (s : Int) (draws : Draws) :
    w.exec call s draws
      = ((w.store.enter (w.newTransaction call.newOperation s).1 draws).1,
        { w with
          store := (w.store.enter (w.newTransaction call.newOperation s).1 draws).2
          txCount := w.txCount + 1 }) := by
  cases call <;> rfl

/-- A selector without state stays the store's selector. -/
theorem exec_readSelector {w : World K V} (h : Reachable w) {sel : ReadResponseSelector}
    (hnext : sel.next = sel) (hsel : w.store.readSelector = sel) (call : Call K V) (s : Int)
    (draws : Draws) : (w.exec call s draws).2.store.readSelector = sel := by
  rw [World.exec_eq]
  exact enter_readSelector hnext hsel (wellFormed_reachable h) _ draws

theorem exec_does {w : World K V} (h : Reachable w) (call : Call K V) (s : Int) (draws : Draws) :
    Does (registers w.store.history) call s (w.exec call s draws).1
      (registers (w.exec call s draws).2.store.history) := by
  have hdoes := (wellFormed_reachable h).enter_does (w.newTransaction call.newOperation s).1
    (worldOk_reachable h).fresh draws
  rw [newTransaction_call] at hdoes
  rw [World.exec_eq]
  exact hdoes

theorem exec_of_does {w : World K V} (h : Reachable w) (hw : w.store.readSelector.isWeak = true)
    {call : Call K V} {s : Int} {x : Response K V} {r' : SessionRegister K V Int}
    (hd : Does (registers w.store.history) call s x r') :
    ∃ draws, (w.exec call s draws).1 = x
      ∧ registers (w.exec call s draws).2.store.history = r' := by
  obtain ⟨draws, hx, hr⟩ := (wellFormed_reachable h).enter_of_does
    (w.newTransaction call.newOperation s).1 (worldOk_reachable h).fresh hw
    (by rw [newTransaction_call]; exact hd)
  refine ⟨draws, ?_, ?_⟩
  · rw [World.exec_eq]; exact hx
  · rw [World.exec_eq]; exact hr

/-! ## Worlds nobody can tell apart -/

/-- Two causal worlds with equal registers, and the same transactions about to enter. -/
structure Alike (w w' : World K V) : Prop where
  reachable : Reachable w
  reachable' : Reachable w'
  causal : w.store.readSelector = .causal
  causal' : w'.store.readSelector = .causal
  /-- What the store holds and what each session has seen of it. -/
  registers : registers w.store.history = MockDB.registers w'.store.history
  /-- The transactions outside the lock. -/
  waiting : w.waiting = w'.waiting
  /-- The next id. -/
  txCount : w.txCount = w'.txCount

theorem Alike.symm {w w' : World K V} (h : Alike w w') : Alike w' w :=
  ⟨h.reachable', h.reachable, h.causal', h.causal, h.registers.symm, h.waiting.symm,
    h.txCount.symm⟩

/-- A step of a thread with its random numbers left open. -/
inductive Move (K V : Type) where
  | create (call : Call K V) (sessionId : Int)
  | enter (txId : Nat)

/-- The move an act makes. -/
def Act.move {K V : Type} : Act K V → Move K V
  | .create call s => .create call s
  | .enter txId _ => .enter txId

/-- What the step hands to its thread, if it is one that enters. -/
def World.respond (w : World K V) : Act K V → Option (Response K V)
  | .create _ _ => none
  | .enter txId draws => w.enterResponse txId draws

/-- The responses of a schedule, step by step. -/
def World.responses (w : World K V) : List (Act K V) → List (Option (Response K V))
  | [] => []
  | a :: acts => w.respond a :: (w.act a).responses acts

/-- **Whatever happens in one world can happen in the other.** -/
theorem Alike.act {w w' : World K V} (h : Alike w w') (a : Act K V) :
    ∃ a' : Act K V, a'.move = a.move ∧ w'.respond a' = w.respond a
      ∧ Alike (w.act a) (w'.act a') := by
  have hcausal : (w.act a).store.readSelector = .causal :=
    run_readSelector ReadResponseSelector.next_causal [a] h.reachable h.causal
  have hcausal' : ∀ a' : Act K V, (w'.act a').store.readSelector = .causal := fun a' =>
    run_readSelector ReadResponseSelector.next_causal [a'] h.reachable' h.causal'
  cases a with
  | create call s =>
      refine ⟨.create call s, rfl, rfl, h.reachable.act _, h.reachable'.act _, hcausal, hcausal' _,
        h.registers, ?_, ?_⟩
      · show w.waiting ++ [_] = w'.waiting ++ [_]
        rw [h.waiting, h.txCount]
      · show w.txCount + 1 = w'.txCount + 1
        rw [h.txCount]
  | enter txId draws =>
      cases hp : w.pending txId with
      | none =>
          have hp' : w'.pending txId = none := by
            unfold World.pending at hp ⊢
            rw [← h.waiting]; exact hp
          unfold World.pending at hp hp'
          refine ⟨.enter txId draws, rfl, ?_, ?_⟩
          · simp [World.respond, World.enterResponse, hp, hp']
          · simpa [World.act, hp, hp'] using h
      | some tx =>
          have hp' : w'.pending txId = some tx := by
            unfold World.pending at hp ⊢
            rw [← h.waiting]; exact hp
          have hdoes := (wellFormed_reachable h.reachable).enter_does tx
            ((worldOk_reachable h.reachable).waiting_fresh hp) draws
          rw [h.registers] at hdoes
          obtain ⟨draws', hx, hr⟩ := (wellFormed_reachable h.reachable').enter_of_does tx
            ((worldOk_reachable h.reachable').waiting_fresh hp') (by rw [h.causal']; rfl) hdoes
          refine ⟨.enter txId draws', rfl, ?_, h.reachable.act _, h.reachable'.act _, hcausal,
            hcausal' _, ?_, ?_, ?_⟩
          · unfold World.pending at hp hp'
            simp [World.respond, World.enterResponse, hp, hp', hx]
          · rw [act_enter_eq hp, act_enter_eq hp']; exact hr.symm
          · rw [act_enter_eq hp, act_enter_eq hp', h.waiting]
          · rw [act_enter_eq hp, act_enter_eq hp']; exact h.txCount

/-- The same for an uninterrupted call. -/
theorem Alike.exec {w w' : World K V} (h : Alike w w') (call : Call K V) (s : Int)
    (draws : Draws) :
    ∃ draws', (w'.exec call s draws').1 = (w.exec call s draws).1
      ∧ Alike (w.exec call s draws).2 (w'.exec call s draws').2 := by
  have hdoes := exec_does h.reachable call s draws
  rw [h.registers] at hdoes
  obtain ⟨draws', hx, hr⟩ := exec_of_does h.reachable' (by rw [h.causal']; rfl) hdoes
  refine ⟨draws', hx, h.reachable.exec call s draws, h.reachable'.exec call s draws', ?_, ?_,
    hr.symm, ?_, ?_⟩
  · exact exec_readSelector h.reachable ReadResponseSelector.next_causal h.causal call s draws
  · exact exec_readSelector h.reachable' ReadResponseSelector.next_causal h.causal' call s draws'
  · rw [World.exec_eq, World.exec_eq]; exact h.waiting
  · rw [World.exec_eq, World.exec_eq]; exact congrArg (· + 1) h.txCount

/-- The response sequences a continuation of moves allows. -/
def outcomes (w : World K V) (moves : List (Move K V)) : Set (List (Option (Response K V))) :=
  { xs | ∃ acts : List (Act K V), acts.map Act.move = moves ∧ w.responses acts = xs }

/-- The response sequences a continuation of uninterrupted calls allows. -/
def callOutcomes (w : World K V) (calls : List (Call K V × Int)) : Set (List (Response K V)) :=
  { xs | ∃ steps : List (Call K V × Int × Draws), callsOf steps = calls ∧ (w.execAll steps).1 = xs }

theorem Alike.outcomes_subset {w w' : World K V} (h : Alike w w') (moves : List (Move K V)) :
    outcomes w moves ⊆ outcomes w' moves := by
  rintro xs ⟨acts, rfl, rfl⟩
  induction acts generalizing w w' with
  | nil => exact ⟨[], rfl, rfl⟩
  | cons a acts ih =>
      obtain ⟨a', hmove, hx, halike⟩ := h.act a
      obtain ⟨acts', hmoves, hxs⟩ := ih halike
      refine ⟨a' :: acts', ?_, ?_⟩
      · rw [List.map_cons, List.map_cons, hmove, hmoves]
      · rw [World.responses, World.responses, hx, hxs]

theorem Alike.callOutcomes_subset {w w' : World K V} (h : Alike w w')
    (calls : List (Call K V × Int)) : callOutcomes w calls ⊆ callOutcomes w' calls := by
  rintro xs ⟨steps, rfl, rfl⟩
  induction steps generalizing w w' with
  | nil => exact ⟨[], rfl, rfl⟩
  | cons step steps ih =>
      obtain ⟨call, s, draws⟩ := step
      obtain ⟨draws', hx, halike⟩ := h.exec call s draws
      obtain ⟨steps', hcalls, hxs⟩ := ih halike
      refine ⟨(call, s, draws') :: steps', ?_, ?_⟩
      · unfold callsOf at hcalls ⊢
        rw [List.map_cons, List.map_cons, hcalls]
      · exact congrArg₂ List.cons hx hxs

/-- Calls made in the two orders with the same responses leave worlds nobody can tell apart. -/
theorem alike_of_swap {w : World K V} (h : Reachable w) (hsel : w.store.readSelector = .causal)
    {c₁ c₂ : Call K V} {s₁ s₂ : Int} (hs : s₁ ≠ s₂) (hind : Independent c₁ c₂)
    {d₁ d₂ e₂ e₁ : Draws}
    (hx₁ : ((w.exec c₂ s₂ e₂).2.exec c₁ s₁ e₁).1 = (w.exec c₁ s₁ d₁).1)
    (hx₂ : (w.exec c₂ s₂ e₂).1 = ((w.exec c₁ s₁ d₁).2.exec c₂ s₂ d₂).1) :
    Alike ((w.exec c₁ s₁ d₁).2.exec c₂ s₂ d₂).2 ((w.exec c₂ s₂ e₂).2.exec c₁ s₁ e₁).2 := by
  have h₁ := h.exec c₁ s₁ d₁
  have h₂ := h.exec c₂ s₂ e₂
  have hnext := ReadResponseSelector.next_causal
  obtain ⟨r₂, hd₂, hd₁⟩ := (exec_does h c₁ s₁ d₁).swap hs hind (exec_does h₁ c₂ s₂ d₂)
  have hr₂ : r₂ = registers (w.exec c₂ s₂ e₂).2.store.history :=
    hd₂.deterministic (hx₂ ▸ exec_does h c₂ s₂ e₂)
  subst hr₂
  refine ⟨h₁.exec c₂ s₂ d₂, h₂.exec c₁ s₁ e₁, ?_, ?_, ?_, ?_, ?_⟩
  · exact exec_readSelector h₁ hnext (exec_readSelector h hnext hsel c₁ s₁ d₁) c₂ s₂ d₂
  · exact exec_readSelector h₂ hnext (exec_readSelector h hnext hsel c₂ s₂ e₂) c₁ s₁ e₁
  · exact hd₁.deterministic (hx₁ ▸ exec_does h₂ c₁ s₁ e₁)
  · simp only [World.exec_eq]
  · simp only [World.exec_eq]

/--
**Independent operations commute.** Take a reachable state of a causal store and two calls
by different sessions that are not both on one key with one of them a PUT. Whatever the
calls respond in one order they can respond in the other; and two executions in the two
orders that choose the same versions for the GETs allow, for every continuation, exactly
the same response sequences. The continuation may be calls one after another, or threads
creating and entering in any interleaving, those already outside the lock included.
-/
theorem independent_commute {w : World K V} (h : Reachable w)
    (hsel : w.store.readSelector = .causal) {c₁ c₂ : Call K V} {s₁ s₂ : Int} (hs : s₁ ≠ s₂)
    (hind : Independent c₁ c₂) (d₁ d₂ : Draws) :
    (∃ e₂ e₁, (w.execAll [(c₂, s₂, e₂), (c₁, s₁, e₁)]).1
        = (w.execAll [(c₁, s₁, d₁), (c₂, s₂, d₂)]).1.reverse)
      ∧ ∀ e₂ e₁, (w.execAll [(c₂, s₂, e₂), (c₁, s₁, e₁)]).1
            = (w.execAll [(c₁, s₁, d₁), (c₂, s₂, d₂)]).1.reverse →
          (∀ calls, callOutcomes (w.execAll [(c₁, s₁, d₁), (c₂, s₂, d₂)]).2 calls
              = callOutcomes (w.execAll [(c₂, s₂, e₂), (c₁, s₁, e₁)]).2 calls)
            ∧ ∀ moves, outcomes (w.execAll [(c₁, s₁, d₁), (c₂, s₂, d₂)]).2 moves
                = outcomes (w.execAll [(c₂, s₂, e₂), (c₁, s₁, e₁)]).2 moves := by
  have h₁ := h.exec c₁ s₁ d₁
  constructor
  · obtain ⟨r₂, hd₂, hd₁⟩ := (exec_does h c₁ s₁ d₁).swap hs hind (exec_does h₁ c₂ s₂ d₂)
    obtain ⟨e₂, hx₂, hr₂⟩ := exec_of_does h (by rw [hsel]; rfl) hd₂
    rw [← hr₂] at hd₁
    obtain ⟨e₁, hx₁, -⟩ := exec_of_does (h.exec c₂ s₂ e₂)
      (by rw [exec_readSelector h ReadResponseSelector.next_causal hsel]; rfl) hd₁
    refine ⟨e₂, e₁, ?_⟩
    simp only [World.execAll, List.reverse_cons, List.reverse_nil, List.nil_append,
      List.singleton_append, hx₁, hx₂]
  · intro e₂ e₁ hx
    simp only [World.execAll, List.reverse_cons, List.reverse_nil, List.nil_append,
      List.singleton_append, List.cons.injEq, and_true] at hx
    have halike := alike_of_swap h hsel hs hind hx.2 hx.1
    refine ⟨fun calls => ?_, fun moves => ?_⟩
    · exact Set.Subset.antisymm (halike.callOutcomes_subset calls)
        (halike.symm.callOutcomes_subset calls)
    · exact Set.Subset.antisymm (halike.outcomes_subset moves) (halike.symm.outcomes_subset moves)

/-- A GET and a PUT on different keys, after one PUT. -/
theorem independent_commute_example :
    ∃ e₂ e₁, (((World.init .causal).put 7 50 1 : World Nat Nat).execAll
        [(.put 8 60, 3, e₂), (.get 7, 2, e₁)]).1
      = (((World.init .causal).put 7 50 1 : World Nat Nat).execAll
          [(.get 7, 2, zeroDraws), (.put 8 60, 3, zeroDraws)]).1.reverse :=
  (independent_commute (Reachable.init .causal |>.put 7 50 1) rfl (by decide)
    (by simp [Independent, Call.newOperation]) zeroDraws zeroDraws).1

end MockDB
