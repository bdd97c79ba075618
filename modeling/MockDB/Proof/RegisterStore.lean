import MockDB.Proof.Commute

/-!
# The store as its clients see it

Session registers, a selector's counters, and the calls on their way to the lock are all
that clients can find out about a store. `RegisterStore` has nothing else: no history, no
checker and no loop over candidates. For every selector and every order of steps it gives
exactly the responses the store gives.

Under a selector without counters the keys do not even know of each other. What a run
responds is whatever the calls on each key alone can respond, so nothing holds across keys.
-/

namespace MockDB

variable {K V : Type}

/-! ## The machine -/

/-- A call that has its transaction id and not yet the lock. -/
structure WaitingCall (K V : Type) where
  txId : Nat
  call : Call K V
  sessionId : Int

structure RegisterStore (K V : Type) where
  registers : SessionRegister K V Int
  selector : ReadResponseSelector
  waiting : List (WaitingCall K V)
  txCount : Nat

/-- What a response leaves of the selector that gave it: every candidate chosen is counted. -/
def ReadResponseSelector.afterResponse (sel : ReadResponseSelector) :
    Response K V → ReadResponseSelector
  | .got _ _ => sel.next
  | _ => sel

/-- If the call is a GET, what it got is the last version. -/
def GotLast (r : SessionRegister K V Int) (call : Call K V) (x : Response K V) : Prop :=
  ∀ key v n, call = .get key → x = .got v n → n = (r.versions key).length

variable [DecidableEq K]

/-- On registers `r`, a call by `s` may be answered with `x` and leave `r'`. A selection that
is not weak gives the last version. -/
def Serves (weak : Bool) (r : SessionRegister K V Int) (call : Call K V) (s : Int)
    (x : Response K V) (r' : SessionRegister K V Int) : Prop :=
  Does r call s x r' ∧ (weak = false → GotLast r call x)

namespace RegisterStore

/-- A step of one thread, and what it hands to it. -/
inductive Step (m : RegisterStore K V) :
    Move K V → Option (Response K V) → RegisterStore K V → Prop where
  | create (call : Call K V) (s : Int) :
      Step m (.create call s) none
        { m with waiting := m.waiting ++ [⟨m.txCount + 1, call, s⟩], txCount := m.txCount + 1 }
  | idle {txId : Nat} (h : m.waiting.find? (fun c => c.txId = txId) = none) :
      Step m (.enter txId) none m
  | enter {txId : Nat} {c : WaitingCall K V} {x : Response K V} {r' : SessionRegister K V Int}
      (h : m.waiting.find? (fun c => c.txId = txId) = some c)
      (hserves : Serves m.selector.isWeak m.registers c.call c.sessionId x r') :
      Step m (.enter txId) (some x)
        { m with
          registers := r'
          selector := m.selector.afterResponse x
          waiting := m.waiting.filter fun c => c.txId ≠ txId }

/-- Steps one after another, and what they handed out. -/
inductive Runs : RegisterStore K V → List (Move K V) → List (Option (Response K V)) →
    RegisterStore K V → Prop where
  | nil (m : RegisterStore K V) : Runs m [] [] m
  | cons {m m' m'' : RegisterStore K V} {move : Move K V} {x : Option (Response K V)}
      {moves : List (Move K V)} {xs : List (Option (Response K V))} (hstep : Step m move x m')
      (hrest : Runs m' moves xs m'') : Runs m (move :: moves) (x :: xs) m''

/-- The response sequences a schedule allows. -/
def outcomes (m : RegisterStore K V) (moves : List (Move K V)) :
    Set (List (Option (Response K V))) :=
  { xs | ∃ m', Runs m moves xs m' }

end RegisterStore

/-! ## One critical section -/

namespace WellFormed

variable {σ : KvStore K V}

theorem enter_serves (h : WellFormed σ) (tx : Transaction K V)
    (hfresh : tx.txId ∉ σ.history.map (·.txId)) (draws : Draws) :
    Serves σ.readSelector.isWeak (registers σ.history) tx.call tx.sessionId (σ.enter tx draws).1
      (registers (σ.enter tx draws).2.history) := by
  refine ⟨h.enter_does tx hfresh draws, fun hstrong key v n hcall hx => ?_⟩
  unfold KvStore.enter at hx
  unfold Transaction.call at hcall
  cases hop : tx.op with
  | put p r => rw [hop] at hcall; cases hcall
  | get p r =>
      rw [hop] at hcall hx
      cases hcall
      dsimp only at hx
      rcases h.getLocked_spec tx p.key draws with ⟨-, heq⟩ | ⟨i, c, ha, heq⟩
      · rw [heq] at hx; cases hx
      · rw [heq] at hx
        obtain ⟨-, rfl⟩ := Response.got.inj hx
        show i + 1 = ((versionsOf p.key σ.history).map Prod.fst).length
        rw [List.length_map]
        exact ha.2.2 hstrong

theorem enter_afterResponse (h : WellFormed σ) (tx : Transaction K V) (draws : Draws) :
    (σ.enter tx draws).2.readSelector
      = σ.readSelector.afterResponse (σ.enter tx draws).1 := by
  unfold KvStore.enter
  cases hop : tx.op with
  | put p r => rfl
  | get p r =>
      dsimp only
      rcases h.getLocked_spec tx p.key draws with ⟨-, heq⟩ | ⟨i, c, -, heq⟩
      · rw [heq]; rfl
      · rw [heq]; rfl

/-- **All that the machine may answer is answered** for suitable draws. -/
theorem enter_of_serves (h : WellFormed σ) (tx : Transaction K V)
    (hfresh : tx.txId ∉ σ.history.map (·.txId)) {x : Response K V}
    {r' : SessionRegister K V Int}
    (hs : Serves σ.readSelector.isWeak (registers σ.history) tx.call tx.sessionId x r') :
    ∃ draws, (σ.enter tx draws).1 = x ∧ registers (σ.enter tx draws).2.history = r' := by
  obtain ⟨hd, hlast⟩ := hs
  obtain ⟨draws, hx⟩ : ∃ draws, (σ.enter tx draws).1 = x := by
    unfold Transaction.call at hd hlast
    unfold KvStore.enter
    cases hop : tx.op with
    | put p r =>
        rw [hop] at hd
        cases hd with
        | put => exact ⟨zeroDraws, rfl⟩
    | get p r =>
        rw [hop] at hd hlast
        cases hd with
        | @get _ _ i v hread =>
            obtain ⟨hi, hfloor⟩ := hread
            have hi' : ((versionsOf p.key σ.history).map Prod.fst)[i]? = some v := hi
            rw [List.getElem?_map, Option.map_eq_some_iff] at hi'
            obtain ⟨c, hc, rfl⟩ := hi'
            have ha : Allowed σ tx.sessionId p.key i c := by
              refine ⟨hc, hfloor, fun hstrong => ?_⟩
              have hn : i + 1 = ((versionsOf p.key σ.history).map Prod.fst).length :=
                hlast hstrong p.key c.1 (i + 1) rfl rfl
              rwa [List.length_map] at hn
            obtain ⟨draws, heq⟩ := h.getLocked_pick tx ha
            exact ⟨draws, by dsimp only; rw [heq]; rfl⟩
        | notFound hnone =>
            have hv : versionsOf p.key σ.history = [] := List.map_eq_nil_iff.mp hnone
            refine ⟨zeroDraws, ?_⟩
            dsimp only
            rw [KvStore.getLocked_none (h.lookup_eq_none.mpr hv)]
            rfl
  exact ⟨draws, hx, (h.enter_does tx hfresh draws).deterministic (hx ▸ hd)⟩

end WellFormed

/-! ## The store is the machine -/

/-- The call a waiting transaction is. -/
def Transaction.waitingCall {K V : Type} (tx : Transaction K V) : WaitingCall K V :=
  ⟨tx.txId, tx.call, tx.sessionId⟩

/-- What clients see of a store. -/
def World.toRegisterStore (w : World K V) : RegisterStore K V where
  registers := registers w.store.history
  selector := w.store.readSelector
  waiting := w.waiting.map Transaction.waitingCall
  txCount := w.txCount

theorem toRegisterStore_find? (w : World K V) (txId : Nat) :
    w.toRegisterStore.waiting.find? (fun c => c.txId = txId)
      = (w.pending txId).map Transaction.waitingCall := List.find?_map

theorem toRegisterStore_create (w : World K V) (call : Call K V) (s : Int) :
    (w.act (.create call s)).toRegisterStore
      = { w.toRegisterStore with
          waiting := w.toRegisterStore.waiting ++ [⟨w.txCount + 1, call, s⟩]
          txCount := w.txCount + 1 } := by
  unfold World.toRegisterStore
  have hcall : (w.newTransaction call.newOperation s).1.waitingCall
      = ⟨w.txCount + 1, call, s⟩ := by
    unfold Transaction.waitingCall
    rw [newTransaction_call]
    rfl
  congr 1
  show (w.waiting ++ [(w.newTransaction call.newOperation s).1]).map _ = _
  rw [List.map_append, List.map_singleton, hcall]

theorem toRegisterStore_enter {w : World K V} (h : Reachable w) {txId : Nat}
    {tx : Transaction K V} (hp : w.pending txId = some tx) (draws : Draws) :
    (w.act (.enter txId draws)).toRegisterStore
      = { w.toRegisterStore with
          registers := registers (w.store.enter tx draws).2.history
          selector := w.store.readSelector.afterResponse (w.store.enter tx draws).1
          waiting := w.toRegisterStore.waiting.filter fun c => c.txId ≠ txId } := by
  rw [act_enter_eq hp, ← (wellFormed_reachable h).enter_afterResponse]
  unfold World.toRegisterStore
  congr 1
  rw [List.filter_map]
  rfl

theorem act_enter_none {w : World K V} {txId : Nat} (hp : w.pending txId = none)
    (draws : Draws) : w.act (.enter txId draws) = w := by
  have hp' : w.waiting.find? (fun tx => tx.txId = txId) = none := hp
  simp [World.act, hp']

/-- **Each step of the store is one of the machine**, with the same response. -/
theorem act_step {w : World K V} (h : Reachable w) (a : Act K V) :
    w.toRegisterStore.Step a.move (w.respond a) (w.act a).toRegisterStore := by
  cases a with
  | create call s =>
      rw [toRegisterStore_create]
      exact .create call s
  | enter txId draws =>
      have hfind := toRegisterStore_find? w txId
      cases hp : w.pending txId with
      | none =>
          rw [hp, Option.map_none] at hfind
          have hnone : w.respond (.enter txId draws) = none := by
            have hp' : w.waiting.find? (fun tx => tx.txId = txId) = none := hp
            simp [World.respond, World.enterResponse, hp']
          rw [hnone, act_enter_none hp]
          exact .idle hfind
      | some tx =>
          rw [hp, Option.map_some] at hfind
          have hsome : w.respond (.enter txId draws) = some (w.store.enter tx draws).1 := by
            have hp' : w.waiting.find? (fun tx => tx.txId = txId) = some tx := hp
            simp [World.respond, World.enterResponse, hp']
          rw [hsome, toRegisterStore_enter h hp]
          exact .enter hfind ((wellFormed_reachable h).enter_serves tx
            ((worldOk_reachable h).waiting_fresh hp) draws)

/-- **Each step of the machine is one of the store**, for suitable draws. -/
theorem act_of_step {w : World K V} (h : Reachable w) {move : Move K V}
    {x : Option (Response K V)} {m : RegisterStore K V} (hstep : w.toRegisterStore.Step move x m) :
    ∃ a : Act K V, a.move = move ∧ w.respond a = x ∧ (w.act a).toRegisterStore = m := by
  cases hstep with
  | create call s => exact ⟨.create call s, rfl, rfl, toRegisterStore_create w call s⟩
  | @idle txId hfind =>
      rw [toRegisterStore_find?, Option.map_eq_none_iff] at hfind
      refine ⟨.enter txId zeroDraws, rfl, ?_, by rw [act_enter_none hfind]⟩
      have hp' : w.waiting.find? (fun tx => tx.txId = txId) = none := hfind
      simp [World.respond, World.enterResponse, hp']
  | @enter txId c x r' hfind hserves =>
      rw [toRegisterStore_find?, Option.map_eq_some_iff] at hfind
      obtain ⟨tx, hp, rfl⟩ := hfind
      obtain ⟨draws, hx, hr⟩ := (wellFormed_reachable h).enter_of_serves tx
        ((worldOk_reachable h).waiting_fresh hp) hserves
      refine ⟨.enter txId draws, rfl, ?_, ?_⟩
      · have hp' : w.waiting.find? (fun tx => tx.txId = txId) = some tx := hp
        simp [World.respond, World.enterResponse, hp', hx]
      · rw [toRegisterStore_enter h hp, hx, hr]
        rfl

theorem runs_responses {w : World K V} (h : Reachable w) (acts : List (Act K V)) :
    w.toRegisterStore.Runs (acts.map Act.move) (w.responses acts)
      (w.run acts).toRegisterStore := by
  induction acts generalizing w with
  | nil => exact .nil _
  | cons a acts ih => exact .cons (act_step h a) (ih (h.act a))

theorem responses_of_runs {w : World K V} (h : Reachable w) {moves : List (Move K V)}
    {xs : List (Option (Response K V))} {m : RegisterStore K V}
    (hruns : w.toRegisterStore.Runs moves xs m) :
    ∃ acts : List (Act K V), acts.map Act.move = moves ∧ w.responses acts = xs := by
  generalize hw : w.toRegisterStore = m₀ at hruns
  induction hruns generalizing w with
  | nil m => exact ⟨[], rfl, rfl⟩
  | cons hstep _ ih =>
      subst hw
      obtain ⟨a, hmove, hx, hm⟩ := act_of_step h hstep
      obtain ⟨acts, hmoves, hxs⟩ := ih (h.act a) hm
      refine ⟨a :: acts, ?_, ?_⟩
      · rw [List.map_cons, hmove, hmoves]
      · rw [World.responses, hx, hxs]

/--
**The store and the register machine cannot be told apart.** From every reachable state,
under any of the selectors, and for every interleaving of threads that create transactions
and enter the lock, the response sequences that some random numbers give are exactly those
of the machine.
-/
theorem outcomes_eq_registerStore {w : World K V} (h : Reachable w) (moves : List (Move K V)) :
    outcomes w moves = w.toRegisterStore.outcomes moves := by
  ext xs
  constructor
  · rintro ⟨acts, rfl, rfl⟩
    exact ⟨_, runs_responses h acts⟩
  · rintro ⟨m, hruns⟩
    exact responses_of_runs h hruns

/-- After a PUT, with another one on its way to the lock, and a GET behind it. -/
theorem outcomes_eq_registerStore_example :
    let w := ((World.init .causal).put 7 50 1).act (.create (.put 7 60) 2)
    let moves : List (Move Nat Nat) := [.create (.get 7) 3, .enter 2, .enter 3]
    outcomes w moves = w.toRegisterStore.outcomes moves :=
  outcomes_eq_registerStore ((Reachable.init .causal |>.put 7 50 1).act _)
    [.create (.get 7) 3, .enter 2, .enter 3]

/-! ## Calls one after another -/

/-- On registers `r`, calls one after another may be answered with these responses. -/
def ServesAll (weak : Bool) :
    SessionRegister K V Int → List (Call K V × Int) → List (Response K V) → Prop
  | _, [], [] => True
  | r, c :: calls, x :: xs => ∃ r', Serves weak r c.1 c.2 x r' ∧ ServesAll weak r' calls xs
  | _, _, _ => False

theorem ServesAll.length {weak : Bool} {r : SessionRegister K V Int}
    {calls : List (Call K V × Int)} {xs : List (Response K V)} (h : ServesAll weak r calls xs) :
    xs.length = calls.length := by
  induction calls generalizing r xs with
  | nil => cases xs with
    | nil => rfl
    | cons x xs => exact h.elim
  | cons c calls ih => cases xs with
    | nil => exact h.elim
    | cons x xs =>
        obtain ⟨r', -, hrest⟩ := h
        rw [List.length_cons, List.length_cons, ih hrest]

theorem exec_serves {w : World K V} (h : Reachable w) (call : Call K V) (s : Int)
    (draws : Draws) :
    Serves w.store.readSelector.isWeak (registers w.store.history) call s
      (w.exec call s draws).1 (registers (w.exec call s draws).2.store.history) := by
  have hserves := (wellFormed_reachable h).enter_serves (w.newTransaction call.newOperation s).1
    (worldOk_reachable h).fresh draws
  rw [newTransaction_call] at hserves
  rw [World.exec_eq]
  exact hserves

theorem exec_of_serves {w : World K V} (h : Reachable w) {call : Call K V} {s : Int}
    {x : Response K V} {r' : SessionRegister K V Int}
    (hs : Serves w.store.readSelector.isWeak (registers w.store.history) call s x r') :
    ∃ draws, (w.exec call s draws).1 = x
      ∧ registers (w.exec call s draws).2.store.history = r' := by
  obtain ⟨draws, hx, hr⟩ := (wellFormed_reachable h).enter_of_serves
    (w.newTransaction call.newOperation s).1 (worldOk_reachable h).fresh
    (by rw [newTransaction_call]; exact hs)
  refine ⟨draws, ?_, ?_⟩
  · rw [World.exec_eq]; exact hx
  · rw [World.exec_eq]; exact hr

/-- Under a selector without counters the responses of calls are those of the registers. -/
theorem mem_callOutcomes {w : World K V} (h : Reachable w) {sel : ReadResponseSelector}
    (hnext : sel.next = sel) (hsel : w.store.readSelector = sel) (calls : List (Call K V × Int))
    (xs : List (Response K V)) :
    xs ∈ callOutcomes w calls ↔ ServesAll sel.isWeak (registers w.store.history) calls xs := by
  constructor
  · rintro ⟨steps, rfl, rfl⟩
    induction steps generalizing w with
    | nil => trivial
    | cons step steps ih =>
        obtain ⟨call, s, draws⟩ := step
        refine ⟨_, hsel ▸ exec_serves h call s draws, ?_⟩
        exact ih (h.exec call s draws) (exec_readSelector h hnext hsel call s draws)
  · intro hall
    induction calls generalizing w xs with
    | nil => cases xs with
      | nil => exact ⟨[], rfl, rfl⟩
      | cons x xs => exact hall.elim
    | cons c calls ih => cases xs with
      | nil => exact hall.elim
      | cons x xs =>
          obtain ⟨call, s⟩ := c
          obtain ⟨r', hserves, hrest⟩ := hall
          obtain ⟨draws, hx, hr⟩ := exec_of_serves h (hsel.symm ▸ hserves)
          obtain ⟨steps, hcalls, hxs⟩ := ih (h.exec call s draws)
            (exec_readSelector h hnext hsel call s draws) xs (hr ▸ hrest)
          refine ⟨(call, s, draws) :: steps, ?_, ?_⟩
          · unfold callsOf at hcalls ⊢
            rw [List.map_cons, hcalls]
          · exact congrArg₂ List.cons hx hxs

/-! ## Keys are independent -/

/-- Two stores of registers agree on a key. -/
structure SameAt (key : K) (r r' : SessionRegister K V Int) : Prop where
  versions : r'.versions key = r.versions key
  floor : ∀ s, r'.floor s key = r.floor s key

omit [DecidableEq K] in
theorem SameAt.symm {key : K} {r r' : SessionRegister K V Int} (h : SameAt key r r') :
    SameAt key r' r := ⟨h.versions.symm, fun s => (h.floor s).symm⟩

omit [DecidableEq K] in
theorem SameAt.trans {key : K} {r r' r'' : SessionRegister K V Int} (h : SameAt key r r')
    (h' : SameAt key r' r'') : SameAt key r r'' :=
  ⟨h'.versions.trans h.versions, fun s => (h'.floor s).trans (h.floor s)⟩

/-- A call goes by its own key alone, and only changes it. -/
theorem Serves.local {weak : Bool} {r r' rk : SessionRegister K V Int} {call : Call K V} {s : Int}
    {x : Response K V} (h : Serves weak r call s x r')
    (hsame : SameAt call.newOperation.key r rk) :
    (∃ rk', Serves weak rk call s x rk' ∧ SameAt call.newOperation.key r' rk')
      ∧ ∀ key, key ≠ call.newOperation.key → SameAt key r r' := by
  obtain ⟨hdoes, hlast⟩ := h
  have hlast' : weak = false → GotLast rk call x := by
    intro hstrong key v n hcall hx
    subst hcall
    rw [show rk.versions key = r.versions key from hsame.versions]
    exact hlast hstrong key v n rfl hx
  cases hdoes with
  | put s k v =>
      have hversions : rk.versions k = r.versions k := hsame.versions
      refine ⟨⟨rk.write s k v, ⟨.put s k v, hlast'⟩, ?_, fun s' => ?_⟩, fun key hkey => ?_⟩
      · show (rk.write s k v).versions k = (r.write s k v).versions k
        rw [SessionRegister.write_versions_self, SessionRegister.write_versions_self, hversions]
      · show (rk.write s k v).floor s' k = (r.write s k v).floor s' k
        by_cases hs : s' = s
        · subst hs
          rw [SessionRegister.write_floor_self, SessionRegister.write_floor_self, hversions]
        · rw [SessionRegister.write_floor_other _ _ _ _ hs,
            SessionRegister.write_floor_other _ _ _ _ hs]
          exact hsame.floor s'
      · exact ⟨SessionRegister.write_versions_ne r s v hkey,
          fun s' => SessionRegister.write_floor_ne r s s' v hkey⟩
  | @get s k i v hread =>
      have hversions : rk.versions k = r.versions k := hsame.versions
      have hfloor : rk.floor s k = r.floor s k := hsame.floor s
      have hread' : rk.MayRead s k i v := ⟨by rw [hversions]; exact hread.1, hfloor ▸ hread.2⟩
      refine ⟨⟨rk.read s k i, ⟨.get hread', hlast'⟩, hversions, fun s' => ?_⟩, fun key hkey => ?_⟩
      · show (rk.read s k i).floor s' k = (r.read s k i).floor s' k
        by_cases hs : s' = s
        · subst hs
          rw [SessionRegister.read_floor_self, SessionRegister.read_floor_self]
        · rw [SessionRegister.read_floor_other _ _ _ _ hs,
            SessionRegister.read_floor_other _ _ _ _ hs]
          exact hsame.floor s'
      · exact ⟨rfl, fun s' => SessionRegister.read_floor_ne r s s' i hkey⟩
  | @notFound s k hnone =>
      have hnone' : rk.versions k = [] := Eq.trans hsame.versions hnone
      exact ⟨⟨rk, ⟨.notFound hnone', hlast'⟩, hsame⟩, fun _ _ => ⟨rfl, fun _ => rfl⟩⟩

/-- The calls on one key. -/
def callsOn (key : K) (calls : List (Call K V × Int)) : List (Call K V × Int) :=
  calls.filter fun c => c.1.newOperation.key = key

/-- The responses to the calls on one key. -/
def responsesOn (key : K) (calls : List (Call K V × Int)) (xs : List (Response K V)) :
    List (Response K V) :=
  ((calls.zip xs).filter fun p => p.1.1.newOperation.key = key).map Prod.snd

section On

variable (c : Call K V × Int) (calls : List (Call K V × Int)) (x : Response K V)
  (xs : List (Response K V))

theorem callsOn_cons_self :
    callsOn c.1.newOperation.key (c :: calls) = c :: callsOn c.1.newOperation.key calls := by
  simp [callsOn]

theorem callsOn_cons_ne {key : K} (h : key ≠ c.1.newOperation.key) :
    callsOn key (c :: calls) = callsOn key calls := by
  simp [callsOn, h.symm]

theorem responsesOn_cons_self :
    responsesOn c.1.newOperation.key (c :: calls) (x :: xs)
      = x :: responsesOn c.1.newOperation.key calls xs := by
  simp [responsesOn]

theorem responsesOn_cons_ne {key : K} (h : key ≠ c.1.newOperation.key) :
    responsesOn key (c :: calls) (x :: xs) = responsesOn key calls xs := by
  simp [responsesOn, h.symm]

end On

/-- **Calls are served key by key.** `rk key` are registers that only have to be right under
`key`. -/
theorem servesAll_iff_local {weak : Bool} {r : SessionRegister K V Int}
    {rk : K → SessionRegister K V Int} (hrk : ∀ key, SameAt key r (rk key))
    (calls : List (Call K V × Int)) (xs : List (Response K V)) :
    ServesAll weak r calls xs ↔ xs.length = calls.length
      ∧ ∀ key, ServesAll weak (rk key) (callsOn key calls) (responsesOn key calls xs) := by
  induction calls generalizing r rk xs with
  | nil =>
      cases xs with
      | nil => exact iff_of_true trivial ⟨rfl, fun _ => trivial⟩
      | cons x xs => exact iff_of_false id fun h => Nat.noConfusion h.1
  | cons c calls ih =>
      cases xs with
      | nil => exact iff_of_false id fun h => Nat.noConfusion h.1
      | cons x xs =>
          constructor
          · intro hall
            refine ⟨hall.length, fun key => ?_⟩
            obtain ⟨r', hserves, hrest⟩ := hall
            obtain ⟨⟨rk', hserves', hsame⟩, hothers⟩ := hserves.local (hrk _)
            -- from here on the key of the call goes by the registers it left
            have hrk' : ∀ key, SameAt key r' (Function.update rk c.1.newOperation.key rk' key) := by
              intro key
              by_cases hkey : key = c.1.newOperation.key
              · subst hkey
                rw [Function.update_self]
                exact hsame
              · rw [Function.update_of_ne hkey]
                exact (hothers key hkey).symm.trans (hrk key)
            have hlocal := ((ih hrk' xs).mp hrest).2 key
            by_cases hkey : key = c.1.newOperation.key
            · subst hkey
              rw [Function.update_self] at hlocal
              rw [callsOn_cons_self, responsesOn_cons_self]
              exact ⟨rk', hserves', hlocal⟩
            · rw [Function.update_of_ne hkey] at hlocal
              rw [callsOn_cons_ne c calls hkey, responsesOn_cons_ne c calls x xs hkey]
              exact hlocal
          · rintro ⟨hlen, hlocal⟩
            have hown := hlocal c.1.newOperation.key
            rw [callsOn_cons_self, responsesOn_cons_self] at hown
            obtain ⟨rk', hserves, hrest⟩ := hown
            obtain ⟨⟨r', hserves', hsame⟩, -⟩ := hserves.local (hrk _).symm
            obtain ⟨-, hothers⟩ := hserves'.local ⟨rfl, fun _ => rfl⟩
            have hrk' : ∀ key, SameAt key r' (Function.update rk c.1.newOperation.key rk' key) := by
              intro key
              by_cases hkey : key = c.1.newOperation.key
              · subst hkey
                rw [Function.update_self]
                exact hsame.symm
              · rw [Function.update_of_ne hkey]
                exact (hothers key hkey).symm.trans (hrk key)
            refine ⟨r', hserves', (ih hrk' xs).mpr ⟨Nat.succ.inj hlen, fun key => ?_⟩⟩
            by_cases hkey : key = c.1.newOperation.key
            · subst hkey
              rw [Function.update_self]
              exact hrest
            · have hkeep := hlocal key
              rw [callsOn_cons_ne c calls hkey, responsesOn_cons_ne c calls x xs hkey] at hkeep
              rw [Function.update_of_ne hkey]
              exact hkeep

/--
**Nothing holds across keys.** Under the causal and the linearizable selector, responses to
calls by any sessions are possible exactly when, key by key, those to the calls on that key
are possible on a store that is given no other calls.
-/
theorem keys_independent {sel : ReadResponseSelector} (hnext : sel.next = sel)
    (calls : List (Call K V × Int)) (xs : List (Response K V)) :
    xs ∈ callOutcomes (World.init sel) calls ↔ xs.length = calls.length
      ∧ ∀ key, responsesOn key calls xs ∈ callOutcomes (World.init sel) (callsOn key calls) := by
  have hmem := fun calls xs =>
    mem_callOutcomes (K := K) (V := V) (.init sel) hnext rfl calls xs
  have hempty : ∀ key : K, SameAt (V := V) key SessionRegister.empty SessionRegister.empty :=
    fun _ => ⟨rfl, fun _ => rfl⟩
  rw [hmem, registers_init, servesAll_iff_local hempty]
  exact and_congr_right fun _ => forall_congr' fun key => (hmem _ _).symm

/-- Session 1 puts `0` and `1` under key `0`, then `2` under key `9`. A causal store may show
session 2 the `2` and after that still the `0`. -/
theorem keys_independent_causal :
    ([.put 1, .put 1, .put 1, .got 2 1, .got 0 1] : List (Response Nat Nat))
      ∈ callOutcomes (World.init .causal)
          [(.put 0 0, 1), (.put 0 1, 1), (.put 9 2, 1), (.get 9, 2), (.get 0, 2)] := by
  refine (keys_independent rfl _ _).mpr ⟨rfl, fun key => ?_⟩
  by_cases h0 : key = 0
  · subst h0
    exact ⟨[(.put 0 0, 1, zeroDraws), (.put 0 1, 1, zeroDraws), (.get 0, 2, zeroDraws)], rfl,
      by decide⟩
  · by_cases h9 : key = 9
    · subst h9
      exact ⟨[(.put 9 2, 1, zeroDraws), (.get 9, 2, zeroDraws)], rfl, by decide⟩
    · refine ⟨[], ?_, ?_⟩
      · simp [callsOn, callsOf, Call.newOperation, Ne.symm h0, Ne.symm h9]
      · simp [responsesOn, World.execAll, Call.newOperation, Ne.symm h0, Ne.symm h9]

end MockDB
