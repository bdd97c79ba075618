import MockDB.KvStore.Clients
import MockDB.Proof.Pending
import MockDB.Proof.Refine

/-!
# Linearizability of the store

Under the linearizable selector every critical section does what a map of version lists
does to the call, so the order in which the critical sections ran is a linearization. The
history is that order without the GETs that threw. Ids play no part in it: they may have
been handed out in any other order.
-/

namespace MockDB

open Linearizability

variable {K V : Type} [DecidableEq K]

/-- The sequential store: all values put on each key, the last of which a GET returns. -/
def kvSpec : Spec (K → List V) (Call K V × Int) (Response K V) where
  init _ := []
  step s op :=
    match op.1 with
    | .put key value => (fun k => if k = key then s key ++ [value] else s k, .put 1)
    | .get key =>
        (s, match (s key).getLast? with
            | none => .threw (.keyNotFound key)
            | some value => .got value (s key).length)

theorem kvSpec_get_none {st : K → List V} {key : K} (h : st key = []) (s : Int) :
    (kvSpec.step st (.get key, s)).2 = .threw (.keyNotFound key) := by
  simp only [kvSpec, h, List.getLast?_nil]

theorem kvSpec_get_last {st : K → List V} {key : K} {value : V}
    (h : (st key).getLast? = some value) (s : Int) :
    (kvSpec.step st (.get key, s)).2 = .got value (st key).length := by
  simp only [kvSpec, h]

/-- The call threw, so its transaction was not committed. -/
def Response.isThrew : Response K V → Bool
  | threw _ => true
  | _ => false

omit [DecidableEq K] in
/-- A committed transaction records a call with its response. -/
inductive Records : Transaction K V → Entry Nat (Call K V × Int) (Response K V) → Prop
  | put {tx : Transaction K V} {c : Nat} {key : K} {value : V}
      (hop : tx.op = .put ⟨key, value⟩ (some ⟨true⟩)) :
      Records tx ⟨c, (.put key value, tx.sessionId), .put 1⟩
  | get {tx : Transaction K V} {c : Nat} {key : K} {r : GetResponse K V}
      (hop : tx.op = .get ⟨key⟩ (some r)) :
      Records tx ⟨c, (.get key, tx.sessionId), .got r.value r.versionNumber⟩

/-- Every GET in the history carries the last PUT on its key before it, numbered by how
many PUTs there were. -/
def LatestReads (h : List (Transaction K V)) : Prop :=
  ∀ n tx p r, h[n]? = some tx → tx.op = .get p (some r) →
    (versionsOf p.key (h.take n)).getLast? = some (r.value, r.writtenByTxId)
      ∧ r.versionNumber = (versionsOf p.key (h.take n)).length

/-! ## Calls and their transactions -/

/-- How calls, their transactions, the events and the log hang together, whatever the
selector. -/
structure CallsInv (s : Clients K V) : Prop where
  reach : Reachable s.world
  /-- A call that has allotted its id waits with its own transaction. -/
  waits : ∀ (c : Nat) (x : ClientCall K V) (txId : Nat), s.calls[c]? = some x →
    x.phase = .allotted txId →
    ∃ tx, s.world.pending txId = some tx ∧ tx.op = x.call.newOperation
      ∧ tx.sessionId = x.sessionId
  /-- No two calls wait with one id. -/
  own : ∀ (c c' : Nat) (x x' : ClientCall K V) (txId : Nat), s.calls[c]? = some x →
    s.calls[c']? = some x' → x.phase = .allotted txId → x'.phase = .allotted txId → c = c'
  made : ∀ (c : Nat) (x : ClientCall K V), s.calls[c]? = some x →
    .inv c (x.call, x.sessionId) ∈ s.events
  known : ∀ c op, .inv c op ∈ s.events → c < s.calls.length
  /-- Calls in the log have left their critical section, and only those. -/
  logged : ∀ e ∈ s.log, ∃ x : ClientCall K V, s.calls[e.id]? = some x
    ∧ (x.phase = .left e.ret ∨ x.phase = .returned)
  left : ∀ (c : Nat) (x : ClientCall K V) (r : Response K V), s.calls[c]? = some x →
    x.phase = .left r → ∃ e ∈ s.log, e.id = c ∧ e.ret = r
  linear : IsLinearization s.events s.log

theorem callsInv_init (sel : ReadResponseSelector) :
    CallsInv (Clients.init sel : Clients K V) where
  reach := .init sel
  waits := by intro c _ _ hc; cases hc
  own := by intro c _ _ _ _ hc; cases hc
  made := by intro c _ hc; cases hc
  known := by intro c _ hc; cases hc
  logged := by intro e he; cases he
  left := by intro c _ _ hc; cases hc
  linear := isLinearization_nil

section Step

variable {s : Clients K V}

omit [DecidableEq K] in
/-- A call after one call was updated. -/
theorem calls_set {calls : List (ClientCall K V)} {c c' : Nat} {x y : ClientCall K V}
    (h : (calls.set c x)[c']? = some y) : (c' = c ∧ y = x) ∨ (c' ≠ c ∧ calls[c']? = some y) := by
  rw [List.getElem?_set] at h
  by_cases hc : c = c'
  · rw [if_pos hc] at h
    split at h
    · exact Or.inl ⟨hc.symm, (Option.some.inj h).symm⟩
    · cases h
  · rw [if_neg hc] at h
    exact Or.inr ⟨fun he => hc he.symm, h⟩

omit [DecidableEq K] in
theorem calls_set_self {calls : List (ClientCall K V)} {c : Nat} {x y : ClientCall K V}
    (h : calls[c]? = some y) : (calls.set c x)[c]? = some x :=
  List.getElem?_set_self (List.getElem?_eq_some_iff.mp h).1

/-- Calls stay the calls that were made, however far one of them comes. -/
theorem CallsInv.made_set (h : CallsInv s) {c : Nat} {x y : ClientCall K V}
    (hx : s.calls[c]? = some x) (hy : (y.call, y.sessionId) = (x.call, x.sessionId)) :
    ∀ (c' : Nat) (z : ClientCall K V), (s.calls.set c y)[c']? = some z →
      .inv c' (z.call, z.sessionId) ∈ s.events := by
  intro c' z hz
  rcases calls_set hz with ⟨rfl, rfl⟩ | ⟨-, hz⟩
  · rw [hy]
    exact h.made c' x hx
  · exact h.made c' z hz

/-- A call that no longer waits shares its id with none. -/
theorem CallsInv.own_set (h : CallsInv s) (c : Nat) {y : ClientCall K V}
    (hy : ∀ txId, y.phase ≠ .allotted txId) :
    ∀ (c₁ c₂ : Nat) (x₁ x₂ : ClientCall K V) (txId : Nat), (s.calls.set c y)[c₁]? = some x₁ →
      (s.calls.set c y)[c₂]? = some x₂ → x₁.phase = .allotted txId → x₂.phase = .allotted txId →
      c₁ = c₂ := by
  intro c₁ c₂ x₁ x₂ txId hx₁ hx₂ hph₁ hph₂
  rcases calls_set hx₁ with ⟨-, rfl⟩ | ⟨-, hx₁⟩
  · exact absurd hph₁ (hy txId)
  · rcases calls_set hx₂ with ⟨-, rfl⟩ | ⟨-, hx₂⟩
    · exact absurd hph₂ (hy txId)
    · exact h.own c₁ c₂ x₁ x₂ txId hx₁ hx₂ hph₁ hph₂

theorem CallsInv.known_set (h : CallsInv s) (c : Nat) (y : ClientCall K V) :
    ∀ c' op, .inv c' op ∈ s.events → c' < (s.calls.set c y).length := by
  intro c' op hop
  rw [List.length_set]
  exact h.known c' op hop

theorem callsInv_invoke (h : CallsInv s) (call : Call K V) (sessionId : Int) :
    CallsInv (s.step (.invoke call sessionId)) where
  reach := h.reach
  waits := by
    intro c x txId hc hx
    rcases ListOrder.getElem?_concat hc with ⟨-, hc⟩ | ⟨-, rfl⟩
    · exact h.waits c x txId hc hx
    · cases hx
  own := by
    intro c c' x x' txId hc hc' hx hx'
    rcases ListOrder.getElem?_concat hc with ⟨-, hc⟩ | ⟨-, rfl⟩
    · rcases ListOrder.getElem?_concat hc' with ⟨-, hc'⟩ | ⟨-, rfl⟩
      · exact h.own c c' x x' txId hc hc' hx hx'
      · cases hx'
    · cases hx
  made := by
    intro c x hc
    rcases ListOrder.getElem?_concat hc with ⟨-, hc⟩ | ⟨rfl, rfl⟩
    · exact List.mem_append_left _ (h.made c x hc)
    · exact List.mem_append_right _ (List.mem_singleton_self _)
  known := by
    intro c op hc
    show c < (s.calls ++ [_]).length
    rw [List.length_append, List.length_singleton]
    rcases List.mem_append.mp hc with hc | hc
    · exact Nat.lt_succ_of_lt (h.known c op hc)
    · rw [(Event.inv.inj (List.mem_singleton.mp hc)).1]
      exact Nat.lt_succ_self _
  logged := by
    intro e he
    obtain ⟨x, hx, hph⟩ := h.logged e he
    exact ⟨x, by
      rw [← hx]; exact List.getElem?_append_left (List.getElem?_eq_some_iff.mp hx).1, hph⟩
  left := by
    intro c x r hc hx
    rcases ListOrder.getElem?_concat hc with ⟨-, hc⟩ | ⟨-, rfl⟩
    · exact h.left c x r hc hx
    · cases hx
  linear := h.linear.invoke fun op' hop => Nat.lt_irrefl _ (h.known _ op' hop)

theorem callsInv_allot (h : CallsInv s) (c : Nat) : CallsInv (s.step (.allot c)) := by
  have hok := worldOk_reachable h.reach
  unfold Clients.step
  dsimp only
  split
  · rename_i call sessionId hc
    -- the new id is nobody's
    have hid : ∀ (c' : Nat) (x : ClientCall K V) (txId : Nat), s.calls[c']? = some x →
        x.phase = .allotted txId → txId ≠ s.world.txCount + 1 := by
      intro c' x txId hx hph
      obtain ⟨tx, hp, -⟩ := h.waits c' x txId hx hph
      have := pending_le hok hp
      omega
    refine ⟨h.reach.act (.create call sessionId), ?_, ?_, h.made_set hc rfl, h.known_set c _,
      ?_, ?_, h.linear⟩
    · intro c' x txId hx hph
      rcases calls_set hx with ⟨rfl, rfl⟩ | ⟨-, hx⟩
      · obtain rfl := Phase.allotted.inj hph
        exact ⟨_, pending_create_self hok call sessionId, rfl, rfl⟩
      · obtain ⟨tx, hp, hop, hs⟩ := h.waits c' x txId hx hph
        exact ⟨tx, pending_create_of hp call sessionId, hop, hs⟩
    · intro c₁ c₂ x₁ x₂ txId hx₁ hx₂ hph₁ hph₂
      rcases calls_set hx₁ with ⟨rfl, rfl⟩ | ⟨-, hold₁⟩
      · rcases calls_set hx₂ with ⟨rfl, -⟩ | ⟨-, hold₂⟩
        · rfl
        · exact absurd (Phase.allotted.inj hph₁).symm (hid c₂ x₂ txId hold₂ hph₂)
      · rcases calls_set hx₂ with ⟨rfl, rfl⟩ | ⟨-, hold₂⟩
        · exact absurd (Phase.allotted.inj hph₂).symm (hid c₁ x₁ txId hold₁ hph₁)
        · exact h.own c₁ c₂ x₁ x₂ txId hold₁ hold₂ hph₁ hph₂
    · intro e he
      obtain ⟨x, hx, hph⟩ := h.logged e he
      refine ⟨x, ?_, hph⟩
      rw [← hx, List.getElem?_set_ne]
      rintro rfl
      rw [hc] at hx
      obtain rfl := Option.some.inj hx
      rcases hph with hph | hph <;> cases hph
    · intro c' x r hx hph
      rcases calls_set hx with ⟨rfl, rfl⟩ | ⟨-, hx⟩
      · cases hph
      · exact h.left c' x r hx hph
  · exact h

/-- A call waiting outside its critical section is not in the log. -/
theorem CallsInv.not_logged (h : CallsInv s) {c txId : Nat} {x : ClientCall K V}
    (hx : s.calls[c]? = some x) (hph : x.phase = .allotted txId) :
    c ∉ s.log.map (·.id) := by
  intro hmem
  obtain ⟨e, he, rfl⟩ := List.mem_map.mp hmem
  obtain ⟨y, hy, hph'⟩ := h.logged e he
  rw [hx] at hy
  obtain rfl := Option.some.inj hy
  rw [hph] at hph'
  rcases hph' with hph' | hph' <;> cases hph'

theorem callsInv_enter (h : CallsInv s) (c : Nat) (draws : Draws) :
    CallsInv (s.step (.enter c draws)) := by
  unfold Clients.step
  dsimp only
  split
  · rename_i call sessionId txId hc
    split
    · exact h
    · rename_i r hr
      have hnot := h.not_logged hc rfl
      refine ⟨h.reach.act (.enter txId draws), ?_, h.own_set c (fun _ hph => by cases hph),
        h.made_set hc rfl, h.known_set c _, ?_, ?_, ?_⟩
      · intro c' x txId' hx hph
        rcases calls_set hx with ⟨-, rfl⟩ | ⟨hne, hx⟩
        · cases hph
        · have hx' : s.calls[c']? = some x := hx
          obtain ⟨tx, hp, hop, hs⟩ := h.waits c' x txId' hx' hph
          have hid : txId' ≠ txId := by
            rintro rfl
            exact hne (h.own c' c x _ txId' hx' hc hph rfl)
          exact ⟨tx, by rw [pending_enter_ne hid]; exact hp, hop, hs⟩
      · intro e he
        rcases List.mem_append.mp he with he' | he'
        · obtain ⟨x, hx, hph⟩ := h.logged e he'
          refine ⟨x, ?_, hph⟩
          rw [← hx, List.getElem?_set_ne]
          rintro rfl
          exact hnot (List.mem_map.mpr ⟨e, he', rfl⟩)
        · rw [List.mem_singleton.mp he']
          exact ⟨_, calls_set_self hc, Or.inl rfl⟩
      · intro c' x r' hx hph
        rcases calls_set hx with ⟨rfl, rfl⟩ | ⟨-, hx⟩
        · obtain rfl := Phase.left.inj hph
          exact ⟨_, List.mem_append_right _ (List.mem_singleton_self _), rfl, rfl⟩
        · obtain ⟨e, he, hid, hret⟩ := h.left c' x r' hx hph
          exact ⟨e, List.mem_append_left _ he, hid, hret⟩
      · exact h.linear.takeEffect (e := ⟨c, (call, sessionId), r⟩) (h.made c _ hc) hnot
  · exact h

theorem callsInv_ret (h : CallsInv s) (c : Nat) : CallsInv (s.step (.ret c)) := by
  unfold Clients.step
  dsimp only
  split
  · rename_i call sessionId r hc
    refine ⟨h.reach, ?_, h.own_set c (fun _ hph => by cases hph), ?_, ?_, ?_, ?_, ?_⟩
    · intro c' x txId hx hph
      rcases calls_set hx with ⟨-, rfl⟩ | ⟨-, hx⟩
      · cases hph
      · exact h.waits c' x txId hx hph
    · intro c' x hx
      exact List.mem_append_left _ (h.made_set (y := ⟨call, sessionId, .returned⟩) hc rfl c' x hx)
    · intro c' op hop
      rcases List.mem_append.mp hop with hop | hop
      · exact h.known_set c _ c' op hop
      · cases List.mem_singleton.mp hop
    · intro e he
      obtain ⟨x, hx, hph⟩ := h.logged e he
      by_cases hid : e.id = c
      · exact ⟨_, by rw [hid]; exact calls_set_self hc, Or.inr rfl⟩
      · exact ⟨x, by rw [← hx, List.getElem?_set_ne (Ne.symm hid)], hph⟩
    · intro c' x r' hx hph
      rcases calls_set hx with ⟨-, rfl⟩ | ⟨-, hx⟩
      · cases hph
      · exact h.left c' x r' hx hph
    · obtain ⟨e, he, hid, hret⟩ := h.left c _ r hc rfl
      rw [← hid, ← hret]
      exact h.linear.respond he
  · exact h

theorem callsInv_step (h : CallsInv s) (a : ClientStep K V) : CallsInv (s.step a) := by
  cases a with
  | invoke call sessionId => exact callsInv_invoke h call sessionId
  | allot c => exact callsInv_allot h c
  | enter c draws => exact callsInv_enter h c draws
  | ret c => exact callsInv_ret h c

/-! ## The log and the store -/

/-- Under the linearizable selector the log replays on the sequential store, and the store
is what that replay leaves behind. -/
structure LogInv (s : Clients K V) : Prop where
  strong : s.world.store.readSelector = .linearizable
  legal : kvSpec.Legal s.log
  versions : kvSpec.after s.log = (registers s.world.store.history).versions
  /-- The history is the log without the calls that threw. -/
  history : List.Forall₂ Records s.world.store.history (s.log.filter (fun e => !e.ret.isThrew))
  latest : LatestReads s.world.store.history

theorem logInv_init : LogInv (Clients.init .linearizable : Clients K V) where
  strong := rfl
  legal := Spec.legal_nil kvSpec
  versions := rfl
  history := .nil
  latest := by intro n tx p r hn; cases hn

theorem latestReads_put {h : List (Transaction K V)} (hl : LatestReads h) (tx : Transaction K V)
    (key : K) (v : V) : LatestReads (h ++ [tx.setPutResponse key v]) := by
  intro n t p r hn hop
  rcases ListOrder.getElem?_concat hn with ⟨hlt, hn⟩ | ⟨-, rfl⟩
  · rw [ListOrder.take_concat (Nat.le_of_lt hlt)]
    exact hl n t p r hn hop
  · cases hop

theorem latestReads_get {h : List (Transaction K V)} (hl : LatestReads h) (tx : Transaction K V)
    {key : K} {i : Nat} {c : V × Nat} (hc : (versionsOf key h)[i]? = some c)
    (hi : i + 1 = (versionsOf key h).length) :
    LatestReads (h ++ [tx.setResponse key (chosen key i c)]) := by
  intro n t p r hn hop
  rcases ListOrder.getElem?_concat hn with ⟨hlt, hn⟩ | ⟨rfl, rfl⟩
  · rw [ListOrder.take_concat (Nat.le_of_lt hlt)]
    exact hl n t p r hn hop
  · obtain ⟨rfl, hr⟩ := Operation.get.inj hop
    obtain rfl := Option.some.inj hr
    rw [List.take_left, List.getLast?_eq_getElem?, show (versionsOf key h).length - 1 = i by omega]
    exact ⟨hc, hi⟩

/-- **A critical section does to the store what the sequential store does to the call.** -/
theorem logInv_enter (hs : CallsInv s) (h : LogInv s) (c : Nat) (draws : Draws) :
    LogInv (s.step (.enter c draws)) := by
  have hwf := wellFormed_reachable hs.reach
  unfold Clients.step
  dsimp only
  split
  · rename_i call sessionId txId hc
    obtain ⟨tx, hp, hop, hsess⟩ := hs.waits c _ txId hc rfl
    cases call with
    | put key v =>
        obtain ⟨hr, hst⟩ := enter_put hp hop draws
        have hfresh := (worldOk_reachable hs.reach).waiting_fresh hp
        rw [hr]
        dsimp only
        refine ⟨?_, Spec.legal_concat h.legal rfl, ?_, ?_, ?_⟩
        · rw [hst]; exact h.strong
        · rw [Spec.after_concat, h.versions, hst, hwf.registers_putLocked hfresh v]
          rfl
        · rw [hst, KvStore.putLocked_history, List.filter_append]
          refine List.rel_append h.history (.cons ?_ .nil)
          obtain rfl : tx.sessionId = sessionId := hsess
          exact .put rfl
        · rw [hst, KvStore.putLocked_history]
          exact latestReads_put h.latest tx key v
    | get key =>
        rcases enter_get hwf hp hop draws with ⟨hv, -, hr, hst⟩ | ⟨i, d, ha, -, hr, hst⟩
        · -- nothing to read: the GET throws and the store is as it was
          rw [hr]
          dsimp only
          refine ⟨?_, Spec.legal_concat h.legal ?_, ?_, ?_, ?_⟩
          · rw [hst]; exact h.strong
          · have hnil : (registers s.world.store.history).versions key = [] :=
              congrArg (List.map Prod.fst) hv
            rw [h.versions]
            exact kvSpec_get_none hnil sessionId
          · rw [Spec.after_concat, hst]
            exact h.versions
          · rw [hst, List.filter_append, List.filter_cons_of_neg (by simp [Response.isThrew]),
              List.filter_nil, List.append_nil]
            exact h.history
          · rw [hst]; exact h.latest
        · -- the latest version is the only one allowed
          have hi := ha.2.2 (by rw [h.strong]; rfl)
          have hlen : i + 1 = ((registers s.world.store.history).versions key).length := by
            simpa [registers] using hi
          have hlast := (WellFormed.mayRead_of_allowed ha).eq_last_of_index hlen
          rw [hr]
          dsimp only
          refine ⟨?_, Spec.legal_concat h.legal ?_, ?_, ?_, ?_⟩
          · rw [hst, KvStore.afterGet_readSelector, h.strong]; rfl
          · rw [h.versions]
            exact (kvSpec_get_last hlast sessionId).trans (congrArg _ hlen.symm)
          · rw [Spec.after_concat, hst, WellFormed.registers_afterGet _ ha]
            exact h.versions
          · rw [hst, KvStore.afterGet_history, List.filter_append]
            refine List.rel_append h.history (.cons ?_ .nil)
            obtain rfl : tx.sessionId = sessionId := hsess
            exact .get (r := chosen key i d) rfl
          · rw [hst, KvStore.afterGet_history]
            exact latestReads_get h.latest tx ha.1 hi
  · exact h

theorem logInv_step (hs : CallsInv s) (h : LogInv s) (a : ClientStep K V) : LogInv (s.step a) := by
  cases a with
  | invoke call sessionId => exact ⟨h.strong, h.legal, h.versions, h.history, h.latest⟩
  | allot c =>
      unfold Clients.step
      dsimp only
      split
      · exact ⟨h.strong, h.legal, h.versions, h.history, h.latest⟩
      · exact h
  | enter c draws => exact logInv_enter hs h c draws
  | ret c =>
      unfold Clients.step
      dsimp only
      split
      · exact ⟨h.strong, h.legal, h.versions, h.history, h.latest⟩
      · exact h

end Step

theorem inv_run (steps : List (ClientStep K V)) {s : Clients K V} (hs : CallsInv s)
    (h : LogInv s) : CallsInv (s.run steps) ∧ LogInv (s.run steps) := by
  induction steps generalizing s with
  | nil => exact ⟨hs, h⟩
  | cons a steps ih => exact ih (callsInv_step hs a) (logInv_step hs h a)

/-- **The store is linearizable under the linearizable selector.** However many calls are
under way, the order of their critical sections linearizes what they return, failing GETs
included. The history is that order without the failing GETs, and so respects real time:
if a call returned before another was made, its transaction comes first. Every GET in the
history has the value and the number of the last PUT on its key before it. -/
theorem store_linearizable (steps : List (ClientStep K V)) :
    let s := (Clients.init .linearizable).run steps
    IsLinearization s.events s.log ∧ kvSpec.Legal s.log
      ∧ List.Forall₂ Records s.world.store.history (s.log.filter (fun e => !e.ret.isThrew))
      ∧ RespectsRealTime s.events (s.log.filter (fun e => !e.ret.isThrew))
      ∧ LatestReads s.world.store.history := by
  intro s
  obtain ⟨hs, h⟩ : CallsInv s ∧ LogInv s := inv_run steps (callsInv_init .linearizable) logInv_init
  exact ⟨hs.linear, h.legal, h.history, hs.linear.respectsRealTime_filter _, h.latest⟩

end MockDB
