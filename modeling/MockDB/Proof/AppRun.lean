import MockDB.Applications.App
import MockDB.Proof.Latest
import Mathlib.Logic.Function.Basic

/-!
# What an operation does to a store

On a linearizable store an operation that nothing interrupts does what it does on a map,
whatever its random numbers. On any store it does one of the things its `wp` speaks of.
Both rest on keys being different strings when they are different keys.
-/

namespace MockDB

namespace App

variable {Key α : Type} [DecidableEq Key] {name : Key → String}

/-- What `get` throws on a key that was never put. -/
def missing (name : Key → String) (key : Key) : StoreException String := .keyNotFound (name key)

/-! ## The store's calls on a map -/

section OnMap

variable (miss : Key → StoreException String)

@[simp] theorem onMap_get (key : Key) (s : Int) (m : Key → Option Json) :
    (get key s).onMap miss m = ((m key).elim (.error (.store (miss key))) .ok, m) := by
  unfold get
  rw [Program.onMap]
  cases m key <;> rfl

@[simp] theorem onMap_put (key : Key) (v : Json) (s : Int) (m : Key → Option Json) :
    (put key v s).onMap miss m = (.ok (), Function.update m key (some v)) := rfl

@[simp] theorem onMap_json (result : Option α) (m : Key → Option Json) :
    (json result : App Key α).onMap miss m = (result.elim (.error .json) .ok, m) := by
  cases result <;> rfl

/-- A list of ids, or a new empty one. -/
theorem onMap_getList {listName : String} (hname : listName ≠ "count") {key : Key} (s : Int)
    {m : Key → Option Json} {ids : Option (List Int)} {idList : List Int → Json}
    (hm : m key = ids.map idList) (hnil : idList [] = Json.listOf listName [] := by rfl) :
    (getList listName key s).onMap miss m = (.ok (idList (ids.getD [])), m) := by
  have hnew : Json.null.setList listName [] 0 = some (idList []) :=
    (Json.setList_null [] hname).trans (congrArg some hnil.symm)
  unfold getList
  cases ids with
  | none => simp [hm, hnew]
  | some ids => simp [hm]

end OnMap

/-! ## On a linearizable store -/

/-- A linearizable store reached by some run. -/
structure Strong (w : World String Json) : Prop where
  reachable : Reachable w
  linearizable : w.store.readSelector = .linearizable

theorem strong_init : Strong (World.init .linearizable) := ⟨.init _, rfl⟩

/-- The latest values, under the keys of one application. -/
def contents (name : Key → String) (w : World String Json) : Key → Option Json := w.latest ∘ name

omit [DecidableEq Key] in
theorem contents_init : contents name (World.init .linearizable) = fun _ => none := rfl

/-- **An operation alone on a linearizable store runs on a map.** -/
theorem run_onMap (hname : Function.Injective name) (p : App Key α) (draws : Nat → Draws)
    {w : World String Json} (h : Strong w) :
    (run name p draws w).1 = (p.onMap (missing name) (contents name w)).1
      ∧ contents name (run name p draws w).2 = (p.onMap (missing name) (contents name w)).2
      ∧ Strong (run name p draws w).2 := by
  induction p generalizing draws w with
  | ret a => exact ⟨rfl, rfl, h⟩
  | raise e => exact ⟨rfl, rfl, h⟩
  | get key s next ih =>
      obtain ⟨hres, hlat, hsel⟩ := get_latest h.reachable h.linearizable (name key) s (draws 0)
      have hw : Strong (w.get (name key) s (draws 0)).2 := ⟨h.reachable.get _ _ _, hsel⟩
      have hcontents : contents name (w.get (name key) s (draws 0)).2 = contents name w := by
        unfold contents; rw [hlat]
      have hans : (w.get (name key) s (draws 0)).1
          = (contents name w key).elim (.error (missing name key)) .ok := by
        rw [hres]
        unfold contents
        rw [Function.comp_apply]
        cases w.latest (name key) <;> rfl
      have hrest := ih (w.get (name key) s (draws 0)).1 (fun n => draws (n + 1)) hw
      rw [hcontents] at hrest
      rw [Program.onMap, ← hans]
      exact hrest
  | put key v s next ih =>
      have hw : Strong (w.put (name key) v s) := ⟨h.reachable.put _ _ _, h.linearizable⟩
      have hcontents : contents name (w.put (name key) v s)
          = Function.update (contents name w) key (some v) := by
        unfold contents
        rw [latest_put h.reachable, Function.update_comp_eq_of_injective _ hname]
      have hrest := ih draws hw
      rw [hcontents] at hrest
      exact hrest

omit [DecidableEq Key] in
/-- What is under other strings than the application's keys stays. -/
theorem run_latest_of_not_key (p : App Key α) (draws : Nat → Draws) {w : World String Json}
    (h : Strong w) {text : String} (htext : ∀ key, name key ≠ text) :
    (run name p draws w).2.latest text = w.latest text := by
  induction p generalizing draws w with
  | ret a => rfl
  | raise e => rfl
  | get key s next ih =>
      obtain ⟨-, hlat, hsel⟩ := get_latest h.reachable h.linearizable (name key) s (draws 0)
      have hw : Strong (w.get (name key) s (draws 0)).2 := ⟨h.reachable.get _ _ _, hsel⟩
      exact (ih _ (fun n => draws (n + 1)) hw).trans (congrFun hlat text)
  | put key v s next ih =>
      have hw : Strong (w.put (name key) v s) := ⟨h.reachable.put _ _ _, h.linearizable⟩
      refine (ih draws hw).trans ?_
      rw [latest_put h.reachable, Function.update_of_ne (htext key).symm]

omit [DecidableEq Key] in
/-- **An operation that leaves what is under the application's keys changes no value at all.** -/
theorem run_latest_iff (p : App Key α) (draws : Nat → Draws) {w : World String Json}
    (h : Strong w) :
    (run name p draws w).2.latest = w.latest
      ↔ contents name (run name p draws w).2 = contents name w := by
  constructor
  · intro heq
    unfold contents
    rw [heq]
  · intro heq
    funext text
    by_cases hkey : ∃ key, name key = text
    · obtain ⟨key, rfl⟩ := hkey
      exact congrFun heq key
    · exact run_latest_of_not_key p draws h fun key hname => hkey ⟨key, hname⟩

/-- **Whole operations follow the states of a machine**, if each leaves the map of the next. -/
theorem runAll_simulates (hname : Function.Injective name) {State Call : Type}
    {toMap : State → Key → Option Json} {step : State → Call → State} {op : Call → App Key Unit}
    (hop : ∀ st call, ((op call).onMap (missing name) (toMap st)).2 = toMap (step st call))
    (draws : Call → Nat → Draws) (calls : List Call) {w : World String Json} (h : Strong w)
    {st : State} (hst : contents name w = toMap st) :
    Strong (runAll name w (calls.map fun call => (op call, draws call)))
      ∧ contents name (runAll name w (calls.map fun call => (op call, draws call)))
        = toMap (calls.foldl step st) := by
  induction calls generalizing w st with
  | nil => exact ⟨h, hst⟩
  | cons call calls ih =>
      obtain ⟨-, hcontents, hstrong⟩ := run_onMap hname (op call) (draws call) h
      exact ih hstrong (by rw [hcontents, hst, hop])

/-! ## On any store -/

/-- The session registers under the keys of one application. -/
def view (name : Key → String) (w : World String Json) : SessionRegister Key Json Int :=
  (registers w.store.history).comap name

omit [DecidableEq Key] in
/-- What is stored under a key is its register. -/
theorem versions_eq {w : World String Json} (h : Reachable w) (key : Key) :
    versions name w key = (view name w).versions key := by
  show ((w.store.kvMap.lookup (name key)).getD []).map Prod.fst
    = (versionsOf (name key) w.store.history).map Prod.fst
  have hwf := wellFormed_reachable h
  cases hl : w.store.kvMap.lookup (name key) with
  | none => rw [hwf.lookup_eq_none.mp hl]; rfl
  | some vs => rw [hwf.lookup_some hl]; rfl

theorem view_put (hname : Function.Injective name) {w : World String Json} (h : Reachable w)
    (key : Key) (v : Json) (s : Int) :
    view name (w.put (name key) v s) = (view name w).write s key v := by
  unfold view
  rw [registers_put h, SessionRegister.comap_write hname]

/-- A `get` reads a version its session may read, or finds none. -/
theorem view_get (hname : Function.Injective name) {w : World String Json} (h : Reachable w)
    (key : Key) (s : Int) (draws : Draws) :
    ((view name w).versions key = []
        ∧ (w.get (name key) s draws).1 = .error (missing name key)
        ∧ view name (w.get (name key) s draws).2 = view name w)
      ∨ ∃ i v, (view name w).MayRead s key i v ∧ (w.get (name key) s draws).1 = .ok v
        ∧ view name (w.get (name key) s draws).2 = (view name w).read s key i := by
  show _ ∧ (w._get (name key) s draws).1.map (·.value) = _
      ∧ view name (w._get (name key) s draws).2 = _
    ∨ ∃ i v, _ ∧ (w._get (name key) s draws).1.map (·.value) = _
      ∧ view name (w._get (name key) s draws).2 = _
  rcases registers_get h (name key) s draws with
    ⟨hno, hres, hst⟩ | ⟨i, r, hread, -, -, hres, hreg, -⟩
  · left
    refine ⟨hno, by rw [hres]; rfl, ?_⟩
    unfold view
    rw [hst]
  · right
    refine ⟨i, r.value, hread, by rw [hres]; rfl, ?_⟩
    unfold view
    rw [hreg, SessionRegister.comap_read hname]

section Wp

variable (miss : Key → StoreException String) (r : SessionRegister Key Json Int)

@[simp] theorem wp_put (key : Key) (v : Json) (s : Int)
    (Q : Except AppException Unit → SessionRegister Key Json Int → Prop) :
    (put key v s).wp miss r Q = Q (.ok ()) (r.write s key v) := rfl

@[simp] theorem wp_json (result : Option α)
    (Q : Except AppException α → SessionRegister Key Json Int → Prop) :
    (json result : App Key α).wp miss r Q = Q (result.elim (.error .json) .ok) r := by
  cases result <;> rfl

theorem wp_get (key : Key) (s : Int)
    (Q : Except AppException Json → SessionRegister Key Json Int → Prop) :
    (get key s).wp miss r Q ↔ (r.versions key = [] → Q (.error (.store (miss key))) r)
      ∧ ∀ i v, r.MayRead s key i v → Q (.ok v) (r.read s key i) := Iff.rfl

/-- A list, whichever version is read, or a new empty one. -/
theorem wp_getList {listName : String} (hname : listName ≠ "count") {key : Key} (s : Int)
    {r : SessionRegister Key Json Int} (hr : r.Bounded) {Lists : Json → Prop}
    (hnew : Lists (Json.listOf listName [])) (hlist : ∀ v ∈ r.versions key, Lists v) :
    (getList listName key s).wp miss r fun res r' => ∃ v, res = .ok v ∧ Lists v
      ∧ Program.Grown (fun _ => False) r r' := by
  have hempty : Json.null.setList listName [] 0 = some (Json.listOf listName []) :=
    Json.setList_null [] hname
  unfold getList
  rw [Program.wp_bind, Program.wp_attempt, wp_get]
  refine ⟨fun _ => ?_, fun i v hread => ?_⟩
  · rw [Program.andThen_ok, wp_json, hempty]
    exact ⟨_, rfl, hnew, .refl hr⟩
  · exact ⟨v, rfl, hlist v (List.mem_of_getElem? hread.1), Program.grown_read hr hread⟩

end Wp

/-- **An operation alone does what its `wp` says.** -/
theorem run_wp (hname : Function.Injective name) (p : App Key α) (draws : Nat → Draws)
    {w : World String Json} (h : Reachable w)
    {Q : Except AppException α → SessionRegister Key Json Int → Prop}
    (hp : p.wp (missing name) (view name w) Q) :
    Q (run name p draws w).1 (view name (run name p draws w).2)
      ∧ Reachable (run name p draws w).2 := by
  induction p generalizing draws w with
  | ret a => exact ⟨hp, h⟩
  | raise e => exact ⟨hp, h⟩
  | get key s next ih =>
      have hnext : (next (w.get (name key) s (draws 0)).1).wp (missing name)
          (view name (w.get (name key) s (draws 0)).2) Q := by
        rcases view_get hname h key s (draws 0) with ⟨hno, hres, hview⟩ | ⟨i, v, hread, hres, hview⟩
        · rw [hres, hview]; exact hp.1 hno
        · rw [hres, hview]; exact hp.2 i v hread
      exact ih _ (fun n => draws (n + 1)) (h.get _ _ _) hnext
  | put key v s next ih =>
      exact ih _ (h.put _ _ _) (by rw [view_put hname h]; exact hp)

omit [DecidableEq Key] in
/-- Dropping what an operation returns leaves the store as it does. -/
theorem run_discard (p : App Key α) (draws : Nat → Draws) (w : World String Json) :
    (run name (p >>= fun _ => pure () : App Key Unit) draws w).2 = (run name p draws w).2 := by
  show (run name (p.bind fun _ => Program.ret ()) draws w).2 = _
  induction p generalizing draws w with
  | ret a => rfl
  | raise e => rfl
  | get key s next ih => exact ih _ _ _
  | put key v s next ih => exact ih _ _

/-! ## What an operation writes to -/

section Writes

variable {S : Key → Prop}

omit [DecidableEq Key] in
theorem writes_get (key : Key) (s : Int) : (get key s).Writes S := by
  intro r
  cases r <;> trivial

omit [DecidableEq Key] in
theorem writes_put {key : Key} (hkey : S key) (v : Json) (s : Int) : (put key v s).Writes S :=
  ⟨hkey, trivial⟩

omit [DecidableEq Key] in
theorem writes_json (result : Option α) : (json result : App Key α).Writes S :=
  Program.writes_ofOption _ result

end Writes

/-! ## Among others -/

section Keeps

variable {P : Key → Json → Prop}

omit [DecidableEq Key] in
theorem keeps_get {key : Key} {Q : Json → Prop} (s : Int) (h : ∀ v, P key v → Q v) :
    (get key s).Keeps P Q := ⟨fun _ => trivial, h⟩

omit [DecidableEq Key] in
theorem keeps_put {key : Key} {v : Json} {Q : Unit → Prop} (s : Int) (hv : P key v) (h : Q ()) :
    (put key v s).Keeps P Q := ⟨hv, h⟩

omit [DecidableEq Key] in
/-- What is found under a key fits it. -/
theorem keeps_attempt_get {key : Key} (s : Int) :
    (get key s).attempt.Keeps P fun res => ∀ v, res = .ok v → P key v := by
  refine Program.Keeps.attempt (keeps_get s fun v hv => ?_) fun e v heq => nomatch heq
  intro v' heq
  exact Except.ok.inj heq ▸ hv

omit [DecidableEq Key] in
theorem keeps_getList {listName : String} (hlist : listName ≠ "count") {key : Key} (s : Int)
    (hnew : P key (Json.idList listName [])) : (getList listName key s).Keeps P (P key) := by
  refine Program.Keeps.bind (keeps_attempt_get s) fun res hres => ?_
  cases res with
  | ok v => exact hres v rfl
  | error e =>
      refine Program.keeps_ofOption fun v heq => ?_
      have hnull : Json.null.setList listName [] 0 = some (Json.idList listName []) :=
        Json.setList_null [] hlist
      rw [hnull] at heq
      exact Option.some.inj heq ▸ hnew

/-- Every value ever stored satisfies what its key asks. -/
def Stored (name : Key → String) (P : Key → Json → Prop) (w : World String Json) : Prop :=
  ∀ key, ∀ v ∈ (view name w).versions key, P key v

theorem Stored.get (hname : Function.Injective name) {w : World String Json}
    (h : Stored name P w) (hr : Reachable w) (key : Key) (s : Int) (draws : Draws) :
    Stored name P (w.get (name key) s draws).2 := by
  rcases view_get hname hr key s draws with ⟨-, -, hview⟩ | ⟨i, v, -, -, hview⟩
  · intro k v
    rw [hview]
    exact h k v
  · intro k v'
    rw [hview]
    exact h k v'

theorem Stored.put (hname : Function.Injective name) {w : World String Json}
    (h : Stored name P w) (hr : Reachable w) {key : Key} {v : Json} (hv : P key v) (s : Int) :
    Stored name P (w.put (name key) v s) := by
  intro k v' hmem
  rw [view_put hname hr] at hmem
  by_cases hk : k = key
  · subst hk
    rw [SessionRegister.write_versions_self, List.mem_append, List.mem_singleton] at hmem
    exact hmem.elim (h k v') fun heq => heq ▸ hv
  · rw [SessionRegister.write_versions_ne _ _ _ hk] at hmem
    exact h k v' hmem

end Keeps

end App

namespace Crowd

open App

variable {Key Op : Type} [DecidableEq Key] {name : Key → String} {program : Op → App Key Unit}

/-- What holds among operations that all keep `P`. -/
structure Safe (name : Key → String) (P : Key → Json → Prop) (crowd : Crowd Key) : Prop where
  reachable : Reachable crowd.world
  /-- Every value ever stored satisfies what its key asks. -/
  stored : Stored name P crowd.world
  /-- What is left of each operation keeps it so. -/
  running : ∀ p ∈ crowd.running, p.Keeps P fun _ => True

variable {P : Key → Json → Prop}

omit [DecidableEq Key] in
theorem safe_init (sel : ReadResponseSelector) :
    Safe name P { world := World.init sel, running := [] } where
  reachable := .init sel
  stored _ _ h := (List.not_mem_nil h).elim
  running _ h := (List.not_mem_nil h).elim

/-- The next `get` or `put` of an operation that keeps `P`. -/
theorem advance_safe (hname : Function.Injective name) (draws : Draws) {w : World String Json}
    (hr : Reachable w) (hs : Stored name P w) {p : App Key Unit}
    (hp : p.Keeps P fun _ => True) :
    (advance name draws w p).1.Keeps P (fun _ => True)
      ∧ Stored name P (advance name draws w p).2 ∧ Reachable (advance name draws w p).2 := by
  cases p with
  | ret a => exact ⟨hp, hs, hr⟩
  | raise e => exact ⟨hp, hs, hr⟩
  | put key v s next => exact ⟨hp.2, hs.put hname hr hp.1 s, hr.put _ _ _⟩
  | get key s next =>
      refine ⟨?_, hs.get hname hr key s draws, hr.get _ _ _⟩
      show (next (w.get (name key) s draws).1).Keeps P fun _ => True
      rcases view_get hname hr key s draws with ⟨-, hres, -⟩ | ⟨i, v, hread, hres, -⟩
      · rw [hres]; exact hp.1 _
      · rw [hres]; exact hp.2 v (hs key v (List.mem_of_getElem? hread.1))

theorem safe_step (hname : Function.Injective name) {crowd : Crowd Key} (h : Safe name P crowd)
    (event : CrowdEvent Op)
    (hstart : ∀ op, event = .start op → (program op).Keeps P fun _ => True) :
    Safe name P (crowd.step name program event) := by
  cases event with
  | start op =>
      refine ⟨h.reachable, h.stored, fun p hp => ?_⟩
      rcases List.mem_append.mp hp with hold | hnew
      · exact h.running p hold
      · exact List.mem_singleton.mp hnew ▸ hstart op rfl
  | turn i draws =>
      cases hi : crowd.running[i]? with
      | none =>
          have hstep : crowd.step name program (.turn i draws) = crowd := by simp [step, hi]
          rw [hstep]
          exact h
      | some p =>
          obtain ⟨hkeeps, hstored, hreach⟩ := advance_safe hname draws h.reachable h.stored
            (h.running p (List.mem_of_getElem? hi))
          have hstep : crowd.step name program (.turn i draws)
              = { world := (advance name draws crowd.world p).2,
                  running := crowd.running.set i (advance name draws crowd.world p).1 } := by
            simp [step, hi]
          rw [hstep]
          refine ⟨hreach, hstored, fun p' hp' => ?_⟩
          rcases List.mem_or_eq_of_mem_set hp' with hold | rfl
          · exact h.running p' hold
          · exact hkeeps

/-- **Operations that keep `P` on their own keep it in any interleaving.** -/
theorem safe_run (hname : Function.Injective name) (sel : ReadResponseSelector)
    (events : List (CrowdEvent Op))
    (hstart : ∀ op, .start op ∈ events → (program op).Keeps P fun _ => True) :
    Safe name P (run name program sel events) := by
  induction events using List.reverseRecOn with
  | nil => exact safe_init sel
  | append_singleton events event ih =>
      have hrun : run name program sel (events ++ [event])
          = (run name program sel events).step name program event := by simp [run]
      rw [hrun]
      refine safe_step hname (ih fun op hop => hstart op (List.mem_append_left _ hop)) event ?_
      intro op heq
      exact hstart op (heq ▸ List.mem_append_right _ List.mem_cons_self)

end Crowd

end MockDB
