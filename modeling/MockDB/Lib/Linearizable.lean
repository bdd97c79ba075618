import Mathlib.Data.List.NodupEquivFin
import MockDB.Lib.ListOrder

/-!
# Linearizability

A run of concurrent calls is seen as the sequence of its invocations and responses. A log
of calls is a linearization of it when it holds every call that has responded, and
perhaps some that have not, with a call before every call invoked after its response.
An object is linearizable when such a log can be replayed on a sequential specification.

The rules at the end build a linearization along with the run: calls are logged at the
one step where they take effect, somewhere between invocation and response.
-/

namespace Linearizability

/-- What an observer sees, in real time. -/
inductive Event (Id Op Ret : Type*) where
  | inv (id : Id) (op : Op)
  | ret (id : Id) (r : Ret)

/-- A call that took effect, and what it returns. -/
structure Entry (Id Op Ret : Type*) where
  id : Id
  op : Op
  ret : Ret

/-- A sequential object. -/
structure Spec (S Op Ret : Type*) where
  init : S
  step : S → Op → S × Ret

variable {Id S Op Ret : Type*}

namespace Spec

/-- The object after a log of calls. -/
def after (spec : Spec S Op Ret) (log : List (Entry Id Op Ret)) : S :=
  log.foldl (fun s e => (spec.step s e.op).1) spec.init

/-- Every call of the log returned what the object returns at that point. -/
def Legal (spec : Spec S Op Ret) (log : List (Entry Id Op Ret)) : Prop :=
  ∀ n e, log[n]? = some e → (spec.step (spec.after (log.take n)) e.op).2 = e.ret

@[simp] theorem after_nil (spec : Spec S Op Ret) :
    spec.after ([] : List (Entry Id Op Ret)) = spec.init := rfl

theorem after_concat (spec : Spec S Op Ret) (log : List (Entry Id Op Ret))
    (e : Entry Id Op Ret) :
    spec.after (log ++ [e]) = (spec.step (spec.after log) e.op).1 := by
  unfold after
  rw [List.foldl_append]
  rfl

theorem legal_nil (spec : Spec S Op Ret) : spec.Legal ([] : List (Entry Id Op Ret)) := by
  intro n e hn
  cases hn

theorem legal_concat {spec : Spec S Op Ret} {log : List (Entry Id Op Ret)}
    {e : Entry Id Op Ret} (h : spec.Legal log) (he : (spec.step (spec.after log) e.op).2 = e.ret) :
    spec.Legal (log ++ [e]) := by
  intro n e' hn
  rcases ListOrder.getElem?_concat hn with ⟨hlt, hn⟩ | ⟨rfl, rfl⟩
  · rw [ListOrder.take_concat (Nat.le_of_lt hlt)]
    exact h n e' hn
  · rw [List.take_left]
    exact he

end Spec

/-- `log` orders the calls of `events` without contradicting what an observer saw. -/
structure IsLinearization (events : List (Event Id Op Ret)) (log : List (Entry Id Op Ret)) :
    Prop where
  nodup : (log.map (·.id)).Nodup
  /-- Only calls that were made take effect. -/
  invoked : ∀ e ∈ log, .inv e.id e.op ∈ events
  /-- Calls that responded took effect, with that response. -/
  responded : ∀ i r, .ret i r ∈ events → ∃ e ∈ log, e.id = i ∧ e.ret = r
  /-- A call that responded before another was made took effect before it. -/
  realTime : ∀ i r j op, [.ret i r, .inv j op].Sublist events → j ∈ log.map (·.id) →
    [i, j].Sublist (log.map (·.id))

/-- The events of some linearizable object with the sequential specification `spec`. -/
def Linearizable (spec : Spec S Op Ret) (events : List (Event Id Op Ret)) : Prop :=
  ∃ log, IsLinearization events log ∧ spec.Legal log

/-- A pair in order in a list that grew at its end. -/
theorem pair_sublist_concat {α : Type*} {a b x : α} {l : List α} :
    [a, b].Sublist (l ++ [x]) ↔ [a, b].Sublist l ∨ (a ∈ l ∧ b = x) := by
  constructor
  · intro h
    obtain ⟨l₁, l₂, heq, h₁, h₂⟩ := List.sublist_append_iff.mp h
    rcases List.sublist_singleton.mp h₂ with rfl | rfl
    · rw [List.append_nil] at heq
      exact Or.inl (heq ▸ h₁)
    · have heq' : [a] ++ [b] = l₁ ++ [x] := heq
      obtain ⟨heq₁, heq₂⟩ := List.append_inj' heq' rfl
      right
      refine ⟨?_, by simpa using heq₂⟩
      rw [← heq₁] at h₁
      exact h₁.subset (List.mem_singleton_self a)
  · rintro (h | ⟨ha, rfl⟩)
    · exact h.trans (List.sublist_append_left l [x])
    · exact (List.singleton_sublist.mpr ha).append (List.Sublist.refl [b])

/-- Elements in order in a list without repetitions sit at positions in order. -/
theorem lt_of_pair_sublist {α : Type*} {a b : α} {l : List α} (hnd : l.Nodup) {m n : Nat}
    (hs : [a, b].Sublist l) (hm : l[m]? = some a) (hn : l[n]? = some b) : m < n := by
  obtain ⟨f, hf⟩ := List.sublist_iff_exists_orderEmbedding_getElem?_eq.mp hs
  have hpos : ∀ {k : Nat} {x : α}, l[k]? = some x → ∀ k', l[k']? = some x → k = k' := by
    intro k x hk k' hk'
    exact (List.getElem?_inj (List.getElem?_eq_some_iff.mp hk).1 hnd).mp (hk.trans hk'.symm)
  rw [hpos hm (f 0) (hf 0).symm, hpos hn (f 1) (hf 1).symm]
  exact f.strictMono Nat.zero_lt_one

/-- In `log`, a call that responded before another was made comes before it. -/
def RespectsRealTime (events : List (Event Id Op Ret)) (log : List (Entry Id Op Ret)) : Prop :=
  ∀ (m n : Nat) (e e' : Entry Id Op Ret) (r : Ret) (op : Op), log[m]? = some e →
    log[n]? = some e' → [.ret e.id r, .inv e'.id op].Sublist events → m < n

/-- Any part of a linearization respects real time as well. -/
theorem IsLinearization.respectsRealTime_filter {events : List (Event Id Op Ret)}
    {log : List (Entry Id Op Ret)} (h : IsLinearization events log) (p : Entry Id Op Ret → Bool) :
    RespectsRealTime events (log.filter p) := by
  intro m n e e' r op hm hn hs
  obtain ⟨he, hpe⟩ := List.mem_filter.mp (List.mem_iff_getElem?.mpr ⟨m, hm⟩)
  obtain ⟨he', hpe'⟩ := List.mem_filter.mp (List.mem_iff_getElem?.mpr ⟨n, hn⟩)
  have hids := h.realTime _ r _ op hs (List.mem_map_of_mem he')
  have huniq : ∀ {x y : Entry Id Op Ret}, x ∈ log → y ∈ log → x.id = y.id → x = y :=
    fun hx hy hxy => List.inj_on_of_nodup_map h.nodup hx hy hxy
  obtain ⟨l, hl, heq⟩ := List.sublist_map_iff.mp hids
  obtain ⟨x, y, rfl⟩ : ∃ x y, l = [x, y] := by
    have hlen := congrArg List.length heq
    rw [List.length_map] at hlen
    exact List.length_eq_two.mp hlen.symm
  obtain ⟨hx, hy⟩ : e.id = x.id ∧ e'.id = y.id := by simpa using heq
  rw [← huniq he (hl.subset List.mem_cons_self) hx,
    ← huniq he' (hl.subset (List.mem_cons_of_mem _ (List.mem_singleton_self _))) hy] at hl
  refine lt_of_pair_sublist ((List.Nodup.of_map _ h.nodup).filter p) ?_ hm hn
  have := hl.filter p
  rwa [List.filter_cons_of_pos hpe, List.filter_cons_of_pos hpe', List.filter_nil] at this

section Rules

variable {events : List (Event Id Op Ret)} {log : List (Entry Id Op Ret)}

theorem isLinearization_nil : IsLinearization ([] : List (Event Id Op Ret)) [] where
  nodup := List.nodup_nil
  invoked := by intro e he; cases he
  responded := by intro i r hr; cases hr
  realTime := by intro i r j op _ hj; cases hj

/-- **A call is made.** -/
theorem IsLinearization.invoke (h : IsLinearization events log) {i : Id} {op : Op}
    (hnew : ∀ op', Event.inv i op' ∉ events) : IsLinearization (events ++ [.inv i op]) log where
  nodup := h.nodup
  invoked := fun e he => List.mem_append_left _ (h.invoked e he)
  responded := by
    intro j r hr
    rcases List.mem_append.mp hr with hr | hr
    · exact h.responded j r hr
    · cases List.mem_singleton.mp hr
  realTime := by
    intro a r j op' hs hj
    rcases pair_sublist_concat.mp hs with hs | ⟨-, heq⟩
    · exact h.realTime a r j op' hs hj
    · -- a call in the log was made before
      obtain rfl : j = i := (Event.inv.inj heq).1
      obtain ⟨e, he, rfl⟩ := List.mem_map.mp hj
      exact absurd (h.invoked e he) (hnew _)

/-- **A call takes effect.** -/
theorem IsLinearization.takeEffect (h : IsLinearization events log) {e : Entry Id Op Ret}
    (hinv : .inv e.id e.op ∈ events) (hnew : e.id ∉ log.map (·.id)) :
    IsLinearization events (log ++ [e]) where
  nodup := by
    rw [List.map_append, List.map_singleton]
    exact ListOrder.nodup_concat.mpr ⟨hnew, h.nodup⟩
  invoked := by
    intro e' he'
    rcases List.mem_append.mp he' with he' | he'
    · exact h.invoked e' he'
    · rw [List.mem_singleton.mp he']
      exact hinv
  responded := by
    intro i r hr
    obtain ⟨e', he', hi⟩ := h.responded i r hr
    exact ⟨e', List.mem_append_left _ he', hi⟩
  realTime := by
    intro i r j op hs hj
    rw [List.map_append, List.map_singleton] at hj ⊢
    rw [pair_sublist_concat]
    rcases List.mem_append.mp hj with hj | hj
    · exact Or.inl (h.realTime i r j op hs hj)
    · right
      refine ⟨?_, List.mem_singleton.mp hj⟩
      obtain ⟨e', he', rfl, -⟩ := h.responded i r (hs.subset List.mem_cons_self)
      exact List.mem_map_of_mem he'

/-- **A call responds.** -/
theorem IsLinearization.respond (h : IsLinearization events log) {e : Entry Id Op Ret}
    (he : e ∈ log) : IsLinearization (events ++ [.ret e.id e.ret]) log where
  nodup := h.nodup
  invoked := fun e' he' => List.mem_append_left _ (h.invoked e' he')
  responded := by
    intro j r hr
    rcases List.mem_append.mp hr with hr | hr
    · exact h.responded j r hr
    · obtain ⟨rfl, rfl⟩ := Event.ret.inj (List.mem_singleton.mp hr)
      exact ⟨e, he, rfl, rfl⟩
  realTime := by
    intro a r j op hs hj
    rcases pair_sublist_concat.mp hs with hs | ⟨-, heq⟩
    · exact h.realTime a r j op hs hj
    · cases heq

end Rules

end Linearizability
