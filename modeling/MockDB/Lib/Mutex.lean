import MockDB.Lib.ListOrder
import Mathlib.Logic.Function.Basic

/-!
# Jobs under a mutex

Parties share a state and work through a list of jobs each. A job takes many steps, between
which those of other parties may come. A locked job only starts when it can take the mutex,
and it holds the mutex to its end.

If all jobs are locked, every run is one of whole jobs, one at a time, in the order in which
they took the mutex, plus the first steps of one more. `run_induction` is for jobs of any
kind: what each step keeps is kept by every run.
-/

namespace Mutex

variable {S J D R : Type*}

/-- How jobs go on. -/
structure Machine (S J D R : Type*) where
  /-- The next step of what is left of a job. -/
  step : D → J → S → J × S
  /-- What a job that is over returned. -/
  result : J → Option R

structure Job (J : Type*) where
  locked : Bool
  work : J

structure Party (J R : Type*) where
  todo : List (Job J)
  /-- What is left of the job under way. -/
  current : Option (Job J)
  results : List R

structure Pool (S J R : Type*) where
  shared : S
  /-- The party that has the mutex. -/
  holder : Option Nat
  parties : Nat → Party J R

namespace Pool

/-- Nobody has started yet. -/
def init (s : S) (jobs : Nat → List (Job J)) : Pool S J R where
  shared := s
  holder := none
  parties i := ⟨jobs i, none, []⟩

/-- One step of party `i`: it starts its next job if it can, goes on with the one under way,
or ends it. -/
def turn (M : Machine S J D R) (pool : Pool S J R) (i : Nat) (d : D) : Pool S J R :=
  let party := pool.parties i
  match party.current with
  | some job =>
      match M.result job.work with
      | some r =>
          { pool with
            holder := if job.locked then none else pool.holder
            parties := Function.update pool.parties i
              { party with current := none, results := party.results ++ [r] } }
      | none =>
          let (work, shared) := M.step d job.work pool.shared
          { pool with
            shared := shared
            parties := Function.update pool.parties i
              { party with current := some { job with work := work } } }
  | none =>
      match party.todo with
      | [] => pool
      | job :: todo =>
          if job.locked = true ∧ pool.holder ≠ none then pool
          else
            { pool with
              holder := if job.locked then some i else pool.holder
              parties := Function.update pool.parties i
                { party with todo := todo, current := some job } }

/-- Turns of any parties, one after another. -/
def run (M : Machine S J D R) (pool : Pool S J R) (turns : List (Nat × D)) : Pool S J R :=
  turns.foldl (fun pool t => pool.turn M t.1 t.2) pool

/-- Party `i` is `party` now, and the others are as they were. -/
structure Changes (pool pool' : Pool S J R) (i : Nat) (party : Party J R) : Prop where
  self : pool'.parties i = party
  others : ∀ j, j ≠ i → pool'.parties j = pool.parties j

theorem changes_update (pool : Pool S J R) (shared : S) (holder : Option Nat) (i : Nat)
    (party : Party J R) :
    Changes pool ⟨shared, holder, Function.update pool.parties i party⟩ i party where
  self := Function.update_self ..
  others _ hj := Function.update_of_ne hj ..

/-- What nobody's change touches. -/
theorem Changes.eq {pool pool' : Pool S J R} {i : Nat} {party : Party J R}
    (h : Changes pool pool' i party) {α : Type*} {f : Party J R → α}
    (hf : f party = f (pool.parties i)) (j : Nat) : f (pool'.parties j) = f (pool.parties j) := by
  by_cases hj : j = i
  · subst hj; rw [h.self]; exact hf
  · rw [h.others j hj]

/-- What a turn of party `i` can be. -/
inductive Turn (M : Machine S J D R) (pool : Pool S J R) (i : Nat) (pool' : Pool S J R) : Prop
  | idle (h : pool' = pool)
  | start {job : Job J} {todo : List (Job J)} (hcurrent : (pool.parties i).current = none)
      (htodo : (pool.parties i).todo = job :: todo)
      (hlock : job.locked = true → pool.holder = none) (hshared : pool'.shared = pool.shared)
      (hholder : pool'.holder = if job.locked then some i else pool.holder)
      (hparty : Changes pool pool' i ⟨todo, some job, (pool.parties i).results⟩)
  | advance {job : Job J} (d : D) (hcurrent : (pool.parties i).current = some job)
      (hrest : M.result job.work = none)
      (hshared : pool'.shared = (M.step d job.work pool.shared).2)
      (hholder : pool'.holder = pool.holder)
      (hparty : Changes pool pool' i ⟨(pool.parties i).todo,
        some ⟨job.locked, (M.step d job.work pool.shared).1⟩, (pool.parties i).results⟩)
  | finish {job : Job J} {r : R} (hcurrent : (pool.parties i).current = some job)
      (hresult : M.result job.work = some r) (hshared : pool'.shared = pool.shared)
      (hholder : pool'.holder = if job.locked then none else pool.holder)
      (hparty : Changes pool pool' i
        ⟨(pool.parties i).todo, none, (pool.parties i).results ++ [r]⟩)

theorem turn_cases (M : Machine S J D R) (pool : Pool S J R) (i : Nat) (d : D) :
    Turn M pool i (pool.turn M i d) := by
  unfold turn
  dsimp only
  split
  · rename_i job hcurrent
    split
    · rename_i r hresult
      exact .finish hcurrent hresult rfl rfl (changes_update ..)
    · rename_i hrest
      exact .advance d hcurrent hrest rfl rfl (changes_update ..)
  · rename_i hcurrent
    split
    · exact .idle rfl
    · rename_i job todo htodo
      split
      · exact .idle rfl
      · rename_i hno
        refine .start hcurrent htodo (fun hlocked => ?_) rfl rfl (changes_update ..)
        by_contra hheld
        exact hno ⟨hlocked, hheld⟩

/-- Who has no turn stays where it is. -/
theorem run_parties_of_not_mem {M : Machine S J D R} {pool : Pool S J R} {i : Nat}
    {turns : List (Nat × D)} (hturns : ∀ t ∈ turns, t.1 ≠ i) :
    (pool.run M turns).parties i = pool.parties i := by
  induction turns generalizing pool with
  | nil => rfl
  | cons t turns ih =>
      have hne : i ≠ t.1 := Ne.symm (hturns t List.mem_cons_self)
      have hturn : (pool.turn M t.1 t.2).parties i = pool.parties i := by
        cases turn_cases M pool t.1 t.2 with
        | idle heq => rw [heq]
        | start _ _ _ _ _ hparty => exact hparty.others i hne
        | advance _ _ _ _ _ hparty => exact hparty.others i hne
        | finish _ _ _ _ hparty => exact hparty.others i hne
      exact (ih fun t' ht' => hturns t' (List.mem_cons_of_mem _ ht')).trans hturn

end Pool

/-! ## One job at a time -/

namespace Machine

/-- Many steps of one job. -/
def steps (M : Machine S J D R) (ds : List D) (x : J × S) : J × S :=
  ds.foldl (fun x d => M.step d x.1 x.2) x

theorem steps_concat (M : Machine S J D R) (ds : List D) (d : D) (x : J × S) :
    M.steps (ds ++ [d]) x = M.step d (M.steps ds x).1 (M.steps ds x).2 := by
  unfold steps
  rw [List.foldl_append]
  rfl

end Machine

/-- A job that ran from start to end. -/
structure Entry (J R : Type*) where
  party : Nat
  job : J
  result : R

/-- From `s₀`, the jobs of the log one after another lead to `s`. -/
inductive Serial (M : Machine S J D R) (s₀ : S) : List (Entry J R) → S → Prop
  | nil : Serial M s₀ [] s₀
  | concat {log : List (Entry J R)} {s s' : S} (h : Serial M s₀ log s) {job work : J} {r : R}
      (party : Nat) (ds : List D) (hsteps : M.steps ds (job, s) = (work, s'))
      (hresult : M.result work = some r) : Serial M s₀ (log ++ [⟨party, job, r⟩]) s'

/-- The entries of one party. -/
def entriesOf (log : List (Entry J R)) (i : Nat) : List (Entry J R) :=
  log.filter fun e => e.party = i

theorem entriesOf_concat_self (log : List (Entry J R)) (e : Entry J R) :
    entriesOf (log ++ [e]) e.party = entriesOf log e.party ++ [e] := by
  simp [entriesOf, List.filter_append]

theorem entriesOf_concat_ne (log : List (Entry J R)) (e : Entry J R) {i : Nat}
    (h : e.party ≠ i) : entriesOf (log ++ [e]) i = entriesOf log i := by
  simp [entriesOf, List.filter_append, h]

/-- The jobs of party `i` among those that hold the mutex, of which there is one at most. -/
def inHand (under : Option (Nat × J)) (i : Nat) : List J :=
  match under with
  | some (h, job) => if h = i then [job] else []
  | none => []

/-- The pool is where the jobs of `log`, one at a time, lead to, plus the steps that the job
`under` the mutex has taken so far. -/
structure Serialized (M : Machine S J D R) (s₀ : S) (jobs : Nat → List (Job J))
    (pool : Pool S J R) (log : List (Entry J R)) (s : S) (under : Option (Nat × J)) : Prop where
  serial : Serial M s₀ log s
  /-- Each party got what its jobs returned there. -/
  results : ∀ i, (pool.parties i).results = (entriesOf log i).map (·.result)
  /-- Each party's jobs are in its own order. -/
  order : ∀ i, (entriesOf log i).map (·.job) ++ inHand under i
    ++ (pool.parties i).todo.map (·.work) = (jobs i).map (·.work)
  holder : pool.holder = under.map Prod.fst
  free : under = none → pool.shared = s
  busy : ∀ i job, under = some (i, job) → ∃ ds work,
    (pool.parties i).current = some ⟨true, work⟩ ∧ M.steps ds (job, s) = (work, pool.shared)
  idle : ∀ i, (∀ job, under ≠ some (i, job)) → (pool.parties i).current = none
  locked : ∀ i, ∀ job ∈ (pool.parties i).todo, job.locked = true

section Serialized

variable {M : Machine S J D R} {s₀ s : S} {jobs : Nat → List (Job J)} {pool : Pool S J R}
  {log : List (Entry J R)} {under : Option (Nat × J)}

theorem serialized_init (M : Machine S J D R) (s₀ : S) {jobs : Nat → List (Job J)}
    (hlocked : ∀ i, ∀ job ∈ jobs i, job.locked = true) :
    Serialized M s₀ jobs (Pool.init s₀ jobs) [] s₀ none where
  serial := .nil
  results _ := rfl
  order _ := rfl
  holder := rfl
  free _ := rfl
  busy _ _ h := nomatch h
  idle _ _ := rfl
  locked := hlocked

/-- A party under way holds the mutex. -/
theorem Serialized.under_of_current (h : Serialized M s₀ jobs pool log s under) {i : Nat}
    {job : Job J} (hcurrent : (pool.parties i).current = some job) :
    ∃ job₀ ds, under = some (i, job₀) ∧ job.locked = true
      ∧ M.steps ds (job₀, s) = (job.work, pool.shared) := by
  by_cases hunder : ∃ job₀, under = some (i, job₀)
  · obtain ⟨job₀, hunder⟩ := hunder
    obtain ⟨ds, work, hwork, hsteps⟩ := h.busy i job₀ hunder
    obtain rfl := Option.some.inj (hcurrent.symm.trans hwork)
    exact ⟨job₀, ds, hunder, rfl, hsteps⟩
  · rw [h.idle i fun job₀ heq => hunder ⟨job₀, heq⟩] at hcurrent
    cases hcurrent

/-- **Each turn takes the mutex, goes on under it, or gives it back.** -/
theorem Serialized.turn (h : Serialized M s₀ jobs pool log s under) {i : Nat}
    {pool' : Pool S J R} (hturn : Pool.Turn M pool i pool') :
    ∃ log' s' under', log <+: log' ∧ Serialized M s₀ jobs pool' log' s' under' := by
  cases hturn with
  | idle heq => exact ⟨log, s, under, List.prefix_refl _, heq ▸ h⟩
  | @start job todo hcurrent htodo hlock hshared hholder hparty =>
      have hlocked : job.locked = true := h.locked i job (htodo ▸ List.mem_cons_self)
      have hnone : under = none := by
        have hfree := h.holder
        rw [hlock hlocked] at hfree
        exact Option.map_eq_none_iff.mp hfree.symm
      subst hnone
      refine ⟨log, s, some (i, job.work), List.prefix_refl _, h.serial, fun j => ?_, fun j => ?_,
        ?_, (fun hno => nomatch hno), fun j job' heq => ?_, fun j hj => ?_, fun j => ?_⟩
      · rw [hparty.eq (f := Party.results) rfl]
        exact h.results j
      · have horder := h.order j
        by_cases hj : j = i
        · subst hj
          rw [hparty.self, ← horder, htodo]
          simp [inHand]
        · rw [hparty.others j hj, ← horder]
          simp [inHand, Ne.symm hj]
      · rw [hholder, hlocked]
        rfl
      · obtain ⟨rfl, rfl⟩ := Prod.mk.inj (Option.some.inj heq)
        refine ⟨[], job.work, ?_, ?_⟩
        · rw [hparty.self, ← hlocked]
        · rw [hshared, h.free rfl]
          rfl
      · have hne : j ≠ i := fun heq => hj job.work (by rw [heq])
        rw [hparty.others j hne]
        exact h.idle j fun _ heq => nomatch heq
      · by_cases hj : j = i
        · subst hj
          rw [hparty.self]
          exact fun job' hjob => h.locked j job' (htodo ▸ List.mem_cons_of_mem _ hjob)
        · rw [hparty.others j hj]
          exact h.locked j
  | @advance job d hcurrent hrest hshared hholder hparty =>
      obtain ⟨job₀, ds, hunder, hlocked, hsteps⟩ := h.under_of_current hcurrent
      refine ⟨log, s, under, List.prefix_refl _, h.serial, fun j => ?_, fun j => ?_, ?_,
        fun hno => ?_, fun j job' heq => ?_, fun j hj => ?_, fun j => ?_⟩
      · rw [hparty.eq (f := Party.results) rfl]
        exact h.results j
      · rw [hparty.eq (f := Party.todo) rfl]
        exact h.order j
      · rw [hholder]
        exact h.holder
      · rw [hunder] at hno
        cases hno
      · obtain ⟨rfl, rfl⟩ := Prod.mk.inj (Option.some.inj (hunder.symm.trans heq))
        refine ⟨ds ++ [d], (M.step d job.work pool.shared).1, ?_, ?_⟩
        · rw [hparty.self, hlocked]
        · rw [M.steps_concat, hsteps, hshared]
      · have hne : j ≠ i := fun heq => hj job₀ (by rw [heq]; exact hunder)
        rw [hparty.others j hne]
        exact h.idle j hj
      · rw [hparty.eq (f := Party.todo) rfl]
        exact h.locked j
  | @finish job r hcurrent hresult hshared hholder hparty =>
      obtain ⟨job₀, ds, hunder, hlocked, hsteps⟩ := h.under_of_current hcurrent
      subst hunder
      refine ⟨log ++ [⟨i, job₀, r⟩], pool.shared, none, List.prefix_append _ _,
        h.serial.concat i ds hsteps hresult, fun j => ?_, fun j => ?_, ?_, fun _ => hshared,
        (fun _ _ hno => nomatch hno), fun j _ => ?_, fun j => ?_⟩
      · by_cases hj : j = i
        · subst hj
          rw [hparty.self, entriesOf_concat_self log ⟨j, job₀, r⟩, List.map_append]
          exact congrArg (· ++ [r]) (h.results j)
        · rw [hparty.others j hj, entriesOf_concat_ne log ⟨i, job₀, r⟩ (Ne.symm hj)]
          exact h.results j
      · have horder := h.order j
        rw [hparty.eq (f := Party.todo) rfl]
        by_cases hj : j = i
        · subst hj
          rw [entriesOf_concat_self log ⟨j, job₀, r⟩, ← horder]
          simp [inHand]
        · rw [entriesOf_concat_ne log ⟨i, job₀, r⟩ (Ne.symm hj), ← horder]
          simp [inHand, Ne.symm hj]
      · rw [hholder, hlocked]
        rfl
      · by_cases hj : j = i
        · subst hj
          rw [hparty.self]
        · rw [hparty.others j hj]
          refine h.idle j fun job' heq => hj ?_
          exact (Prod.mk.inj (Option.some.inj heq)).1.symm
      · rw [hparty.eq (f := Party.todo) rfl]
        exact h.locked j

/-- The log only grows: a job keeps its place before those that come after it. -/
theorem Serialized.run (h : Serialized M s₀ jobs pool log s under) (turns : List (Nat × D)) :
    ∃ log' s' under', log <+: log' ∧ Serialized M s₀ jobs (pool.run M turns) log' s' under' := by
  induction turns generalizing pool log s under with
  | nil => exact ⟨log, s, under, List.prefix_refl _, h⟩
  | cons t turns ih =>
      obtain ⟨log₁, s₁, under₁, hpre, h₁⟩ := h.turn (Pool.turn_cases M pool t.1 t.2)
      obtain ⟨log', s', under', hpre', h'⟩ := ih h₁
      exact ⟨log', s', under', hpre.trans hpre', h'⟩

/-- **Locked jobs run one at a time.** -/
theorem serialized_run (M : Machine S J D R) (s₀ : S) {jobs : Nat → List (Job J)}
    (hlocked : ∀ i, ∀ job ∈ jobs i, job.locked = true) (turns : List (Nat × D)) :
    ∃ log s under,
      Serialized M s₀ jobs ((Pool.init s₀ jobs).run M turns) log s under := by
  obtain ⟨log, s, under, -, h⟩ := (serialized_init M s₀ hlocked).run turns
  exact ⟨log, s, under, h⟩

end Serialized

/-! ## What every step keeps -/

/-- Jobs that were `Good` from their start, and what they returned. -/
structure Kept (Inv : S → Prop) (Good : J → J → Prop) (Post : J → R → Prop)
    (jobs : Nat → List (Job J)) (pool : Pool S J R) : Prop where
  inv : Inv pool.shared
  /-- The job under way comes after those that returned and before those to do. -/
  current : ∀ i job, (pool.parties i).current = some job →
    ∃ job₀ : Job J, (jobs i)[(pool.parties i).results.length]? = some job₀ ∧ Good job₀.work job.work
      ∧ (pool.parties i).todo = (jobs i).drop ((pool.parties i).results.length + 1)
  todo : ∀ i, (pool.parties i).current = none →
    (pool.parties i).todo = (jobs i).drop (pool.parties i).results.length
  results : ∀ (i n : Nat) (r : R), (pool.parties i).results[n]? = some r →
    ∃ job₀ : Job J, (jobs i)[n]? = some job₀ ∧ Post job₀.work r

section Kept

variable {M : Machine S J D R} {Inv : S → Prop} {Good : J → J → Prop} {Post : J → R → Prop}
  {jobs : Nat → List (Job J)} {pool : Pool S J R}

theorem Kept.turn (h : Kept Inv Good Post jobs pool)
    (hstart : ∀ i, ∀ job ∈ jobs i, Good job.work job.work)
    (hstep : ∀ s job₀ job d, Inv s → Good job₀ job → M.result job = none →
      Good job₀ (M.step d job s).1 ∧ Inv (M.step d job s).2)
    (hend : ∀ job₀ job r, Good job₀ job → M.result job = some r → Post job₀ r) {i : Nat}
    {pool' : Pool S J R} (hturn : Pool.Turn M pool i pool') : Kept Inv Good Post jobs pool' := by
  cases hturn with
  | idle heq => exact heq ▸ h
  | @start job todo hcurrent htodo hlock hshared hholder hparty =>
      have hdrop := h.todo i hcurrent
      rw [htodo] at hdrop
      have hjob : (jobs i)[(pool.parties i).results.length]? = some job := by
        rw [← List.head?_drop, ← hdrop]
        rfl
      refine ⟨hshared ▸ h.inv, fun j job' hj => ?_, fun j hj => ?_, fun j n r hr => ?_⟩
      · by_cases hji : j = i
        · subst hji
          rw [hparty.self] at hj ⊢
          obtain rfl := Option.some.inj hj
          refine ⟨job, hjob, hstart j job (List.mem_of_getElem? hjob), ?_⟩
          rw [← List.tail_drop, ← hdrop]
          rfl
        · rw [hparty.others j hji] at hj ⊢
          exact h.current j job' hj
      · by_cases hji : j = i
        · subst hji
          rw [hparty.self] at hj
          cases hj
        · rw [hparty.others j hji] at hj ⊢
          exact h.todo j hj
      · rw [hparty.eq (f := Party.results) rfl] at hr
        exact h.results j n r hr
  | @advance job d hcurrent hrest hshared hholder hparty =>
      obtain ⟨job₀, hjob₀, hgood, hdrop⟩ := h.current i job hcurrent
      obtain ⟨hgood', hinv'⟩ := hstep _ _ _ d h.inv hgood hrest
      refine ⟨hshared ▸ hinv', fun j job' hj => ?_, fun j hj => ?_, fun j n r hr => ?_⟩
      · by_cases hji : j = i
        · subst hji
          rw [hparty.self] at hj ⊢
          obtain rfl := Option.some.inj hj
          exact ⟨job₀, hjob₀, hgood', hdrop⟩
        · rw [hparty.others j hji] at hj ⊢
          exact h.current j job' hj
      · by_cases hji : j = i
        · subst hji
          rw [hparty.self] at hj
          cases hj
        · rw [hparty.others j hji] at hj ⊢
          exact h.todo j hj
      · rw [hparty.eq (f := Party.results) rfl] at hr
        exact h.results j n r hr
  | @finish job r hcurrent hresult hshared hholder hparty =>
      obtain ⟨job₀, hjob₀, hgood, hdrop⟩ := h.current i job hcurrent
      refine ⟨hshared ▸ h.inv, fun j job' hj => ?_, fun j hj => ?_, fun j n r' hr => ?_⟩
      · by_cases hji : j = i
        · subst hji
          rw [hparty.self] at hj
          cases hj
        · rw [hparty.others j hji] at hj ⊢
          exact h.current j job' hj
      · by_cases hji : j = i
        · subst hji
          rw [hparty.self, List.length_append, List.length_singleton]
          exact hdrop
        · rw [hparty.others j hji] at hj ⊢
          exact h.todo j hj
      · by_cases hji : j = i
        · subst hji
          rw [hparty.self] at hr
          rcases ListOrder.getElem?_concat hr with ⟨-, hold⟩ | ⟨rfl, rfl⟩
          · exact h.results j n r' hold
          · exact ⟨job₀, hjob₀, hend _ _ _ hgood hresult⟩
        · rw [hparty.others j hji] at hr
          exact h.results j n r' hr

/-- **What each step of each job keeps, any run keeps**, whoever holds the mutex. -/
theorem run_induction {s₀ : S} (hinit : Inv s₀)
    (hstart : ∀ i, ∀ job ∈ jobs i, Good job.work job.work)
    (hstep : ∀ s job₀ job d, Inv s → Good job₀ job → M.result job = none →
      Good job₀ (M.step d job s).1 ∧ Inv (M.step d job s).2)
    (hend : ∀ job₀ job r, Good job₀ job → M.result job = some r → Post job₀ r)
    (turns : List (Nat × D)) :
    Kept Inv Good Post jobs ((Pool.init s₀ jobs).run M turns) := by
  induction turns using List.reverseRecOn with
  | nil =>
      exact ⟨hinit, (fun _ _ h => nomatch h), fun _ _ => List.drop_zero.symm,
        fun _ _ _ h => by cases h⟩
  | append_singleton turns t ih =>
      have hrun : (Pool.init s₀ jobs).run M (turns ++ [t])
          = ((Pool.init s₀ jobs : Pool S J R).run M turns).turn M t.1 t.2 := by
        simp [Pool.run]
      rw [hrun]
      exact ih.turn hstart hstep hend (Pool.turn_cases M _ t.1 t.2)

end Kept

end Mutex
