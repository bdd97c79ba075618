import MockDB.Proof.Selection
import Mathlib.Algebra.BigOperators.Fin
import Mathlib.Data.Fin.Tuple.Basic
import Mathlib.Data.Nat.Factorial.BigOperators
import Mathlib.SetTheory.Cardinal.Finite
import Mathlib.Tactic.Ring

/-!
# Selection is fair

The swap-and-shrink loop removes the candidate it has just refused from the pool and
draws uniformly from what is left. So no candidate is tried twice, and which accepted
candidate comes up first is decided by symmetry: over all the draws, each comes up
equally often.
-/

namespace MockDB

/-! ## The pool -/

section Loop

variable {α : Type} {m : Nat}

/-- The first `limit` candidates, those the loop may still draw. -/
def pool (candidates : Vector α m) (limit : Nat) (h : limit ≤ m) : List α :=
  List.ofFn fun i : Fin limit => candidates[i]

theorem length_pool (candidates : Vector α m) (limit : Nat) (h : limit ≤ m) :
    (pool candidates limit h).length = limit := List.length_ofFn

theorem pool_eq_list (candidates : List α) :
    pool (⟨candidates.toArray, rfl⟩ : Vector α candidates.length) candidates.length
      (Nat.le_refl _) = candidates := List.ofFn_getElem

/-- **A draw takes its candidate out of the pool** and leaves the others in it. -/
theorem pool_draw (candidates : Vector α m) {limit : Nat} (h : limit + 1 ≤ m)
    (t : Fin (limit + 1)) :
    (pool candidates (limit + 1) h).Perm
      (candidates[t] :: pool (candidates.swap t limit (by omega) h) limit
        (Nat.le_of_succ_le h)) := by
  have hget : ∀ i : Fin (limit + 1), (candidates.swap t limit (by omega) h)[i]
      = candidates[Equiv.swap t (Fin.last limit) i] := by
    intro i
    simp only [Fin.getElem_fin, Vector.getElem_swap, Equiv.swap_apply_def, Fin.ext_iff,
      Fin.val_last]
    split_ifs <;> rfl
  have hswap : (pool (candidates.swap t limit (by omega) h) (limit + 1) h).Perm
      (pool candidates (limit + 1) h) := by
    unfold pool
    rw [funext hget]
    exact Equiv.Perm.ofFn_comp_perm _ fun i : Fin (limit + 1) => candidates[i]
  have hlast : pool (candidates.swap t limit (by omega) h) (limit + 1) h
      = pool (candidates.swap t limit (by omega) h) limit (Nat.le_of_succ_le h)
        ++ [candidates[t]] := by
    unfold pool
    rw [List.ofFn_succ', List.concat_eq_append]
    congr 2
    exact Vector.getElem_swap_right _ _
  exact hswap.symm.trans (hlast ▸ List.perm_append_singleton _ _)

/-- The loop returns the first candidate it tries that is consistent. -/
theorem selectLoop_eq_find? (isConsistent : α → Bool) (draws : Draws) :
    ∀ {limit : Nat} (h : limit ≤ m) (candidates : Vector α m),
      selectLoop isConsistent draws limit h candidates
        = (triedCandidates isConsistent draws limit h candidates).find? isConsistent := by
  intro limit
  induction limit with
  | zero => intro h candidates; rfl
  | succ limit ih =>
      intro h candidates
      rw [selectLoop, triedCandidates]
      split
      · rename_i hok
        rw [List.find?_cons_of_pos hok]
      · rename_i hno
        rw [List.find?_cons_of_neg hno, ih]

/-- No candidate is tried more often than it is in the pool. -/
theorem triedCandidates_subperm (isConsistent : α → Bool) (draws : Draws) :
    ∀ {limit : Nat} (h : limit ≤ m) (candidates : Vector α m),
      (triedCandidates isConsistent draws limit h candidates).Subperm
        (pool candidates limit h) := by
  intro limit
  induction limit with
  | zero => intro h candidates; exact List.nil_subperm
  | succ limit ih =>
      intro h candidates
      have hperm := pool_draw candidates h (draws limit)
      have hcand : (candidates.swap (draws limit) limit)[limit] = candidates[draws limit] :=
        Vector.getElem_swap_right _ _
      rw [triedCandidates, hcand]
      refine List.Subperm.trans ?_ hperm.symm.subperm
      split
      · exact List.subperm_cons _ |>.mpr List.nil_subperm
      · exact List.subperm_cons _ |>.mpr (ih _ _)

/-! ## Counting the draws -/

/-- The random numbers of one selection from `n` candidates, one for each `limit`. -/
abbrev DrawSequence (n : Nat) : Type := (i : Fin n) → Fin (i + 1)

/-- A draw sequence as draws; the loop asks for no others. -/
def DrawSequence.draws {n : Nat} (d : DrawSequence n) : Draws :=
  fun i => if h : i < n then d ⟨i, h⟩ else 0

/-- There are `n!` of them. -/
theorem card_drawSequence (n : Nat) : Nat.card (DrawSequence n) = n.factorial := by
  rw [Nat.card_pi]
  simp only [Nat.card_eq_fintype_card, Fintype.card_fin]
  rw [Fin.prod_univ_eq_prod_range (fun i => i + 1) n, Finset.prod_range_add_one_eq_factorial]

/-- The loop only sees the draws below `limit`. -/
theorem selectLoop_congr (isConsistent : α → Bool) {draws draws' : Draws} :
    ∀ {limit : Nat} (h : limit ≤ m) (candidates : Vector α m),
      (∀ i < limit, draws i = draws' i) →
      selectLoop isConsistent draws limit h candidates
        = selectLoop isConsistent draws' limit h candidates := by
  intro limit
  induction limit with
  | zero => intro h candidates _; rfl
  | succ limit ih =>
      intro h candidates hd
      have hrest := fun candidates => ih (by omega) candidates fun i hi =>
        hd i (Nat.lt_succ_of_lt hi)
      rw [selectLoop, selectLoop]
      simp only [hd limit (Nat.lt_succ_self limit), hrest]

/-- A draw sequence for one candidate more: the first draw, and the rest. -/
def DrawSequence.snoc (n : Nat) : Fin (n + 1) × DrawSequence n ≃ DrawSequence (n + 1) :=
  Fin.snocEquiv fun i : Fin (n + 1) => Fin (i + 1)

theorem DrawSequence.snoc_draws_last {n : Nat} (t : Fin (n + 1)) (d : DrawSequence n) :
    (DrawSequence.snoc n (t, d)).draws n = t := by
  unfold draws
  rw [dif_pos (Nat.lt_succ_self n)]
  exact @Fin.snoc_last n (fun i : Fin (n + 1) => Fin (i + 1)) t d

theorem DrawSequence.snoc_draws_of_lt {n i : Nat} (t : Fin (n + 1)) (d : DrawSequence n)
    (hi : i < n) : (DrawSequence.snoc n (t, d)).draws i = d.draws i := by
  unfold draws
  rw [dif_pos (Nat.lt_succ_of_lt hi), dif_pos hi]
  exact @Fin.snoc_castSucc n (fun i : Fin (n + 1) => Fin (i + 1)) t d ⟨i, hi⟩

/-- One round of the loop, with its draw apart from those of the rounds after it. -/
theorem selectLoop_snoc (isConsistent : α → Bool) {limit : Nat} (h : limit + 1 ≤ m)
    (candidates : Vector α m) (t : Fin (limit + 1)) (d : DrawSequence limit) :
    selectLoop isConsistent (DrawSequence.snoc limit (t, d)).draws (limit + 1) h candidates
      = if isConsistent candidates[t] then some candidates[t]
        else selectLoop isConsistent d.draws limit (Nat.le_of_succ_le h)
          (candidates.swap t limit (by omega) h) := by
  have hrest := fun candidates => selectLoop_congr isConsistent (show limit ≤ m by omega) candidates
    fun i hi => DrawSequence.snoc_draws_of_lt t d hi
  rw [selectLoop]
  simp only [DrawSequence.snoc_draws_last, Vector.getElem_swap_right, Fin.getElem_fin, hrest]

/-- Summing over a list what depends on whether an entry is accepted, and is `c`. -/
theorem sum_map_accepted [DecidableEq α] {isConsistent : α → Bool} {c : α}
    (hc : isConsistent c = true) (a b : Nat) (l : List α) :
    (l.map fun x => if isConsistent x then (if x = c then a else 0) else b).sum
        + b * l.countP isConsistent
      = l.count c * a + b * l.length := by
  induction l with
  | nil => simp
  | cons x l ih =>
      rw [List.map_cons, List.sum_cons, List.count_cons, List.countP_cons, List.length_cons]
      by_cases hx : x = c
      · subst hx
        simp only [hc, if_true, beq_self_eq_true]
        rw [Nat.add_mul, Nat.mul_add, Nat.mul_add]
        omega
      · have hbeq : (x == c) = false := by simpa using hx
        simp only [hx, hbeq, if_false, Bool.false_eq_true, Nat.add_zero]
        cases isConsistent x with
        | true =>
            simp only [if_true]
            rw [Nat.mul_add, Nat.mul_add]
            omega
        | false =>
            simp only [Bool.false_eq_true, if_false, Nat.add_zero]
            rw [Nat.mul_add]
            omega

/-- A first draw of an accepted candidate returns it, and after any other the loop goes on
without the candidate it drew. -/
theorem card_selectLoop_succ [DecidableEq α] (isConsistent : α → Bool) (c : α) {limit : Nat}
    (h : limit + 1 ≤ m) (candidates : Vector α m) :
    Nat.card { d : DrawSequence (limit + 1) //
          selectLoop isConsistent d.draws (limit + 1) h candidates = some c }
      = ∑ t : Fin (limit + 1), if isConsistent candidates[t] then
            (if candidates[t] = c then limit.factorial else 0)
          else Nat.card { d : DrawSequence limit //
            selectLoop isConsistent d.draws limit (Nat.le_of_succ_le h)
              (candidates.swap t limit (by omega) h) = some c } := by
  have hfiber : ∀ t : Fin (limit + 1), Nat.card { d : DrawSequence limit //
        selectLoop isConsistent (DrawSequence.snoc limit (t, d)).draws (limit + 1) h candidates
          = some c }
      = if isConsistent candidates[t] then (if candidates[t] = c then limit.factorial else 0)
        else Nat.card { d : DrawSequence limit //
          selectLoop isConsistent d.draws limit (Nat.le_of_succ_le h)
            (candidates.swap t limit (by omega) h) = some c } := by
    intro t
    simp only [selectLoop_snoc]
    by_cases hok : isConsistent candidates[t] = true
    · simp only [hok, if_true, Option.some.injEq]
      by_cases htc : candidates[t] = c
      · rw [if_pos htc]
        simp only [htc]
        rw [← card_drawSequence limit]
        simp
      · have hempty : IsEmpty { d : DrawSequence limit // candidates[t] = c } :=
          ⟨fun d => htc d.2⟩
        rw [if_neg htc, Nat.card_of_isEmpty]
    · simp only [hok, if_false, Bool.false_eq_true]
  rw [← Finset.sum_congr rfl fun t _ => hfiber t, ← Nat.card_sigma]
  refine Nat.card_congr (((DrawSequence.snoc limit).subtypeEquiv ?_).symm.trans
    (Equiv.subtypeProdEquivSigmaSubtype _))
  rintro ⟨t, d⟩
  exact Iff.rfl

/--
**The loop is fair.** Of the `limit!` draw sequences each place in the pool with an accepted
candidate gets the same share: a candidate is returned by as many as it has such places.
-/
theorem card_selectLoop [DecidableEq α] {isConsistent : α → Bool} {c : α}
    (hc : isConsistent c = true) :
    ∀ {limit : Nat} (h : limit ≤ m) (candidates : Vector α m),
      Nat.card { d : DrawSequence limit //
            selectLoop isConsistent d.draws limit h candidates = some c }
          * (pool candidates limit h).countP isConsistent
        = (pool candidates limit h).count c * limit.factorial := by
  intro limit
  induction limit with
  | zero => intro h candidates; simp [pool]
  | succ limit ih =>
      intro h candidates
      have hlen := length_pool candidates (limit + 1) h
      generalize hA : (pool candidates (limit + 1) h).countP isConsistent = A
      generalize hk : (pool candidates (limit + 1) h).count c = k
      have hrefused : ∀ t : Fin (limit + 1), ¬ isConsistent candidates[t] = true →
          Nat.card { d : DrawSequence limit //
            selectLoop isConsistent d.draws limit (Nat.le_of_succ_le h)
              (candidates.swap t limit (by omega) h) = some c } * A = k * limit.factorial := by
        -- the refused candidate leaves the pool
        intro t hno
        have hperm := pool_draw candidates h t
        have hne : candidates[t] ≠ c := fun he => hno (he ▸ hc)
        rw [← hA, ← hk, hperm.countP_eq, hperm.count_eq, List.countP_cons_of_neg hno,
          List.count_cons_of_ne hne]
        exact ih _ _
      have hofFn : ((pool candidates (limit + 1) h).map fun x =>
            if isConsistent x then (if x = c then limit.factorial * A else 0)
            else k * limit.factorial).sum
          = ∑ t : Fin (limit + 1), if isConsistent candidates[t] then
              (if candidates[t] = c then limit.factorial * A else 0)
            else k * limit.factorial := by
        unfold pool
        rw [List.map_ofFn, List.sum_ofFn]
        rfl
      rw [card_selectLoop_succ, Finset.sum_mul]
      refine Eq.trans (Finset.sum_congr rfl fun t _ => ?_) (hofFn.symm.trans ?_)
      · by_cases hok : isConsistent candidates[t] = true
        · rw [if_pos hok, if_pos hok, ite_mul, Nat.zero_mul]
        · rw [if_neg hok, if_neg hok, hrefused t hok]
      · have hsum := sum_map_accepted hc (limit.factorial * A) (k * limit.factorial)
          (pool candidates (limit + 1) h)
        rw [hA, hk, hlen] at hsum
        rw [Nat.factorial_succ]
        have h1 : k * (limit.factorial * A) = k * limit.factorial * A := (Nat.mul_assoc _ _ _).symm
        have h2 : k * ((limit + 1) * limit.factorial) = k * limit.factorial * (limit + 1) := by
          ring
        omega

end Loop

/-! ## The selector -/

namespace KvStore

variable {K V : Type} [DecidableEq K] (σ : KvStore K V) (tx : Transaction K V) (key : K)

theorem causalSelect_eq (candidates : List (GetResponse K V)) (draws : Draws) :
    σ.causalSelect tx key candidates draws
      = ((σ.causalTried tx key candidates draws).find? (σ.accepts tx key)).elim
          (.error (.consistency "GET" none tx.txId)) .ok := by
  unfold causalTried
  rw [← selectLoop_eq_find?]
  unfold causalSelect accepts
  split
  · rename_i c hc
    rw [hc]
    rfl
  · rename_i hc
    rw [hc]
    rfl

theorem causalSelect_eq_ok {candidates : List (GetResponse K V)} {draws : Draws}
    {c : GetResponse K V} :
    σ.causalSelect tx key candidates draws = .ok c ↔
      selectLoop (σ.accepts tx key) draws candidates.length (Nat.le_refl _)
        ⟨candidates.toArray, rfl⟩ = some c := by
  unfold causalSelect accepts
  split
  · rename_i c' hc
    rw [hc]
    simp
  · rename_i hc
    rw [hc]
    simp

/--
**Fair and exact selection.** For every list of `n` candidates, `m` of them accepted by
`is_consistent`: 1. the candidates tried are among those of the list, none more often than
it is listed, and the result is the first of them that is accepted; 2. if `m > 0` an
accepted candidate is returned; 3. `consistency_exception` is thrown iff `m = 0`; 4. of the
`n!` draw sequences each accepted candidate is returned by as many, `n!/m` for each time it
is listed; so where the candidates are distinct, by exactly `n!/m`, that is with
probability `1/m` when the draws are uniform and independent.
-/
theorem causalSelect_fair [DecidableEq V] (candidates : List (GetResponse K V)) :
    (∀ draws, (σ.causalTried tx key candidates draws).Subperm candidates
        ∧ σ.causalSelect tx key candidates draws
          = ((σ.causalTried tx key candidates draws).find? (σ.accepts tx key)).elim
              (.error (.consistency "GET" none tx.txId)) .ok)
      ∧ (∀ draws, 0 < candidates.countP (σ.accepts tx key) →
          ∃ c ∈ candidates, σ.accepts tx key c = true
            ∧ σ.causalSelect tx key candidates draws = .ok c)
      ∧ (∀ draws, σ.causalSelect tx key candidates draws
            = .error (.consistency "GET" none tx.txId)
          ↔ candidates.countP (σ.accepts tx key) = 0)
      ∧ Nat.card (DrawSequence candidates.length) = candidates.length.factorial
      ∧ ∀ c ∈ candidates, σ.accepts tx key c = true →
          Nat.card { d : DrawSequence candidates.length //
                σ.causalSelect tx key candidates d.draws = .ok c }
              * candidates.countP (σ.accepts tx key)
            = candidates.count c * candidates.length.factorial
          ∧ (candidates.Nodup →
              Nat.card { d : DrawSequence candidates.length //
                  σ.causalSelect tx key candidates d.draws = .ok c }
                = candidates.length.factorial / candidates.countP (σ.accepts tx key)
              ∧ (Nat.card { d : DrawSequence candidates.length //
                    σ.causalSelect tx key candidates d.draws = .ok c } : ℚ)
                  / Nat.card (DrawSequence candidates.length)
                = 1 / candidates.countP (σ.accepts tx key)) := by
  have hexact : ∀ draws, (∃ c ∈ candidates, σ.accepts tx key c = true
        ∧ σ.causalSelect tx key candidates draws = .ok c)
      ∨ σ.causalSelect tx key candidates draws = .error (.consistency "GET" none tx.txId)
        ∧ candidates.countP (σ.accepts tx key) = 0 := by
    intro draws
    cases hsel : σ.causalSelect tx key candidates draws with
    | ok c =>
        obtain ⟨hok, hmem⟩ := causalSelect_ok hsel
        exact Or.inl ⟨c, hmem, hok, rfl⟩
    | error e =>
        right
        constructor
        · rw [causalSelect_eq] at hsel
          cases hfind : (σ.causalTried tx key candidates draws).find? (σ.accepts tx key) with
          | some c => rw [hfind] at hsel; exact absurd hsel (by simp)
          | none => rw [hfind] at hsel; exact hsel.symm
        · rw [List.countP_eq_zero]
          intro c hc
          simpa [accepts] using causalSelect_error hsel c hc
  refine ⟨fun draws => ⟨?_, σ.causalSelect_eq tx key candidates draws⟩, ?_, ?_,
    card_drawSequence _, ?_⟩
  · have hsub := triedCandidates_subperm (σ.accepts tx key) draws (Nat.le_refl candidates.length)
      ⟨candidates.toArray, rfl⟩
    rw [pool_eq_list] at hsub
    exact hsub
  · intro draws hm
    rcases hexact draws with hok | ⟨-, h0⟩
    · exact hok
    · omega
  · intro draws
    constructor
    · intro herr
      rcases hexact draws with ⟨c, -, -, hok⟩ | ⟨-, h0⟩
      · rw [herr] at hok; exact absurd hok (by simp)
      · exact h0
    · intro h0
      rcases hexact draws with ⟨c, hc, hacc, -⟩ | ⟨herr, -⟩
      · exact absurd hacc (List.countP_eq_zero.mp h0 c hc)
      · exact herr
  · intro c hc hacc
    have hcard := card_selectLoop hacc (Nat.le_refl candidates.length)
      ⟨candidates.toArray, rfl⟩
    rw [pool_eq_list] at hcard
    have hset : Nat.card { d : DrawSequence candidates.length //
          σ.causalSelect tx key candidates d.draws = .ok c }
        = Nat.card { d : DrawSequence candidates.length //
          selectLoop (σ.accepts tx key) d.draws candidates.length (Nat.le_refl _)
            ⟨candidates.toArray, rfl⟩ = some c } :=
      Nat.card_congr (Equiv.subtypeEquivRight fun d => σ.causalSelect_eq_ok tx key)
    rw [hset]
    refine ⟨hcard, fun hnd => ?_⟩
    have hm : 0 < candidates.countP (σ.accepts tx key) := List.countP_pos_iff.mpr ⟨c, hc, hacc⟩
    rw [List.count_eq_one_of_mem hnd hc, Nat.one_mul] at hcard
    refine ⟨(Nat.div_eq_of_eq_mul_left hm hcard.symm).symm, ?_⟩
    rw [card_drawSequence, ← hcard]
    have hpos : 0 < Nat.card { d : DrawSequence candidates.length //
        selectLoop (σ.accepts tx key) d.draws candidates.length (Nat.le_refl _)
          ⟨candidates.toArray, rfl⟩ = some c } := by
      rcases Nat.eq_zero_or_pos (Nat.card { d : DrawSequence candidates.length //
        selectLoop (σ.accepts tx key) d.draws candidates.length (Nat.le_refl _)
          ⟨candidates.toArray, rfl⟩ = some c }) with h0 | hpos
      · rw [h0, Nat.zero_mul] at hcard
        exact absurd hcard.symm (Nat.factorial_ne_zero _)
      · exact hpos
    rw [Nat.cast_mul, ← div_div, div_self (by exact_mod_cast hpos.ne')]

end KvStore

end MockDB
