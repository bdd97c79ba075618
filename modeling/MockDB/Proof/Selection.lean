import MockDB.KvStore.KvStore

/-!
# What a selector can return

The swap-and-shrink loop tries positions in an order the draws decide, but what it
can return does not depend on that order: some consistent candidate if there is one,
any given one for suitable draws, and nothing only when all of them are refused.

Every selector is, at each selection, one of two things. Either it runs that loop
(`isWeak`) or it takes the last candidate; `next` is what becomes of its counters.
-/

namespace MockDB

section Loop

variable {α : Type} {isConsistent : α → Bool} {m : Nat}

/-- What the loop returns was among the candidates still in the pool and is consistent. -/
theorem selectLoop_some {draws : Draws} {c : α} :
    ∀ {limit : Nat} {h : limit ≤ m} {candidates : Vector α m},
      selectLoop isConsistent draws limit h candidates = some c →
      isConsistent c = true ∧ ∃ i, ∃ hi : i < limit, candidates[i] = c := by
  intro limit
  induction limit with
  | zero => intro h candidates hc; simp [selectLoop] at hc
  | succ limit ih =>
      intro h candidates hc
      have hd : (draws limit).val < limit + 1 := (draws limit).isLt
      rw [selectLoop] at hc
      split at hc
      · rename_i hok
        have hcand : candidates[(draws limit).val] = c := by simpa using hc
        rw [Vector.getElem_swap_right] at hok
        exact ⟨hcand ▸ hok, _, hd, hcand⟩
      · obtain ⟨hok, i, hi, hci⟩ := ih hc
        refine ⟨hok, ?_⟩
        -- position `i` now holds its own candidate or the one swapped into it
        rw [Vector.getElem_swap] at hci
        split at hci
        · exact ⟨limit, by omega, hci⟩
        · rw [if_neg (by omega)] at hci
          exact ⟨i, by omega, hci⟩

/-- The loop gives up only when it has refused the whole pool. -/
theorem selectLoop_none {draws : Draws} :
    ∀ {limit : Nat} {h : limit ≤ m} {candidates : Vector α m},
      selectLoop isConsistent draws limit h candidates = none →
      ∀ i, ∀ hi : i < limit, isConsistent candidates[i] = false := by
  intro limit
  induction limit with
  | zero => intro h candidates _ i hi; exact absurd hi (Nat.not_lt_zero i)
  | succ limit ih =>
      intro h candidates hn i hi
      have hd : (draws limit).val < limit + 1 := (draws limit).isLt
      rw [selectLoop] at hn
      split at hn
      · exact absurd hn (by simp)
      · rename_i hno
        rw [Vector.getElem_swap_right] at hno
        by_cases hid : i = (draws limit).val
        · subst hid; simpa using hno
        · have hrest := ih hn
          by_cases hil : i = limit
          · -- the last candidate went where the drawn one was
            have := hrest (draws limit).val (by omega)
            rw [Vector.getElem_swap_left] at this
            subst hil; exact this
          · have := hrest i (by omega)
            rwa [Vector.getElem_swap_of_ne hid hil] at this

/-- Any consistent candidate of the pool is returned when it is the first one drawn. -/
theorem selectLoop_reach (isConsistent : α → Bool) {limit : Nat} (h : limit ≤ m)
    (candidates : Vector α m) {i : Nat} (hi : i < limit) (hok : isConsistent candidates[i] = true) :
    ∃ draws : Draws, selectLoop isConsistent draws limit h candidates = some candidates[i] := by
  cases limit with
  | zero => exact absurd hi (Nat.not_lt_zero i)
  | succ limit =>
      refine ⟨fun n => if hn : i < n + 1 then ⟨i, hn⟩ else 0, ?_⟩
      rw [selectLoop]
      simp only [hi, dite_true, Vector.getElem_swap_right, hok, if_true]

end Loop

namespace KvStore

variable {K V : Type} [DecidableEq K]

theorem causalSelect_ok {σ : KvStore K V} {tx : Transaction K V} {key : K}
    {candidates : List (GetResponse K V)} {draws : Draws} {c : GetResponse K V}
    (h : σ.causalSelect tx key candidates draws = .ok c) :
    σ.isConsistent (tx.setResponse key c) = true ∧ c ∈ candidates := by
  unfold causalSelect at h
  split at h
  · rename_i c' hc
    have hcc : c' = c := Except.ok.inj h
    subst hcc
    obtain ⟨hok, i, hi, hci⟩ := selectLoop_some hc
    exact ⟨hok, hci ▸ List.getElem_mem hi⟩
  · exact absurd h (by simp)

/-- `consistency_exception` means that every candidate was refused. -/
theorem causalSelect_error {σ : KvStore K V} {tx : Transaction K V} {key : K}
    {candidates : List (GetResponse K V)} {draws : Draws} {e : StoreException K}
    (h : σ.causalSelect tx key candidates draws = .error e) :
    ∀ c ∈ candidates, σ.isConsistent (tx.setResponse key c) = false := by
  unfold causalSelect at h
  split at h
  · exact absurd h (by simp)
  · rename_i hn
    intro c hc
    obtain ⟨i, hi, hci⟩ := List.mem_iff_getElem.mp hc
    have := selectLoop_none hn i hi
    exact hci ▸ this

theorem causalSelect_reach {σ : KvStore K V} {tx : Transaction K V} {key : K}
    {candidates : List (GetResponse K V)} {c : GetResponse K V} (hc : c ∈ candidates)
    (hok : σ.isConsistent (tx.setResponse key c) = true) :
    ∃ draws, σ.causalSelect tx key candidates draws = .ok c := by
  obtain ⟨i, hi, hci⟩ := List.mem_iff_getElem.mp hc
  subst hci
  obtain ⟨draws, hd⟩ := selectLoop_reach
    (fun candidate => σ.isConsistent (tx.setResponse key candidate))
    (Nat.le_refl candidates.length) ⟨candidates.toArray, rfl⟩ hi hok
  refine ⟨draws, ?_⟩
  unfold causalSelect
  rw [hd]
  rfl

end KvStore

namespace ReadResponseSelector

/-- Whether the next selection runs the causal loop. -/
def isWeak : ReadResponseSelector → Bool
  | .causal => true
  | .linearizable => false
  | .kCausal selector => decide (selector.readCount + 1 ∈ selector.kReadIds)

/-- The selector after one selection. -/
def next : ReadResponseSelector → ReadResponseSelector
  | .causal => .causal
  | .linearizable => .linearizable
  | .kCausal selector => .kCausal { selector with readCount := selector.readCount + 1 }

@[simp] theorem isWeak_causal : isWeak .causal = true := rfl
@[simp] theorem isWeak_linearizable : isWeak .linearizable = false := rfl
@[simp] theorem next_causal : next .causal = .causal := rfl
@[simp] theorem next_linearizable : next .linearizable = .linearizable := rfl

theorem selectReadResponse_eq {K V : Type} [DecidableEq K] (sel : ReadResponseSelector)
    (σ : KvStore K V) (tx : Transaction K V) (key : K) (candidates : List (GetResponse K V))
    (draws : Draws) :
    sel.selectReadResponse σ tx key candidates draws
      = (if sel.isWeak then σ.causalSelect tx key candidates draws
          else KvStore.linearizableSelect tx candidates, sel.next) := by
  cases sel with
  | causal => rfl
  | linearizable => rfl
  | kCausal selector =>
      by_cases h : selector.readCount + 1 ∈ selector.kReadIds <;>
        simp [selectReadResponse, KCausalReadResponseSelector.selectReadResponse, isWeak, next, h]

end ReadResponseSelector

end MockDB
