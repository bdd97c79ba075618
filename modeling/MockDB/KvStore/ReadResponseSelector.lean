import MockDB.KvStore.ConsistencyChecker
import Mathlib.Data.Finset.Dedup

/-!
# The read-response selectors

`read_response_selector.h`. A selector is handed one candidate for each stored
version of the key, oldest first, and either returns one of them or throws.
-/

namespace MockDB

/-- The random numbers of one selection: `draws n` is what `dist(gen)` yields when
`limit = n + 1`, so it lies in `[0, limit - 1]`. -/
abbrev Draws : Type := (n : Nat) → Fin (n + 1)

/-- Every random number is `0`. -/
def zeroDraws : Draws := fun n => ⟨0, n.succ_pos⟩

/-- The loop of `causal_read_response_selector::select_read_response`: draw one of the first
`limit` candidates, swap it to the end of them, and return it if it is consistent. -/
def selectLoop {α : Type} (isConsistent : α → Bool) (draws : Draws) {m : Nat} :
    (limit : Nat) → limit ≤ m → Vector α m → Option α
  | 0, _, _ => none
  | limit + 1, h, candidates =>
      let index := draws limit
      let candidates := candidates.swap index limit (by omega) (by omega)
      let candidate := candidates[limit]
      if isConsistent candidate then some candidate
      else selectLoop isConsistent draws limit (by omega) candidates

/-- The candidates that loop passes to `is_consistent`, in order. -/
def triedCandidates {α : Type} (isConsistent : α → Bool) (draws : Draws) {m : Nat} :
    (limit : Nat) → limit ≤ m → Vector α m → List α
  | 0, _, _ => []
  | limit + 1, h, candidates =>
      let index := draws limit
      let candidates := candidates.swap index limit (by omega) (by omega)
      let candidate := candidates[limit]
      if isConsistent candidate then [candidate]
      else candidate :: triedCandidates isConsistent draws limit (by omega) candidates

namespace KvStore

variable {K V : Type} [DecidableEq K]

/-- Whether `is_consistent` accepts a candidate for the response. -/
def accepts (σ : KvStore K V) (tx : Transaction K V) (key : K) (candidate : GetResponse K V) :
    Bool := σ.isConsistent (tx.setResponse key candidate)

/-- `causal_read_response_selector::select_read_response`. -/
def causalSelect (σ : KvStore K V) (tx : Transaction K V) (key : K)
    (candidates : List (GetResponse K V)) (draws : Draws) :
    Except (StoreException K) (GetResponse K V) :=
  match selectLoop (fun candidate => σ.isConsistent (tx.setResponse key candidate)) draws
      candidates.length (Nat.le_refl _) ⟨candidates.toArray, rfl⟩ with
  | some candidate => .ok candidate
  | none => .error (.consistency "GET" none tx.txId)

/-- The candidates `causal_read_response_selector::select_read_response` passes to
`is_consistent`, in order. -/
def causalTried (σ : KvStore K V) (tx : Transaction K V) (key : K)
    (candidates : List (GetResponse K V)) (draws : Draws) : List (GetResponse K V) :=
  triedCandidates (σ.accepts tx key) draws candidates.length (Nat.le_refl _)
    ⟨candidates.toArray, rfl⟩

/-- `linearizable_read_response_selector::select_read_response`. -/
def linearizableSelect (tx : Transaction K V) (candidates : List (GetResponse K V)) :
    Except (StoreException K) (GetResponse K V) :=
  match candidates.getLast? with
  | none => .error (.consistency "GET" none tx.txId)
  | some candidate => .ok candidate

end KvStore

namespace KCausalReadResponseSelector

/-- The constructor. -/
def new (k totalReadCount : Nat) : KCausalReadResponseSelector where
  k := k
  totalReadCount := totalReadCount
  readCount := 0
  kReadIds := ∅

/-- What `std::shuffle` can leave in `read_ids`. -/
abbrev Shuffle (totalReadCount : Nat) : Type :=
  { readIds : List Nat // readIds.Perm (List.range' 1 totalReadCount) }

/-- `pick_k_read_ids`: the first `k` of the shuffled ids `1 … total_read_count`. -/
def pickKReadIds (sel : KCausalReadResponseSelector) (readIds : Shuffle sel.totalReadCount) :
    KCausalReadResponseSelector :=
  { sel with kReadIds := sel.kReadIds ∪ (readIds.val.take sel.k).toFinset }

/-- `init_consistency_checker`; the two inner selectors keep no state of their own. -/
def initConsistencyChecker (sel : KCausalReadResponseSelector)
    (readIds : Shuffle sel.totalReadCount) : KCausalReadResponseSelector :=
  sel.pickKReadIds readIds

/-- `k_causal_read_response_selector::select_read_response`. -/
def selectReadResponse {K V : Type} [DecidableEq K] (sel : KCausalReadResponseSelector)
    (σ : KvStore K V) (tx : Transaction K V) (key : K) (candidates : List (GetResponse K V))
    (draws : Draws) :
    Except (StoreException K) (GetResponse K V) × KCausalReadResponseSelector :=
  let sel := { sel with readCount := sel.readCount + 1 }
  if sel.readCount ∈ sel.kReadIds then (σ.causalSelect tx key candidates draws, sel)
  else (KvStore.linearizableSelect tx candidates, sel)

end KCausalReadResponseSelector

/-- `select_read_response`, dispatched on the selector the store points to. -/
def ReadResponseSelector.selectReadResponse {K V : Type} [DecidableEq K]
    (sel : ReadResponseSelector) (σ : KvStore K V) (tx : Transaction K V) (key : K)
    (candidates : List (GetResponse K V)) (draws : Draws) :
    Except (StoreException K) (GetResponse K V) × ReadResponseSelector :=
  match sel with
  | .causal => (σ.causalSelect tx key candidates draws, .causal)
  | .linearizable => (KvStore.linearizableSelect tx candidates, .linearizable)
  | .kCausal selector =>
      let (result, selector) := selector.selectReadResponse σ tx key candidates draws
      (result, .kCausal selector)

end MockDB
