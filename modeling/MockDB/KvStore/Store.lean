import MockDB.KvStore.Operation

/-!
# The store's state

The data members of `kv_store` and the parts of `kv_store.h` that only touch them:
the accessors the consistency checker reads and `commit_tx`. The selector object is
held by value, since its counters are all the state it has besides the store it
points back to.
-/

namespace MockDB

/-- `DEFAULT_SESSION`, of a `get` or `put` that names none. -/
def defaultSession : Int := 1

/-- The fields of `k_causal_read_response_selector`; its two inner selectors are stateless. -/
structure KCausalReadResponseSelector where
  k : Nat
  totalReadCount : Nat
  readCount : Nat
  kReadIds : Finset Nat
  deriving DecidableEq

/-- The `read_response_selector` a store points to, initialised on that store. -/
inductive ReadResponseSelector where
  | causal
  | linearizable
  | kCausal (selector : KCausalReadResponseSelector)
  deriving DecidableEq

/-- What `get` can throw. `key_not_found_exception` keeps the key it prints. -/
inductive StoreException (K : Type) where
  | keyNotFound (key : K)
  | consistency (txName : String) (key : Option K) (txId : Nat)
  deriving DecidableEq, Repr

/-- `kv_store`. -/
structure KvStore (K V : Type) where
  /-- Every version of every key, oldest first, with the id of its writer. -/
  kvMap : UnorderedMap K (List (V × Nat))
  history : List (Transaction K V)
  sessionOrder : UnorderedMap Int (List (Transaction K V))
  readSelector : ReadResponseSelector

namespace KvStore

variable {K V : Type}

/-- The constructor. -/
def new (sel : ReadResponseSelector) : KvStore K V where
  kvMap := ∅
  history := []
  sessionOrder := ∅
  readSelector := sel

/-- `get_history`. -/
def getHistory (σ : KvStore K V) : List (Transaction K V) := σ.history

/-- `get_session_history`: empty for a session the store has not heard of. -/
def getSessionHistory (σ : KvStore K V) (sessionId : Int) : List (Transaction K V) :=
  (σ.sessionOrder.lookup sessionId).getD []

/-- `get_size`: the number of keys. -/
def getSize (σ : KvStore K V) : Nat := σ.kvMap.size

/-- `set_gen_next_tx`. -/
def setGenNextTx (σ : KvStore K V) (sel : ReadResponseSelector) : KvStore K V :=
  { σ with readSelector := sel }

/-- `commit_tx`. -/
def commitTx (σ : KvStore K V) (tx : Transaction K V) (sessionId : Int) : KvStore K V :=
  { σ with
    history := σ.history ++ [tx]
    sessionOrder :=
      match σ.sessionOrder.lookup sessionId with
      | none => σ.sessionOrder.insert sessionId [tx]
      | some order => σ.sessionOrder.insert sessionId (order ++ [tx]) }

@[simp] theorem new_kvMap (sel : ReadResponseSelector) : (new sel : KvStore K V).kvMap = ∅ := rfl

@[simp] theorem new_history (sel : ReadResponseSelector) :
    (new sel : KvStore K V).history = [] := rfl

@[simp] theorem setGenNextTx_kvMap (σ : KvStore K V) (sel : ReadResponseSelector) :
    (σ.setGenNextTx sel).kvMap = σ.kvMap := rfl

@[simp] theorem setGenNextTx_history (σ : KvStore K V) (sel : ReadResponseSelector) :
    (σ.setGenNextTx sel).history = σ.history := rfl

@[simp] theorem setGenNextTx_sessionOrder (σ : KvStore K V) (sel : ReadResponseSelector) :
    (σ.setGenNextTx sel).sessionOrder = σ.sessionOrder := rfl

@[simp] theorem setGenNextTx_readSelector (σ : KvStore K V) (sel : ReadResponseSelector) :
    (σ.setGenNextTx sel).readSelector = sel := rfl

@[simp] theorem setGenNextTx_getSessionHistory (σ : KvStore K V) (sel : ReadResponseSelector)
    (s : Int) : (σ.setGenNextTx sel).getSessionHistory s = σ.getSessionHistory s := rfl

@[simp] theorem commitTx_kvMap (σ : KvStore K V) (tx : Transaction K V) (s : Int) :
    (σ.commitTx tx s).kvMap = σ.kvMap := rfl

@[simp] theorem commitTx_history (σ : KvStore K V) (tx : Transaction K V) (s : Int) :
    (σ.commitTx tx s).history = σ.history ++ [tx] := rfl

@[simp] theorem commitTx_readSelector (σ : KvStore K V) (tx : Transaction K V) (s : Int) :
    (σ.commitTx tx s).readSelector = σ.readSelector := rfl

/-- `commit_tx` appends to one session's order and leaves the others alone. -/
theorem commitTx_getSessionHistory (σ : KvStore K V) (tx : Transaction K V) (s s' : Int) :
    (σ.commitTx tx s).getSessionHistory s'
      = if s' = s then σ.getSessionHistory s ++ [tx] else σ.getSessionHistory s' := by
  unfold getSessionHistory commitTx
  by_cases h : s' = s
  · subst h
    cases σ.sessionOrder.lookup s' <;> simp
  · cases σ.sessionOrder.lookup s <;> simp [h, AList.lookup_insert_ne h]

end KvStore

end MockDB
