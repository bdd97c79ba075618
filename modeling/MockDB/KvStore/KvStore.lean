import MockDB.KvStore.ReadResponseSelector

/-!
# Reads and writes

The rest of `kv_store.h`. `putLocked` and `getLocked` are what `put` and `_get` do
between taking the store's mutex and releasing it, for a transaction that was
created before; nothing else of the store runs in between, so each is one step.

`World` adds the static `transaction::tx_count` and the transactions that have an
id but not yet the mutex. Threads interleave freely: ids are handed out in one
order and the critical sections may be entered in another.
-/

namespace MockDB

/-- The candidates `_get` lists: a fresh object for each stored version. -/
def newCandidates {K V : Type} (key : K) (versions : List (V × Nat)) : List (GetResponse K V) :=
  versions.mapIdx fun i candidateValue =>
    { addr := i
      key := key
      value := candidateValue.1
      writtenByTxId := candidateValue.2
      versionNumber := 0
      success := true }

/-- The loop that frees the candidates not chosen and numbers the one that was. -/
def setVersionNumber {K V : Type} :
    Nat → List (GetResponse K V) → GetResponse K V → GetResponse K V
  | _, [], opResponse => opResponse
  | versionNumber, candidate :: rest, opResponse =>
      if candidate.addr ≠ opResponse.addr then
        setVersionNumber (versionNumber + 1) rest opResponse
      else
        setVersionNumber versionNumber rest { opResponse with versionNumber := versionNumber }

namespace KvStore

variable {K V : Type} [DecidableEq K]

/-- `put`, from `mtx.lock()` to `mtx.unlock()`. -/
def putLocked (σ : KvStore K V) (tx : Transaction K V) (key : K) (value : V) : KvStore K V :=
  let σ := { σ with
    kvMap :=
      match σ.kvMap.lookup key with
      | none => σ.kvMap.insert key [(value, tx.txId)]
      | some versions => σ.kvMap.insert key (versions ++ [(value, tx.txId)]) }
  σ.commitTx (tx.setPutResponse key value) tx.sessionId

/-- `_get`, from `mtx.lock()` to `mtx.unlock()`. Its callers only want the response
of the transaction it returns. -/
def getLocked (σ : KvStore K V) (tx : Transaction K V) (key : K) (draws : Draws) :
    Except (StoreException K) (GetResponse K V) × KvStore K V :=
  match σ.kvMap.lookup key with
  | none => (.error (.keyNotFound key), σ)
  | some versions =>
      let candidateResponses := newCandidates key versions
      let (selected, sel) :=
        σ.readSelector.selectReadResponse σ tx key candidateResponses draws
      let σ := σ.setGenNextTx sel
      match selected with
      | .error _ => (.error (.consistency "GET" (some key) tx.txId), σ)
      | .ok opResponse =>
          -- the code commits the object first and numbers it under the same lock
          let opResponse := setVersionNumber 1 candidateResponses opResponse
          (.ok opResponse, σ.commitTx (tx.setResponse key opResponse) tx.sessionId)

end KvStore

/-- What a client asks of the store. -/
inductive Call (K V : Type) where
  | get (key : K)
  | put (key : K) (value : V)
  deriving DecidableEq, Repr

/-- What a client gets back: `get_with_version`'s pair, `put`'s `1`, or an exception. -/
inductive Response (K V : Type) where
  | got (value : V) (versionNumber : Nat)
  | put (ret : Int)
  | threw (e : StoreException K)
  deriving DecidableEq, Repr

/-- The operation object `_get` and `put` create for their transaction. -/
def Call.newOperation {K V : Type} : Call K V → Operation K V
  | get key => .get ⟨key⟩ none
  | put key value => .put ⟨key, value⟩ none

/-- `get_with_version` on what `_get` produced. -/
def Response.ofGet {K V : Type} : Except (StoreException K) (GetResponse K V) → Response K V
  | .ok r => .got r.value r.versionNumber
  | .error e => .threw e

/-- The critical section a transaction has ahead of it. -/
def KvStore.enter {K V : Type} [DecidableEq K] (σ : KvStore K V) (tx : Transaction K V)
    (draws : Draws) : Response K V × KvStore K V :=
  match tx.op with
  | .put params _ => (.put 1, σ.putLocked tx params.key params.value)
  | .get params _ =>
      let (result, σ) := σ.getLocked tx params.key draws
      (.ofGet result, σ)

/-- The store together with the threads about to enter it. -/
structure World (K V : Type) where
  store : KvStore K V
  /-- The static `transaction::tx_count`. -/
  txCount : Nat
  /-- Transactions that have an id while their thread is still outside the lock. -/
  waiting : List (Transaction K V)

/-- One step of one thread. -/
inductive Act (K V : Type) where
  /-- A call creates its transaction. -/
  | create (call : Call K V) (sessionId : Int)
  /-- The thread holding transaction `txId` runs its critical section. -/
  | enter (txId : Nat) (draws : Draws)

namespace World

variable {K V : Type}

/-- A program start: nothing stored, no id handed out. -/
def init (sel : ReadResponseSelector) : World K V where
  store := KvStore.new sel
  txCount := 0
  waiting := []

/-- `new transaction(op)`, whose `generate_tx_id` increments and then reads, and
`set_session_id`. -/
def newTransaction (w : World K V) (op : Operation K V) (sessionId : Int) :
    Transaction K V × World K V :=
  ({ txId := w.txCount + 1, sessionId := sessionId, op := op },
    { w with txCount := w.txCount + 1 })

/-- `set_gen_next_tx`. -/
def setGenNextTx (w : World K V) (sel : ReadResponseSelector) : World K V :=
  { w with store := w.store.setGenNextTx sel }

variable [DecidableEq K]

/-- One thread moves. Entering with an id nobody waits with does nothing. -/
def act (w : World K V) : Act K V → World K V
  | .create call sessionId =>
      let (tx, w) := w.newTransaction call.newOperation sessionId
      { w with waiting := w.waiting ++ [tx] }
  | .enter txId draws =>
      match w.waiting.find? (fun tx => tx.txId = txId) with
      | none => w
      | some tx =>
          { w with
            store := (w.store.enter tx draws).2
            waiting := w.waiting.filter (fun tx => tx.txId ≠ txId) }

/-- What the call that enters as transaction `txId` returns. -/
def enterResponse (w : World K V) (txId : Nat) (draws : Draws) : Option (Response K V) :=
  (w.waiting.find? (fun tx => tx.txId = txId)).map fun tx => (w.store.enter tx draws).1

/-- What `get_with_version` hands to the thread that enters as transaction `txId`, if that
is the transaction of a GET. -/
def enterGetWithVersion (w : World K V) (txId : Nat) (draws : Draws) :
    Option (Except (StoreException K) (V × Nat)) :=
  match w.waiting.find? (fun tx => tx.txId = txId) with
  | none => none
  | some tx =>
      match tx.op with
      | .put _ _ => none
      | .get params _ =>
          some ((w.store.getLocked tx params.key draws).1.map fun r => (r.value, r.versionNumber))

/-- A schedule. -/
def run (w : World K V) (acts : List (Act K V)) : World K V := acts.foldl act w

/-! ## Calls that nothing interrupts -/

/-- `put`. -/
def put (w : World K V) (key : K) (value : V) (sessionId : Int) : World K V :=
  let (tx, w) := w.newTransaction (Call.put key value).newOperation sessionId
  { w with store := w.store.putLocked tx key value }

/-- `_get`. -/
def _get (w : World K V) (key : K) (sessionId : Int) (draws : Draws) :
    Except (StoreException K) (GetResponse K V) × World K V :=
  let (tx, w) := w.newTransaction (Call.get key).newOperation sessionId
  let (result, store) := w.store.getLocked tx key draws
  (result, { w with store := store })

/-- `get`. -/
def get (w : World K V) (key : K) (sessionId : Int) (draws : Draws) :
    Except (StoreException K) V × World K V :=
  let (result, w) := w._get key sessionId draws
  (result.map (·.value), w)

/-- `get_with_version`. -/
def getWithVersion (w : World K V) (key : K) (sessionId : Int) (draws : Draws) :
    Except (StoreException K) (V × Nat) × World K V :=
  let (result, w) := w._get key sessionId draws
  (result.map fun r => (r.value, r.versionNumber), w)

/-- One uninterrupted call. -/
def exec (w : World K V) (call : Call K V) (sessionId : Int) (draws : Draws) :
    Response K V × World K V :=
  match call with
  | .put key value => (.put 1, w.put key value sessionId)
  | .get key =>
      let (result, w) := w._get key sessionId draws
      (.ofGet result, w)

/-- A sequence of uninterrupted calls, each with its session and its random numbers. -/
def execAll (w : World K V) : List (Call K V × Int × Draws) → List (Response K V) × World K V
  | [] => ([], w)
  | (call, sessionId, draws) :: rest =>
      let (r, w) := w.exec call sessionId draws
      let (rs, w) := w.execAll rest
      (r :: rs, w)

end World

end MockDB
