import MockDB.KvStore.Store

/-!
# The consistency checker

`consistency_checker.h`. To accept a read the checker collects the writers its
session already depends on for this key, then walks the whole history up to the
writer being read, counting how many of them it passed.
-/

namespace MockDB

namespace KvStore

variable {K V : Type} [DecidableEq K]

/-- One iteration of the loop over the session's history: the writer it contributes. -/
def insertDependent (key : K) (dependentTxs : Finset Nat) (tx : Transaction K V) : Finset Nat :=
  match tx.op with
  | .put params _ => if params.key = key then insert tx.txId dependentTxs else dependentTxs
  | .get params response =>
      if params.key = key then
        -- a committed GET has its response; the code would dereference null otherwise
        match response with
        | some r => insert r.writtenByTxId dependentTxs
        | none => dependentTxs
      else dependentTxs

/-- `dependent_txs`: the writers of `key` the session wrote or read. -/
def dependentTxs (σ : KvStore K V) (key : K) (sessionId : Int) : Finset Nat :=
  (σ.getSessionHistory sessionId).foldl (insertDependent key) ∅

/-- The scan of the global history: `true` iff every dependent was met by the time `txId` was. -/
def committedBefore (dependentTxs : Finset Nat) (txId : Nat) :
    Nat → List (Transaction K V) → Bool
  | _, [] => false
  | committedCount, tx :: rest =>
      let committedCount :=
        if tx.txId ∈ dependentTxs then committedCount + 1 else committedCount
      if tx.txId = txId then committedCount == dependentTxs.card
      else committedBefore dependentTxs txId committedCount rest

/-- `causal_consistency_checker::is_consistent`. Only GETs whose response is set are passed. -/
def isConsistent (σ : KvStore K V) (newTx : Transaction K V) : Bool :=
  match newTx.op with
  | .get _ (some response) =>
      let dependentTxs := σ.dependentTxs response.key newTx.sessionId
      if dependentTxs.card = 0 then true
      else committedBefore dependentTxs response.writtenByTxId 0 σ.getHistory
  | _ => false

end KvStore

end MockDB
