import Mathlib.Data.List.AList
import Mathlib.Data.Finset.Card

/-!
# Operations and transactions

`operation_param.h`, `operation_response.h`, `operation.h` and `transaction.h`.
A transaction carries one operation, and an operation carries its parameters and,
once the store has answered it, its response. The subclasses the code tells apart
with `dynamic_cast` are the constructors of `Operation`.

Ids, sessions and counters are C++ integers no run overflows: each transaction a
store commits stays in its history, so memory ends long before a counter does.
-/

namespace MockDB

/-- `GET_param`. -/
structure GetParam (K : Type) where
  key : K
  deriving DecidableEq, Repr

/-- `PUT_param`. -/
structure PutParam (K V : Type) where
  key : K
  value : V
  deriving DecidableEq, Repr

/-- `GET_response`. -/
structure GetResponse (K V : Type) where
  /-- Which object this is: `_get` tells its candidates apart by their address. -/
  addr : Nat
  key : K
  value : V
  writtenByTxId : Nat
  /-- One-based; `0` stands for the field the constructor leaves unset. -/
  versionNumber : Nat
  success : Bool
  deriving DecidableEq, Repr

/-- `PUT_response`. -/
structure PutResponse where
  success : Bool
  deriving DecidableEq, Repr

/-- `GET_operation` and `PUT_operation`. The response is null until it is set. -/
inductive Operation (K V : Type) where
  | get (params : GetParam K) (response : Option (GetResponse K V))
  | put (params : PutParam K V) (response : Option PutResponse)
  deriving DecidableEq, Repr

namespace Operation

variable {K V : Type}

/-- `get_params()->get_key()`. -/
def key : Operation K V → K
  | get params _ => params.key
  | put params _ => params.key

/-- Whether `dynamic_cast` to `PUT_operation` succeeds. -/
def isPut : Operation K V → Bool
  | get _ _ => false
  | put _ _ => true

@[simp] theorem key_get (p : GetParam K) (r : Option (GetResponse K V)) :
    (get p r).key = p.key := rfl

@[simp] theorem key_put (p : PutParam K V) (r : Option PutResponse) :
    (put p r).key = p.key := rfl

@[simp] theorem isPut_get (p : GetParam K) (r : Option (GetResponse K V)) :
    (get p r).isPut = false := rfl

@[simp] theorem isPut_put (p : PutParam K V) (r : Option PutResponse) :
    (put p r).isPut = true := rfl

end Operation

/-- `transaction`. -/
structure Transaction (K V : Type) where
  txId : Nat
  sessionId : Int
  op : Operation K V
  deriving DecidableEq, Repr

namespace Transaction

variable {K V : Type}

/-- `get_operation()->set_response`, for a GET. -/
def setResponse (tx : Transaction K V) (key : K) (r : GetResponse K V) : Transaction K V :=
  { tx with op := .get ⟨key⟩ (some r) }

/-- `set_response(new PUT_response(true))`, for a PUT. -/
def setPutResponse (tx : Transaction K V) (key : K) (value : V) : Transaction K V :=
  { tx with op := .put ⟨key, value⟩ (some ⟨true⟩) }

@[simp] theorem setPutResponse_txId (tx : Transaction K V) (key : K) (value : V) :
    (tx.setPutResponse key value).txId = tx.txId := rfl

@[simp] theorem setPutResponse_sessionId (tx : Transaction K V) (key : K) (value : V) :
    (tx.setPutResponse key value).sessionId = tx.sessionId := rfl

@[simp] theorem setPutResponse_op (tx : Transaction K V) (key : K) (value : V) :
    (tx.setPutResponse key value).op = .put ⟨key, value⟩ (some ⟨true⟩) := rfl

@[simp] theorem setResponse_txId (tx : Transaction K V) (key : K) (r : GetResponse K V) :
    (tx.setResponse key r).txId = tx.txId := rfl

@[simp] theorem setResponse_sessionId (tx : Transaction K V) (key : K) (r : GetResponse K V) :
    (tx.setResponse key r).sessionId = tx.sessionId := rfl

@[simp] theorem setResponse_op (tx : Transaction K V) (key : K) (r : GetResponse K V) :
    (tx.setResponse key r).op = .get ⟨key⟩ (some r) := rfl

end Transaction

/-- `std::unordered_map`: one value for each key that is present. -/
abbrev UnorderedMap (K W : Type) : Type := AList (fun _ : K => W)

/-- `unordered_map::size`. -/
def UnorderedMap.size {K W : Type} (m : UnorderedMap K W) : Nat := m.keys.length

end MockDB
