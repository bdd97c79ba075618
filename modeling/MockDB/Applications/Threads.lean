import MockDB.Applications.App
import MockDB.Lib.Mutex

/-!
# Threads of an application

The drivers start threads on one application object, each with a list of operations. What
stands between `tx_start` and `tx_end` is a locked job, since `tx_start` takes the object's
mutex and `tx_end` releases it. An operation outside of them is a job as well, and other
threads may come between any two of its uses of the store. An exception that leaves a thread
ends the process; here the thread stays where it is, with the mutex if it had taken it.
-/

namespace MockDB

open Mutex

namespace App

variable {Key α : Type}

/-- What an operation returned, if it did. -/
def returned : App Key α → Option α
  | Program.ret a => some a
  | _ => none

/-- Operations go on by a `get` or a `put` at a time. -/
def machine (name : Key → String) : Machine (World String Json) (App Key α) Draws α where
  step draws p w := advance name draws w p
  result := returned

/-- An operation between `tx_start` and `tx_end`. -/
def inTx (p : App Key α) : Job (App Key α) := ⟨true, p⟩

/-- Operations that all stand between `tx_start` and `tx_end`. -/
def allInTx (ops : Nat → List (App Key α)) (i : Nat) : List (Job (App Key α)) := (ops i).map inTx

/-- The threads after any interleaving, on a store that was in `w` before. -/
def threads (name : Key → String) (w : World String Json) (jobs : Nat → List (Job (App Key α)))
    (turns : List (Nat × Draws)) : Pool (World String Json) (App Key α) α :=
  (Pool.init w jobs).run (machine name) turns

/-- What thread `i` was returned by its `n`th operation, counted from zero. -/
def replyOf (pool : Pool (World String Json) (App Key α) α) (i n : Nat) : Option α :=
  (pool.parties i).results[n]?

/-- An exception has left thread `i`, at its `n`th job. -/
def StoppedAt (pool : Pool (World String Json) (App Key α) α) (i n : Nat) (e : AppException) :
    Prop :=
  (pool.parties i).results.length = n
    ∧ ∃ locked, (pool.parties i).current = some ⟨locked, Program.raise e⟩

/-- Operations run one at a time, with what they returned or raised. -/
def runEach (name : Key → String) (w : World String Json) :
    List (App Key α × (Nat → Draws)) → List (Except AppException α) × World String Json
  | [] => ([], w)
  | (p, draws) :: ops =>
      let (result, w) := run name p draws w
      let (results, w) := runEach name w ops
      (result :: results, w)

end App

end MockDB
