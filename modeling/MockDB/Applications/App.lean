import MockDB.HttpServer.Json
import MockDB.KvStore.KvStore
import MockDB.Lib.Program

/-!
# Applications of the store

The applications keep JSON values under string keys. Their operations are programs over
the store, written with keys that still show what they name; `name` gives the string a key
stands for. `run` is an operation that nothing interrupts, as between `tx_start` and
`tx_end`; `Crowd` has many operations under way at once.
-/

namespace MockDB

/-- The exceptions an operation can meet or raise. -/
inductive AppException where
  /-- Thrown by the store's `get`. -/
  | store (e : StoreException String)
  /-- `json_exception`: a value is not what the operation takes it for. -/
  | json

/-- What the member functions of an application are written in. -/
abbrev App (Key : Type) : Type → Type := Program Key Json Int (StoreException String) AppException

namespace App

variable {Key α : Type}

/-- `store->get(key, session_id)`. -/
def get (key : Key) (sessionId : Int) : App Key Json :=
  Program.get key sessionId fun
    | .ok value => Program.ret value
    | .error e => Program.raise (.store e)

/-- `store->put(key, value, session_id)`. -/
def put (key : Key) (value : Json) (sessionId : Int) : App Key Unit :=
  Program.put key value sessionId (Program.ret ())

/-- A JSON read or assignment that may throw. -/
def json (result : Option α) : App Key α := Program.ofOption .json result

/-- `store->get` of a list, or a new empty list where the `get` throws. -/
def getList (name : String) (key : Key) (sessionId : Int) : App Key Json := do
  match ← (get key sessionId).attempt with
  | .ok value => pure value
  | .error _ => json (Json.null.setList name [] 0)

/-! ## Whole operations -/

/-- An operation run from start to end. Its `get`s take their random numbers from `draws`. -/
def run (name : Key → String) :
    App Key α → (Nat → Draws) → World String Json → Except AppException α × World String Json
  | Program.ret a, _, w => (.ok a, w)
  | Program.raise e, _, w => (.error e, w)
  | Program.get key sessionId next, draws, w =>
      let (result, w) := w.get (name key) sessionId (draws 0)
      run name (next result) (fun n => draws (n + 1)) w
  | Program.put key value sessionId next, draws, w =>
      run name next draws (w.put (name key) value sessionId)

/-- Operations one after another, whether they return or raise. -/
def runAll (name : Key → String) (w : World String Json)
    (ops : List (App Key Unit × (Nat → Draws))) : World String Json :=
  ops.foldl (fun w op => (run name op.1 op.2 w).2) w

/-- The values stored under a key, oldest first. -/
def versions (name : Key → String) (w : World String Json) (key : Key) : List Json :=
  ((w.store.kvMap.lookup (name key)).getD []).map Prod.fst

/-! ## Operations among others -/

/-- The next `get` or `put` of an operation, and what is left of it. -/
def advance (name : Key → String) (draws : Draws) (w : World String Json) :
    App Key α → App Key α × World String Json
  | Program.get key sessionId next =>
      let (result, w) := w.get (name key) sessionId draws
      (next result, w)
  | Program.put key value sessionId next => (next, w.put (name key) value sessionId)
  | ended => (ended, w)

end App

/-- Operations under way, and the store they share. -/
structure Crowd (Key : Type) where
  world : World String Json
  /-- What is left of each operation. -/
  running : List (App Key Unit)

inductive CrowdEvent (Op : Type) where
  /-- An operation is called. -/
  | start (op : Op)
  /-- One of those under way does its next `get` or `put`. -/
  | turn (i : Nat) (draws : Draws)

namespace Crowd

variable {Key Op : Type} (name : Key → String) (program : Op → App Key Unit)

def step (crowd : Crowd Key) : CrowdEvent Op → Crowd Key
  | .start op => { crowd with running := crowd.running ++ [program op] }
  | .turn i draws =>
      match crowd.running[i]? with
      | none => crowd
      | some p =>
          let (p, w) := App.advance name draws crowd.world p
          { world := w, running := crowd.running.set i p }

/-- Any interleaving of any operations on a new store. -/
def run (sel : ReadResponseSelector) (events : List (CrowdEvent Op)) : Crowd Key :=
  events.foldl (step name program) { world := World.init sel, running := [] }

end Crowd

end MockDB
