import MockDB.Lib.Linearizable
import MockDB.KvStore.KvStore

/-!
# The Treiber stack

`treiber_stack.h`. Key `0` holds the head's id, every other key a node with its value and
the id of the next one, `-1` ending the list. `Pc` is where a thread is in `push` or `pop`,
between two uses of the store; `update_head` holds the stack's own mutex and counts as one.
Ids are unbounded here, where the code has them in a `long`.
-/

namespace MockDB

open Linearizability

inductive StackOp (V : Type) where
  | push (val : V)
  | pop
  deriving DecidableEq

/-- How a call ends. -/
inductive StackRet (V : Type) where
  | pushed
  /-- `pop` returns a value, or `EMPTY`, a `0` that is told apart from values here. -/
  | popped (val : Option V)
  /-- An exception leaves the call. -/
  | threw
  deriving DecidableEq

/-- What is left to do of a call. -/
inductive Pc (V : Type) where
  | pushSize (val : V)
  | pushInsert (val : V) (newHeadId : Int)
  | pushReadHead (val : V) (newHeadId : Int)
  | pushLink (val : V) (newHeadId curHeadId : Int)
  | pushUpdate (val : V) (newHeadId curHeadId : Int)
  | popReadHead
  | popReadNode (curHeadId : Int)
  | popUpdate (curHeadId : Int) (head : V × Int)
  | done (ret : StackRet V)
  deriving DecidableEq

/-- A call's first line. -/
def StackOp.start {V : Type} : StackOp V → Pc V
  | push val => .pushSize val
  | pop => .popReadHead

section Code

variable {V : Type} [Zero V]

/-- The constructor, on a fresh store. `NULL` is the zero of the value type. -/
def newStack (sel : ReadResponseSelector) : World Int (V × Int) :=
  (World.init sel).put 0 (0, -1) defaultSession

/-- `update_head`. -/
def updateHead (w : World Int (V × Int)) (oldHead newHead : Int) (sessionId : Int)
    (draws : Draws) : Bool × World Int (V × Int) :=
  let (result, w) := w.get 0 sessionId draws
  let headId :=
    match result with
    | .ok head => head.2
    | .error _ => -1
  if headId = oldHead then
    (true, w.put 0 (0, newHead) sessionId)
  else
    (false, w)

/-- One use of the store by the thread of `sessionId`. -/
def Pc.step (w : World Int (V × Int)) (sessionId : Int) (draws : Draws) :
    Pc V → Pc V × World Int (V × Int)
  -- push
  | pushSize val => (pushInsert val (w.store.getSize * 10 + sessionId), w)
  | pushInsert val newHeadId =>
      (pushReadHead val newHeadId, w.put newHeadId (val, -1) defaultSession)
  | pushReadHead val newHeadId =>
      let (result, w) := w.get 0 sessionId draws
      match result with
      | .ok head => (pushLink val newHeadId head.2, w)
      | .error _ => (pushUpdate val newHeadId (-1), w)
  | pushLink val newHeadId curHeadId =>
      (pushUpdate val newHeadId curHeadId, w.put newHeadId (val, curHeadId) defaultSession)
  | pushUpdate val newHeadId curHeadId =>
      let (updated, w) := updateHead w curHeadId newHeadId sessionId draws
      if updated then (done .pushed, w) else (pushReadHead val newHeadId, w)
  -- pop
  | popReadHead =>
      let (result, w) := w.get 0 sessionId draws
      match result with
      | .ok head => if head.2 = -1 then (done (.popped none), w) else (popReadNode head.2, w)
      | .error _ => (done .threw, w)
  | popReadNode curHeadId =>
      let (result, w) := w.get curHeadId sessionId draws
      match result with
      | .ok head => (popUpdate curHeadId head, w)
      | .error _ => (done (.popped none), w)
  | popUpdate curHeadId head =>
      let (updated, w) := updateHead w curHeadId head.2 sessionId draws
      if updated then (done (.popped (some head.1)), w) else (popReadHead, w)
  | done ret => (done ret, w)

/-! ## A client on its own -/

/-- Up to `fuel` steps of one call, which returns `none` if they do not end it. -/
def finish (sessionId : Int) (draws : Nat → Draws) :
    Nat → Pc V → World Int (V × Int) → Option (StackRet V) × World Int (V × Int)
  | _, .done ret, w => (some ret, w)
  | 0, _, w => (none, w)
  | fuel + 1, pc, w =>
      let (pc, w) := pc.step w sessionId (draws fuel)
      finish sessionId draws fuel pc w

/-- Calls made one after the other by one session. -/
def runCalls (sessionId : Int) (fuel : Nat) :
    List (StackOp V × (Nat → Draws)) → World Int (V × Int) → List (Option (StackRet V))
  | [], _ => []
  | (op, draws) :: calls, w =>
      let (ret, w) := finish sessionId draws fuel op.start w
      ret :: runCalls sessionId fuel calls w

/-! ## Whole calls, one at a time -/

/-- A call, with the session that makes it and its random numbers. -/
structure StackCall (V : Type) where
  op : StackOp V
  sessionId : Int
  draws : Nat → Draws

omit [Zero V] in
/-- The session of a call that pushes. -/
def StackCall.pushSession : StackCall V → Option Int
  | ⟨.push _, sessionId, _⟩ => some sessionId
  | ⟨.pop, _, _⟩ => none

/-- A linearizable store after whole calls of any sessions. -/
def stackAfter (fuel : Nat) (calls : List (StackCall V)) : World Int (V × Int) :=
  calls.foldl (fun w call => (finish call.sessionId call.draws fuel call.op.start w).2)
    (newStack .linearizable)

end Code

/-! ## Many threads -/

/-- The session ids that make node ids distinct. -/
abbrev Digit : Type := {n : Int // 1 ≤ n ∧ n ≤ 9}

/-- A thread inside a call. -/
structure StackThread (V : Type) where
  /-- The call's number, counting calls as they are made. -/
  call : Nat
  op : StackOp V
  pc : Pc V

/-- One thread for each session. `events`, `log`, `pushes` and `pops` only record: calls
made and returned, calls as they take effect, and nodes that went on and off the stack. -/
structure Stack (V : Type) where
  world : World Int (V × Int)
  threads : Digit → Option (StackThread V)
  calls : Nat
  events : List (Event Nat (StackOp V) (StackRet V))
  log : List (Entry Nat (StackOp V) (StackRet V))
  pushes : List (Int × V)
  pops : List (Int × V)

inductive StackStep (V : Type) where
  | invoke (session : Digit) (op : StackOp V)
  | move (session : Digit) (draws : Draws)
  | ret (session : Digit)

namespace Stack

variable {V : Type} [Zero V]

def init (sel : ReadResponseSelector) : Stack V where
  world := newStack sel
  threads _ := none
  calls := 0
  events := []
  log := []
  pushes := []
  pops := []

omit [Zero V] in
/-- What a thread that goes on from `pc` to `pc'` adds to `log`. -/
def logged (t : StackThread V) : Pc V → List (Entry Nat (StackOp V) (StackRet V))
  | .done ret => [⟨t.call, t.op, ret⟩]
  | _ => []

omit [Zero V] in
/-- The node that `push` put on the stack when it went on from `pc` to `pc'`. -/
def pushedNode : Pc V → Pc V → List (Int × V)
  | .pushUpdate val newHeadId _, .done _ => [(newHeadId, val)]
  | _, _ => []

omit [Zero V] in
/-- The node that `pop` took off the stack when it went on from `pc` to `pc'`. -/
def poppedNode : Pc V → Pc V → List (Int × V)
  | .popUpdate curHeadId head, .done _ => [(curHeadId, head.1)]
  | _, _ => []

/-- A thread not ready for a step stays where it is. -/
def step (s : Stack V) : StackStep V → Stack V
  | .invoke session op =>
      match s.threads session with
      | some _ => s
      | none =>
          { s with
            threads := Function.update s.threads session (some ⟨s.calls, op, op.start⟩)
            calls := s.calls + 1
            events := s.events ++ [.inv s.calls op] }
  | .move session draws =>
      match s.threads session with
      | none => s
      | some ⟨_, _, .done _⟩ => s
      | some t =>
          let (pc, world) := t.pc.step s.world session.1 draws
          { s with
            world := world
            threads := Function.update s.threads session (some { t with pc := pc })
            log := s.log ++ logged t pc
            pushes := s.pushes ++ pushedNode t.pc pc
            pops := s.pops ++ poppedNode t.pc pc }
  | .ret session =>
      match s.threads session with
      | some ⟨call, _, .done ret⟩ =>
          { s with
            threads := Function.update s.threads session none
            events := s.events ++ [.ret call ret] }
      | _ => s

def run (s : Stack V) (steps : List (StackStep V)) : Stack V := steps.foldl step s

end Stack

end MockDB
