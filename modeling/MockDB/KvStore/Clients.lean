import MockDB.Lib.Linearizable
import MockDB.KvStore.KvStore

/-!
# Concurrent clients

Any number of threads calling one store. A call is made, allots its transaction id outside
the lock, later runs its critical section, and later still returns. Calls are numbered as
they are made; `events` and `log` only record what happens, for the proofs to refer to.
-/

namespace MockDB

open Linearizability

/-- How far a call has come. -/
inductive Phase (K V : Type) where
  | invoked
  | allotted (txId : Nat)
  /-- The critical section is over, and this is what the call will return. -/
  | left (r : Response K V)
  | returned

structure ClientCall (K V : Type) where
  call : Call K V
  sessionId : Int
  phase : Phase K V

structure Clients (K V : Type) where
  world : World K V
  calls : List (ClientCall K V)
  /-- Calls made and returned, in real time. -/
  events : List (Event Nat (Call K V × Int) (Response K V))
  /-- Critical sections, in the order they ran. -/
  log : List (Entry Nat (Call K V × Int) (Response K V))

/-- A step of one thread; calls go by their number. -/
inductive ClientStep (K V : Type) where
  | invoke (call : Call K V) (sessionId : Int)
  | allot (c : Nat)
  | enter (c : Nat) (draws : Draws)
  | ret (c : Nat)

namespace Clients

variable {K V : Type}

def init (sel : ReadResponseSelector) : Clients K V where
  world := World.init sel
  calls := []
  events := []
  log := []

variable [DecidableEq K]

/-- A step a call is not ready for changes nothing. -/
def step (s : Clients K V) : ClientStep K V → Clients K V
  | .invoke call sessionId =>
      { s with
        calls := s.calls ++ [⟨call, sessionId, .invoked⟩]
        events := s.events ++ [.inv s.calls.length (call, sessionId)] }
  | .allot c =>
      match s.calls[c]? with
      | some ⟨call, sessionId, .invoked⟩ =>
          { s with
            world := s.world.act (.create call sessionId)
            calls := s.calls.set c ⟨call, sessionId, .allotted (s.world.txCount + 1)⟩ }
      | _ => s
  | .enter c draws =>
      match s.calls[c]? with
      | some ⟨call, sessionId, .allotted txId⟩ =>
          match s.world.enterResponse txId draws with
          | none => s
          | some r =>
              { s with
                world := s.world.act (.enter txId draws)
                calls := s.calls.set c ⟨call, sessionId, .left r⟩
                log := s.log ++ [⟨c, (call, sessionId), r⟩] }
      | _ => s
  | .ret c =>
      match s.calls[c]? with
      | some ⟨call, sessionId, .left r⟩ =>
          { s with
            calls := s.calls.set c ⟨call, sessionId, .returned⟩
            events := s.events ++ [.ret c r] }
      | _ => s

def run (s : Clients K V) (steps : List (ClientStep K V)) : Clients K V := steps.foldl step s

end Clients

end MockDB
