import MockDB.Applications.Courseware
import MockDB.Applications.ShoppingCart
import MockDB.Applications.Threads
import MockDB.Applications.TreiberStack
import MockDB.Applications.Twitter
import Mathlib.Algebra.GroupWithZero.Nat
import Mathlib.Algebra.Ring.Int.Defs

/-!
# The drivers

Each application has a driver that runs a few threads on a store of the selector it is given,
and looks at what they were returned for signs that the store is not linearizable. Threads go
by their `t_id`, from one on. In the fixed runs of `do_op` all their operations stand between
`tx_start` and `tx_end`. The stack has no such calls; its threads come between any two uses that
another one makes of the store.
-/

namespace MockDB

open App

/-- Of the versions of a key the one that has `k` before it, or else the newest. -/
def nthDraws (k : Nat) : Draws := fun n => ⟨min k n, by omega⟩

/-! ## `run_shopping_cart.cpp` -/

namespace RunShoppingCart

open ShoppingCart

/-- The items that `populate_shopping_cart` adds to the store. -/
def items : List Item := [shoes, book, umbrella, ball, bat, table]

/-- The id of the user, whose name is `dip`. -/
def userId : Int := 1

/-- `populate_shopping_cart` on a new store, and the `add_item` that follows. -/
def populated (sel : ReadResponseSelector) (draws : Nat → Draws) : World String Json :=
  let w := (run (CartKey.name userId) (populate items) (fun _ => zeroDraws)
    (World.init sel)).2
  let w := w.put "user:1:name" (.string "dip") defaultSession
  (run (CartKey.name userId) (addItem shoes defaultSession) draws w).2

/-- `do_op`. -/
def doOp : Nat → List (CartRequest × Int)
  | 1 => [(.change (.removeItem shoes), 1), (.getCartList, 1), (.getCartList, 1)]
  | 2 => [(.change (.addItems shoes 3), 2), (.getCartList, 2), (.getCartList, 2)]
  | _ => []

/-- The threads of `run_iteration` after some turns. -/
def iteration (sel : ReadResponseSelector) (draws : Nat → Draws) (turns : List (Nat × Draws)) :
    Mutex.Pool (World String Json) (App CartKey CartReply) CartReply :=
  threads (CartKey.name userId) (populated sel draws)
    (allInTx fun i => (doOp i).map fun call => call.1.reply call.2) turns

/-- `qt_x`, the quantity of the first item of a list. -/
def firstQuantity : Option CartReply → Int
  | some (.cartList ((_, quantity) :: _)) => quantity
  | _ => 0

/-- `results`, by the replies of the threads. -/
def results (reply : Nat → Nat → Option CartReply) : List Int :=
  [firstQuantity (reply 1 1), firstQuantity (reply 1 2), firstQuantity (reply 2 1),
    firstQuantity (reply 2 2)]

/-- `serial_results`. -/
def serialResults : List (List Int) :=
  [[0, 0, 0, 0], [0, 0, 4, 0], [0, 0, 4, 4], [3, 3, 3, 3], [0, 0, 3, 3], [0, 3, 3, 3]]

/-- `reappear_results`. -/
def reappearResults : List (List Int) := [[0, 4, 4, 4], [4, 4, 4, 4]]

end RunShoppingCart

/-! ## `run_twitter.cpp` -/

namespace RunTwitter

def a : User := ⟨1, "a"⟩
def b : User := ⟨2, "b"⟩
def c : User := ⟨3, "c"⟩

/-- `tweet(1, "hello", 1)`. -/
def hello : Tweet := ⟨1, "hello", 1, 0, 0⟩

/-- `tweet(2, "world", 2)`. -/
def world : Tweet := ⟨2, "world", 2, 0, 0⟩

/-- `populate_twitter` on a new store. -/
def populated (sort : TweetSort) (sel : ReadResponseSelector) (draws : Nat → Draws) :
    World String Json :=
  runAll TwitterKey.name (World.init sel)
    ([a, b, c].map fun u => ((TwitterOp.addUser u).program sort, draws))

/-- `do_op`. -/
def doOp : Nat → List TwitterOp
  | 1 => [.publishTweet a hello, .publishTweet a world]
  | 2 => [.follow b a, .getNewsfeed b]
  | 3 => [.getTimeline a 3]
  | _ => []

/-- The threads of `run_iteration` after some turns. -/
def iteration (sort : TweetSort) (sel : ReadResponseSelector) (draws : Nat → Draws)
    (turns : List (Nat × Draws)) :
    Mutex.Pool (World String Json) (App TwitterKey (List Tweet)) (List Tweet) :=
  threads TwitterKey.name (populated sort sel draws)
    (allInTx fun i => (doOp i).map fun op => op.tweets sort) turns

/-- The violation that `main` counts: the timeline of `a` has more tweets than the newsfeed of
its follower. -/
def violation (reply : Nat → Nat → Option (List Tweet)) : Bool :=
  let timeline := (reply 3 0).getD []
  let newsfeed := (reply 2 1).getD []
  timeline.length > newsfeed.length

end RunTwitter

/-! ## `run_courseware.cpp` -/

namespace RunCourseware

def cs101 : Course := ⟨1, "Introduction to Computer Science", "CS", "close", 1⟩
def hs201 : Course := ⟨2, "Happiness and Well Being", "HS", "close", 2⟩
def ph301 : Course := ⟨3, "Meaning of Life", "PH", "close", 1⟩

def dk : Student := ⟨1, "dip", true, "1"⟩
def jv : Student := ⟨2, "JV", true, "2"⟩
def rb : Student := ⟨3, "RB", true, "3"⟩

/-- The calls of `populate_courseware`, all by session 0. -/
def populate : List CoursewareOp :=
  [.addStudent dk, .addStudent jv, .addStudent rb, .addCourse cs101, .openCourse cs101.id,
    .addCourse hs201, .openCourse hs201.id, .addCourse ph301, .openCourse ph301.id]

variable (narrow : String → Json)

/-- `populate_courseware` on a new store. -/
def populated (sel : ReadResponseSelector) (draws : Nat → Draws) : World String Json :=
  runAll CoursewareKey.name (World.init sel) (populate.map fun op => (op.program narrow 0, draws))

/-- `do_op`. -/
def doOp : Nat → List (CoursewareOp × Int)
  | 1 => [(.enroll dk.id cs101.id, 1), (.getEnrollments, 1), (.enroll dk.id hs201.id, 1),
      (.getEnrollments, 1)]
  | 2 => [(.enroll jv.id cs101.id, 2), (.getEnrollments, 2), (.deleteCourse hs201, 2),
      (.getEnrolledStudents hs201.id, 2)]
  | _ => []

/-- The threads of `run_iteration` after some turns. -/
def iteration (sel : ReadResponseSelector) (draws : Nat → Draws) (turns : List (Nat × Draws)) :
    Mutex.Pool (World String Json) (App CoursewareKey CoursewareReply) CoursewareReply :=
  threads CoursewareKey.name (populated narrow sel draws)
    (allInTx fun i => (doOp i).map fun call => call.1.reply narrow call.2) turns

/-- The map that a `get_enrollments` returned. -/
def enrollments : Option CoursewareReply → UnorderedMap Int (List Int)
  | some (.enrollments enrollments) => enrollments
  | _ => ∅

/-- The list that a `get_enrolled_students` returned. -/
def students : Option CoursewareReply → List Int
  | some (.ids ids) => ids
  | _ => []

/-- `1` if the student is among those of `cs101`. -/
def inCs101 (courses : UnorderedMap Int (List Int)) (studentId : Int) : Nat :=
  if studentId ∈ (courses.lookup cs101.id).getD [] then 1 else 0

/-- How often `DK` is enrolled in any course. -/
def countDk (courses : UnorderedMap Int (List Int)) : Nat :=
  (courses.entries.map fun e => e.2.count dk.id).sum

/-- `results`, by the replies of the threads. -/
def results (reply : Nat → Nat → Option CoursewareReply) : Nat × Nat × Nat × Nat :=
  (inCs101 (enrollments (reply 1 1)) dk.id, countDk (enrollments (reply 1 3)),
    inCs101 (enrollments (reply 2 1)) jv.id, (students (reply 2 3)).count dk.id)

/-- `serial_results`. -/
def serialResults : List (Nat × Nat × Nat × Nat) :=
  [(1, 2, 0, 0), (0, 1, 1, 0), (0, 0, 1, 0), (1, 1, 0, 0)]

/-- `register_overflow`: both have found themselves in a course for one. -/
def registerOverflow (r : Nat × Nat × Nat × Nat) : Bool := r.1 = 1 ∧ r.2.2.1 = 1

/-- `removed_register`: one is still in the course that has been deleted. -/
def removedRegister (r : Nat × Nat × Nat × Nat) : Bool :=
  (r.1 = 0 ∧ r.2.1 = 1 ∧ r.2.2.2 = 1) ∨ (r.2.1 = 2 ∧ r.2.2.2 = 1)

end RunCourseware

/-! ## `run_stack.cpp` -/

namespace RunStack

/-- The calls of `do_operations` by thread `t`, which makes a `push` where its row has a `1`. -/
def doOperations (t : Digit) (row : List Bool) : List (StackOp Int) :=
  row.zipIdx.map fun (isPush, i) => if isPush then .push (t.1 * 10 + (i + 1)) else .pop

/-- The threads of `run_iteration` under way. -/
structure Iteration where
  stack : Stack Int
  /-- The calls that a thread has not made yet. -/
  todo : Digit → List (StackOp Int)
  /-- `pop_values`. -/
  popValues : Digit → List Int

namespace Iteration

def init (sel : ReadResponseSelector) (operations : Digit → List Bool) : Iteration where
  stack := Stack.init sel
  todo t := doOperations t (operations t)
  popValues _ := []

/-- What a call that returns adds to `pop_values`. -/
def popped : StackRet Int → List Int
  | .popped val => [val.getD 0]
  | _ => []

/-- A thread makes its next call, goes on with the one it is in, or returns from it. -/
def turn (d : Iteration) (t : Digit) (draws : Draws) : Iteration :=
  match d.stack.threads t with
  | none =>
      match d.todo t with
      | [] => d
      | op :: rest =>
          { d with
            stack := d.stack.step (.invoke t op)
            todo := Function.update d.todo t rest }
  | some ⟨_, _, .done ret⟩ =>
      { d with
        stack := d.stack.step (.ret t)
        popValues := Function.update d.popValues t (d.popValues t ++ popped ret) }
  | some _ => { d with stack := d.stack.step (.move t draws) }

def run (d : Iteration) (turns : List (Digit × Draws)) : Iteration :=
  turns.foldl (fun d turn => d.turn turn.1 turn.2) d

end Iteration

/-- The threads that `run_iteration` starts. -/
def sessions : List Digit := [⟨1, by decide⟩, ⟨2, by decide⟩, ⟨3, by decide⟩]

/-- `run_iteration` has joined its threads. -/
def joined (d : Iteration) : Bool :=
  sessions.all fun t => (d.todo t).isEmpty && (d.stack.threads t).isNone

/-- `operations` of the fixed run. -/
def operations (t : Digit) : List Bool :=
  if t.1 = 1 then [true, true, false]
  else if t.1 = 2 then [false, true, false]
  else if t.1 = 3 then [false, false]
  else []

/-- The loop that ends `do_operations`: what thread `t` popped, from place `(t - 1) * 2` on. -/
def writeResults (t : Digit) (popValues results : List Int) : List Int :=
  popValues.zipIdx.foldl (fun results pop => results.set ((t.1 - 1).toNat * 2 + pop.2) pop.1)
    results

/-- `results` of the fixed run, the only one that writes any. No thread of it writes to a place of
another one, so it does not matter which comes first. -/
def results (d : Iteration) : List Int :=
  sessions.foldl (fun results t => writeResults t (d.popValues t) results) (List.replicate 6 0)

/-- The loop of `check_pop_valid`, which looks for a value that it has found before. -/
def repeatValue : List Int → List Int → Bool
  | [], _ => false
  | e :: rest, uniqueVals =>
      if e ≠ 0 then e ∈ uniqueVals ∨ repeatValue rest (e :: uniqueVals)
      else repeatValue rest uniqueVals

end RunStack

end MockDB
