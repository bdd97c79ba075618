import MockDB.Applications.Drivers
import MockDB.Proof.CoursewareServed
import MockDB.Proof.RejectedPost

/-!
# Courseware's driver

Of `do_op` there are seventy sequences of calls, in which neither of the violations shows that the
driver counts. What a narrow literal becomes depends on the platform, but all that matters
of a status is whether it compares as open; so two values stand for all.
-/

namespace MockDB

open App Interleaving

namespace RunCourseware

open CoursewareState

/-- A status that compares as open, or one that does not. -/
def mark (isOpen : Bool) : Json := if isOpen then .bool true else .number 0

/-- The literals, by which of them compare as open. -/
def marks (openIs closeIs : Bool) (literal : String) : Json :=
  mark (if literal = "open" then openIs else closeIs)

/-- A course, by whether it is open. -/
def markRecord (isOpen : Json → Bool) (r : Course × Json) : Course × Json :=
  (r.1, mark (isOpen r.2))

/-- A state, by which courses are open. -/
def marked (isOpen : Json → Bool) (st : CoursewareState) : CoursewareState :=
  { st with course := fun c => (st.course c).map (markRecord isOpen) }

variable {narrow markOf : String → Json} {isOpen : Json → Bool} {st : CoursewareState}

theorem marked_setRegistered (id : Int) (v : Json) :
    marked isOpen (st.setRegistered id v) = (marked isOpen st).setRegistered id v := by
  unfold CoursewareState.setRegistered marked
  cases hs : st.student id with
  | none => simp
  | some r => simp

theorem marked_removeStudent (id : Int) :
    marked isOpen (st.removeStudent id) = (marked isOpen st).removeStudent id := by
  unfold CoursewareState.removeStudent marked
  cases hs : st.students with
  | none => simp [hs]
  | some ids => simp

theorem marked_removeCourse (id : Int) :
    marked isOpen (st.removeCourse id) = (marked isOpen st).removeCourse id := by
  unfold CoursewareState.removeCourse marked
  cases hs : st.courses with
  | none => simp [hs]
  | some ids => simp

theorem marked_setStatus (id : Int) (v : Json) :
    marked isOpen (st.setStatus id v) = (marked isOpen st).setStatus id (mark (isOpen v)) := by
  unfold CoursewareState.setStatus marked
  cases hc : st.course id with
  | none => simp [hc]
  | some r =>
      simp only [hc, Option.map_some]
      congr 1
      funext c
      by_cases hid : c = id
      · subst hid
        rw [Function.update_self, Function.update_self]
        rfl
      · rw [Function.update_of_ne hid, Function.update_of_ne hid]

/-- The calls that read a status as open or not, and nothing else off it. -/
def ReadsMarks : CoursewareOp → Prop
  | .addCourse _ => False
  | _ => True

/-- A call on marked statuses does what it does on the statuses. -/
theorem serve_marked (st : CoursewareState)
    (hopen : ∀ v, (mark (isOpen v)).sameStatus (markOf "open")
      = v.sameStatus (narrow "open"))
    (hopens : markOf "open" = mark (isOpen (narrow "open")))
    (hcloses : markOf "close" = mark (isOpen (narrow "close"))) {op : CoursewareOp}
    (hop : ReadsMarks op) :
    (marked isOpen st).serve markOf op
      = ((st.serve narrow op).1, marked isOpen (st.serve narrow op).2) := by
  cases op with
  | addCourse c => exact hop.elim
  | addStudent s => rfl
  | deleteStudent s =>
      simp only [CoursewareState.serve, CoursewareState.step, marked_setRegistered,
        marked_removeStudent]
  | deleteCourse c =>
      simp only [CoursewareState.serve, CoursewareState.step, marked_setStatus,
        marked_removeCourse, hcloses]
  | registerStudent s =>
      simp only [CoursewareState.serve, CoursewareState.step, marked_setRegistered]
  | deregisterStudent s =>
      simp only [CoursewareState.serve, CoursewareState.step, marked_setRegistered]
  | openCourse c =>
      simp only [CoursewareState.serve, CoursewareState.step, marked_setStatus, hopens]
  | closeCourse c =>
      simp only [CoursewareState.serve, CoursewareState.step, marked_setStatus, hcloses]
  | enroll s c =>
      have hstudent : (marked isOpen st).student s = st.student s := rfl
      have hcourse : (marked isOpen st).course c
          = (st.course c).map (markRecord isOpen) := rfl
      have hlist : (marked isOpen st).studentsOf c = st.studentsOf c := rfl
      simp only [CoursewareState.serve, CoursewareState.step, CoursewareState.enroll]
      rw [hstudent, hcourse]
      cases st.student s with
      | none => rfl
      | some student =>
          cases st.course c with
          | none => rfl
          | some course =>
              simp only [Option.map_some, markRecord, hopen, hlist]
              split
              · split
                · rfl
                · rw [marked_setStatus, hcloses]
              · rfl
  | getEnrolledCourses s => rfl
  | getEnrolledStudents c => rfl
  | getEnrollments => rfl

theorem serveAll_marked (hopen : ∀ v, (mark (isOpen v)).sameStatus (markOf "open")
      = v.sameStatus (narrow "open"))
    (hopens : markOf "open" = mark (isOpen (narrow "open")))
    (hcloses : markOf "close" = mark (isOpen (narrow "close")))
    {order : List (Nat × CoursewareOp × Int)} (horder : ∀ c ∈ order, ReadsMarks c.2.1) :
    (serveAll (fun call => CoursewareState.serve markOf call.1) order (marked isOpen st)).1
      = (serveAll (fun call => CoursewareState.serve narrow call.1) order st).1 := by
  induction order generalizing st with
  | nil => rfl
  | cons c order ih =>
      obtain ⟨i, call⟩ := c
      have hcall := serve_marked st hopen hopens hcloses
        (horder (i, call) List.mem_cons_self)
      simp only [serveAll, hcall]
      rw [ih fun c hc => horder c (List.mem_cons_of_mem _ hc)]

/-- All there is to `do_op`: seventy sequences. -/
theorem results_serveAll : ∀ openIs closeIs : Bool,
    ∀ order ∈ interleavings ((List.range 3).map doOp),
      let r := results fun i n => (ofParty (serveAll
        (fun call => CoursewareState.serve (marks openIs closeIs) call.1) order
        (run (marks openIs closeIs) populate)).1 i)[n]?
      registerOverflow r = false ∧ removedRegister r = false
        ∧ (openIs = true → closeIs = false → r ∈ serialResults) := by
  decide

/-- What is in the store before the threads start. -/
theorem contents_populated (narrow : String → Json) (draws : Nat → Draws) :
    Strong (populated narrow .linearizable draws)
      ∧ contents CoursewareKey.name (populated narrow .linearizable draws)
        = (run narrow populate).toMap :=
  Courseware.contents_after narrow (populate.map fun op => ⟨op, 0, draws⟩)

/-- By which courses are open, the students and courses are as if the literals were marks. -/
theorem marked_populate : marked (fun v => v.sameStatus (narrow "open")) (run narrow populate)
    = run (marks ((narrow "open").sameStatus (narrow "open"))
        ((narrow "close").sameStatus (narrow "open"))) populate := by
  have hopens : marks ((narrow "open").sameStatus (narrow "open"))
      ((narrow "close").sameStatus (narrow "open")) "open"
      = mark ((narrow "open").sameStatus (narrow "open")) := by simp [marks]
  have hcourses : ∀ (isOpen : Json → Bool) (f : Int → Option (Course × Json)) (id : Int)
      (r : Course × Json), (fun c => (Function.update f id (some r) c).map (markRecord isOpen))
        = Function.update (fun c => (f c).map (markRecord isOpen)) id
          (some (markRecord isOpen r)) :=
    fun isOpen f id r => Function.comp_update (Option.map (markRecord isOpen)) f id (some r)
  simp [CoursewareState.run, populate, marked, step, addStudent, addCourse, setStatus, hcourses,
    hopens, empty, markRecord]

theorem doOp_eq_nil (i : Nat) (hi : i ∉ [1, 2]) : doOp i = [] := by
  match i, hi with
  | 0, _ => rfl
  | n + 3, _ => rfl

/-- The calls of `do_op` keep to what the lemmas above ask. -/
theorem doOp_calls : ∀ i, ∀ call ∈ doOp i, KeepsBooleans call.1 ∧ ReadsMarks call.1 := by
  intro i call hcall
  match i, hcall with
  | 1, hcall =>
      simp only [doOp, List.mem_cons, List.not_mem_nil, or_false] at hcall
      rcases hcall with rfl | rfl | rfl | rfl <;> exact ⟨trivial, trivial⟩
  | 2, hcall =>
      simp only [doOp, List.mem_cons, List.not_mem_nil, or_false] at hcall
      rcases hcall with rfl | rfl | rfl | rfl <;> exact ⟨trivial, trivial⟩
  | 0, hcall => exact absurd hcall List.not_mem_nil
  | n + 3, hcall => exact absurd hcall List.not_mem_nil

/-- The marks compare as what they stand for. -/
theorem sameStatus_mark (v w : Json) :
    (mark (v.sameStatus w)).sameStatus (mark (w.sameStatus w)) = v.sameStatus w := by
  cases hw : w.sameStatus w with
  | true => cases v.sameStatus w <;> rfl
  | false =>
      -- then nothing compares as equal to `w`
      have hv : v.sameStatus w = false := by
        cases w <;> simp_all [Json.sameStatus]
      rw [hv]
      rfl

theorem doOp_results {draws : Nat → Draws} {turns : List (Nat × Draws)}
    (hfinished : Finished (iteration narrow .linearizable draws turns) doOp) :
    let r := results (replyOf (iteration narrow .linearizable draws turns))
    registerOverflow r = false ∧ removedRegister r = false
      ∧ ((narrow "open").sameStatus (narrow "open") = true →
        (narrow "close").sameStatus (narrow "open") = false → r ∈ serialResults) := by
  intro r
  obtain ⟨hw, hmap⟩ := contents_populated narrow draws
  have hregistered : (run narrow populate).Registered :=
    Registered.run (by simp [populate, KeepsBooleans])
  obtain ⟨order, hcalls, horder, hreplies⟩ := (runsOnMap_strong
    CoursewareKey.name_injective).exists_served hw hregistered hmap (fun _ _ _ => trivial)
    (fun i call hcall st hst => ⟨hst.serve (doOp_calls i call hcall).1,
      hst.respond call.1 ▸ Courseware.onMap_reply call.1 call.2⟩) hfinished 3
    fun i hi => doOp_eq_nil i (by simp; omega)
  have hmarks := results_serveAll ((narrow "open").sameStatus (narrow "open"))
    ((narrow "close").sameStatus (narrow "open")) order horder
  have hsame : (serveAll (fun call => CoursewareState.serve (marks
        ((narrow "open").sameStatus (narrow "open"))
        ((narrow "close").sameStatus (narrow "open"))) call.1) order
        (marked (fun v => v.sameStatus (narrow "open")) (run narrow populate))).1
      = (serveAll (fun call => CoursewareState.serve narrow call.1) order
        (run narrow populate)).1 := by
    refine serveAll_marked (fun v => ?_) ?_ ?_ fun c hc =>
      (doOp_calls c.1 c.2 (hcalls.mem hc)).2
    · simpa [marks] using sameStatus_mark v (narrow "open")
    · simp [marks]
    · simp [marks]
  rw [← marked_populate, hsame] at hmarks
  rw [show r = results (replyOf (iteration narrow .linearizable draws turns)) from rfl]
  rw [show replyOf (iteration narrow .linearizable draws turns) = _ from hreplies]
  exact hmarks

/-- Thread 2 enrolls before it sees that thread 1 has, and thread 1 before it sees that thread 2
has deleted the course, which it still finds in the list. -/
def overbooking : List (Nat × Draws) :=
  List.replicate 8 (1, newestDraws) ++ List.replicate 3 (2, newestDraws) ++ (2, zeroDraws)
    :: List.replicate 10 (2, newestDraws) ++ List.replicate 2 (1, newestDraws)
    ++ (1, nthDraws 1) :: List.replicate 3 (1, newestDraws) ++ List.replicate 7 (2, newestDraws)
    ++ List.replicate 2 (1, newestDraws) ++ (1, nthDraws 1) :: List.replicate 6 (1, newestDraws)
    ++ (1, nthDraws 2) :: (1, nthDraws 1) :: List.replicate 3 (1, newestDraws)
    ++ List.replicate 3 (2, newestDraws)

/-- Thread 1 is over before thread 2 starts. -/
def oneAfterOther : List (Nat × Draws) :=
  List.replicate 28 (1, zeroDraws) ++ List.replicate 24 (2, zeroDraws)

/--
**The driver's counters of violations.** On a linearizable store, whatever a narrow literal becomes,
in any interleaving of the threads of `do_op` that has come to its end, nothing is counted. If
the literal of an open course is told from that of a closed one, the results are one of
`serial_results`. On a causal store both violations may be counted at once.
-/
theorem no_violation :
    (∀ (narrow : String → Json) (draws : Nat → Draws) (turns : List (Nat × Draws)),
        Finished (iteration narrow .linearizable draws turns) doOp →
        let r := results (replyOf (iteration narrow .linearizable draws turns))
        registerOverflow r = false ∧ removedRegister r = false
          ∧ ((narrow "open").sameStatus (narrow "open") = true →
            (narrow "close").sameStatus (narrow "open") = false → r ∈ serialResults))
      ∧ ∃ (narrow : String → Json) (draws : Nat → Draws) (turns : List (Nat × Draws)),
        Finished (iteration narrow .causal draws turns) doOp
          ∧ let r := results (replyOf (iteration narrow .causal draws turns))
            registerOverflow r = true ∧ removedRegister r = true := by
  constructor
  · exact fun narrow draws turns hfinished => doOp_results hfinished
  · refine ⟨Json.string, fun _ => zeroDraws, overbooking, ?_, by decide +kernel⟩
    exact finished_of [1, 2] (by decide) doOp_eq_nil (by decide +kernel)

theorem no_violation_oneAfterOther :
    let r := results (replyOf (iteration Json.string .linearizable (fun _ => zeroDraws)
      oneAfterOther))
    registerOverflow r = false ∧ removedRegister r = false
      ∧ ((Json.string "open").sameStatus (Json.string "open") = true →
        (Json.string "close").sameStatus (Json.string "open") = false → r ∈ serialResults) :=
  no_violation.1 Json.string (fun _ => zeroDraws) oneAfterOther
    (finished_of [1, 2] (by decide) doOp_eq_nil (by decide +kernel))

end RunCourseware

end MockDB
