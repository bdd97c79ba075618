import MockDB.Proof.CoursewareCalls

/-!
# What `enroll` makes of a registration

Every call that writes a student's record leaves a Boolean under `registered`, but for
`deregister_student` and with it `delete_student`, which leave the number 0. `enroll` reads
a Boolean there. So it throws when it comes to look at the record of a student withdrawn
last, and only then; otherwise it returns, and it enrolls nobody who is not registered.
-/

namespace MockDB

/-- What a call does to the registration of a student. -/
inductive Registration where
  | added (isRegistered : Bool)
  | registered
  | withdrawn
  deriving DecidableEq

namespace Registration

/-- Whether it leaves the student registered. -/
def leavesRegistered : Registration → Bool
  | added isRegistered => isRegistered
  | registered => true
  | withdrawn => false

/-- What it leaves in the student's record. -/
def value : Registration → Json
  | added isRegistered => .bool isRegistered
  | registered => .bool true
  | withdrawn => .number 0

/-- Only a withdrawal leaves what is no Boolean. -/
theorem asBool_value (action : Registration) :
    action.value.asBool = none ↔ action = .withdrawn := by
  cases action <;> simp [value, Json.asBool]

/-- A true Boolean is left just where the student is registered. -/
theorem leavesRegistered_of_value {action : Registration} (h : action.value = .bool true) :
    action.leavesRegistered = true := by
  cases action with
  | added isRegistered => exact Json.bool.inj h
  | registered => rfl
  | withdrawn => cases h

/-- What is in the record afterwards. Only an addition makes a record. -/
def recorded : Option Registration → Option Json → Option Json
  | none, old => old
  | some (added isRegistered), _ => some (added isRegistered).value
  | some action, old => old.map fun _ => action.value

end Registration

/-- What a call does to the registration of student `s`, if anything. -/
def CoursewareOp.registration (s : Int) : CoursewareOp → Option Registration
  | addStudent student => if student.id = s then some (.added student.registered) else none
  | deleteStudent student => if student.id = s then some .withdrawn else none
  | registerStudent id => if id = s then some .registered else none
  | deregisterStudent id => if id = s then some .withdrawn else none
  | _ => none

namespace CoursewareState

section Step

variable (st : CoursewareState) (narrow : String → Json)

theorem registered_setRegistered (id s : Int) (action : Registration)
    (haction : ∀ old, Registration.recorded (some action) old = old.map fun _ => action.value) :
    ((st.setRegistered id action.value).student s).map Prod.snd
      = Registration.recorded (if id = s then some action else none)
          ((st.student s).map Prod.snd) := by
  rw [student_setRegistered]
  by_cases h : id = s
  · subst h
    rw [if_pos rfl, Function.update_self, haction, Option.map_map, Option.map_map]
    rfl
  · rw [if_neg h, Function.update_of_ne (Ne.symm h)]
    rfl

theorem student_enroll (s c : Int) : (st.enroll narrow s c).student = st.student := by
  rcases enroll_cases narrow st s c with ⟨-, heq⟩ | ⟨-, heq | heq⟩
  · rw [heq]; rfl
  · rw [heq]
  · rw [heq, student_setStatus]

/-- A call does to a record what it does to the registration. -/
theorem registered_step (op : CoursewareOp) (s : Int) :
    ((st.step narrow op).student s).map Prod.snd
      = Registration.recorded (op.registration s) ((st.student s).map Prod.snd) := by
  cases op with
  | addStudent student =>
      show (Function.update st.student student.id _ s).map Prod.snd
        = Registration.recorded (if student.id = s then _ else none) _
      by_cases h : student.id = s
      · subst h
        rw [if_pos rfl, Function.update_self]
        rfl
      · rw [if_neg h, Function.update_of_ne (Ne.symm h)]
        rfl
  | deleteStudent student =>
      refine Eq.trans ?_ (st.registered_setRegistered student.id s .withdrawn fun _ => rfl)
      exact congrArg (Option.map Prod.snd) (congrFun (student_removeStudent _ _) s)
  | registerStudent id => exact st.registered_setRegistered id s .registered fun _ => rfl
  | deregisterStudent id => exact st.registered_setRegistered id s .withdrawn fun _ => rfl
  | deleteCourse c =>
      show (((st.setStatus c.id (narrow "close")).removeCourse c.id).student s).map Prod.snd = _
      rw [student_removeCourse, student_setStatus]
      rfl
  | openCourse c =>
      show ((st.setStatus c (narrow "open")).student s).map Prod.snd = _
      rw [student_setStatus]
      rfl
  | closeCourse c =>
      show ((st.setStatus c (narrow "close")).student s).map Prod.snd = _
      rw [student_setStatus]
      rfl
  | enroll s' c =>
      show ((st.enroll narrow s' c).student s).map Prod.snd = _
      rw [student_enroll]
      rfl
  | _ => rfl

/-- A new status makes no record. -/
theorem course_setStatus_eq_none (id : Int) (v : Json) (c : Int) :
    (st.setStatus id v).course c = none ↔ st.course c = none := by
  rw [course_setStatus]
  by_cases h : c = id
  · subst h; rw [Function.update_self, Option.map_eq_none_iff]
  · rw [Function.update_of_ne h]

theorem course_enroll_eq_none (s id c : Int) :
    (st.enroll narrow s id).course c = none ↔ st.course c = none := by
  rcases enroll_cases narrow st s id with ⟨-, heq⟩ | ⟨-, heq | heq⟩
  · rw [heq]; exact Iff.rfl
  · rw [heq]
  · rw [heq]; exact st.course_setStatus_eq_none id _ c

/-- Only `add_course` makes a record of a course, and nothing removes one. -/
theorem course_step_eq_none (op : CoursewareOp) (c : Int) :
    (st.step narrow op).course c = none ↔ st.course c = none ∧ op.courseAdded ≠ some c := by
  -- a call that adds no course
  have none_added : ∀ {st' : CoursewareState}, (st'.course c = none ↔ st.course c = none) →
      op.courseAdded = none →
      (st'.course c = none ↔ st.course c = none ∧ op.courseAdded ≠ some c) := by
    intro st' hiff hadd
    rw [hiff, hadd]
    exact (and_iff_left nofun).symm
  cases op with
  | addStudent student => exact none_added Iff.rfl rfl
  | deleteStudent student =>
      refine none_added ?_ rfl
      show ((st.setRegistered student.id _).removeStudent student.id).course c = none ↔ _
      rw [course_removeStudent, course_setRegistered]
  | addCourse course =>
      show Function.update st.course course.id _ c = none ↔ _ ∧ some course.id ≠ some c
      by_cases h : c = course.id
      · subst h
        rw [Function.update_self]
        exact iff_of_false (Option.some_ne_none _) fun hand => hand.2 rfl
      · rw [Function.update_of_ne h]
        exact (and_iff_left fun heq => h (Option.some.inj heq).symm).symm
  | deleteCourse course =>
      refine none_added ?_ rfl
      show ((st.setStatus course.id _).removeCourse course.id).course c = none ↔ _
      rw [course_removeCourse, course_setStatus_eq_none]
  | registerStudent id =>
      exact none_added (by rw [CoursewareState.step, course_setRegistered]) rfl
  | deregisterStudent id =>
      exact none_added (by rw [CoursewareState.step, course_setRegistered]) rfl
  | openCourse id => exact none_added (st.course_setStatus_eq_none id _ c) rfl
  | closeCourse id => exact none_added (st.course_setStatus_eq_none id _ c) rfl
  | enroll s id => exact none_added (st.course_enroll_eq_none narrow s id c) rfl
  | getEnrolledCourses s => exact none_added Iff.rfl rfl
  | getEnrolledStudents id => exact none_added Iff.rfl rfl
  | getEnrollments => exact none_added Iff.rfl rfl

end Step

/-! ## Any calls -/

/-- The latest action of these calls on the registration of student `s`. -/
def lastRegistration (s : Int) (ops : List CoursewareOp) : Option Registration :=
  (ops.filterMap fun op => op.registration s).getLast?

theorem lastRegistration_concat (s : Int) (ops : List CoursewareOp) (op : CoursewareOp) :
    lastRegistration s (ops ++ [op])
      = (op.registration s).or (lastRegistration s ops) := by
  unfold lastRegistration
  rw [List.filterMap_append, List.getLast?_append]
  cases h : op.registration s <;> simp [h]

/-- What adds a student acts on its registration, and nothing else adds one. -/
theorem studentAdded_iff (op : CoursewareOp) (s : Int) :
    op.studentAdded = some s ↔ ∃ isRegistered, op.registration s = some (.added isRegistered) := by
  cases op with
  | addStudent student =>
      show some student.id = some s ↔ ∃ b, (if student.id = s then _ else none) = some _
      by_cases h : student.id = s <;> simp [h]
  | _ => simp [CoursewareOp.studentAdded, CoursewareOp.registration]

theorem lastRegistration_of_added {s : Int} {ops : List CoursewareOp}
    (h : s ∈ ops.filterMap CoursewareOp.studentAdded) :
    ∃ action, lastRegistration s ops = some action := by
  obtain ⟨op, hop, hadded⟩ := List.mem_filterMap.mp h
  obtain ⟨isRegistered, hreg⟩ := (studentAdded_iff op s).mp hadded
  have hmem := List.mem_filterMap.mpr ⟨op, hop, hreg⟩
  exact ⟨_, List.getLast?_eq_some_getLast (List.ne_nil_of_mem hmem)⟩

/-- **A record has what the latest action on its student's registration leaves.** -/
theorem registered_run (narrow : String → Json) (ops : List CoursewareOp) (s : Int) :
    ((run narrow ops).student s).map Prod.snd
      = if s ∈ ops.filterMap CoursewareOp.studentAdded
        then (lastRegistration s ops).map Registration.value else none := by
  induction ops using List.reverseRecOn with
  | nil => rfl
  | append_singleton ops op ih =>
      have hmem : s ∈ (ops ++ [op]).filterMap CoursewareOp.studentAdded
          ↔ s ∈ ops.filterMap CoursewareOp.studentAdded ∨ op.studentAdded = some s := by
        rw [List.filterMap_append, List.mem_append]
        simp [List.mem_filterMap]
      rw [run_concat, registered_step, ih, lastRegistration_concat, if_congr hmem rfl rfl,
        if_congr (or_congr_right (studentAdded_iff op s)) rfl rfl]
      cases hreg : op.registration s with
      | none => simp [Registration.recorded]
      | some action =>
          cases action with
          | added isRegistered => simp [Registration.recorded]
          | _ =>
              -- what is no addition rewrites a record if there is one
              by_cases hadded : s ∈ ops.filterMap CoursewareOp.studentAdded
              · obtain ⟨last, hlast⟩ := lastRegistration_of_added hadded
                simp [Registration.recorded, hadded, hlast]
              · simp [Registration.recorded, hadded]

theorem course_run (narrow : String → Json) (ops : List CoursewareOp) (c : Int) :
    (run narrow ops).course c = none ↔ c ∉ ops.filterMap CoursewareOp.courseAdded := by
  induction ops using List.reverseRecOn with
  | nil => exact iff_of_true rfl List.not_mem_nil
  | append_singleton ops op ih =>
      rw [run_concat, course_step_eq_none, ih, List.filterMap_append, List.mem_append, not_or]
      simp [List.mem_filterMap]

end CoursewareState

namespace Courseware

open App CoursewareState

/-- The latest action of these calls on the registration of student `s` left it registered. -/
def LeftRegistered (calls : List CoursewareCall) (s : Int) : Prop :=
  ∃ action, lastRegistration s (calls.map CoursewareCall.op) = some action
    ∧ action.leavesRegistered = true

/-- What `enroll` is meant to be, after these calls. -/
structure EnrollsSafely (narrow : String → Json) (calls : List CoursewareCall)
    (s c sessionId : Int) (draws : Nat → Draws) : Prop where
  /-- It does not throw. -/
  returns : (App.run CoursewareKey.name (enroll narrow s c sessionId) draws
      (after narrow calls)).1 = .ok ()
  /-- It adds to the enrollments only where the student was left registered. -/
  enrolls : ∀ key, (∃ id, key = .enrollmentStudent id ∨ key = .enrollmentCourse id) →
    contents CoursewareKey.name (App.run CoursewareKey.name (enroll narrow s c sessionId) draws
        (after narrow calls)).2 key ≠ contents CoursewareKey.name (after narrow calls) key →
    LeftRegistered calls s
  /-- Elsewhere it leaves every value as it was. -/
  leaves : ¬ LeftRegistered calls s →
    (App.run CoursewareKey.name (enroll narrow s c sessionId) draws (after narrow calls)).2.latest
      = (after narrow calls).latest

section After

variable (narrow : String → Json) (calls : List CoursewareCall) (s c sessionId : Int)
  (draws : Nat → Draws)

/-- A record has what the latest action on its student's registration left. -/
theorem registered_state : ((state narrow calls).student s).map Prod.snd
    = if s ∈ calls.filterMap fun call => call.op.studentAdded
      then (lastRegistration s (calls.map CoursewareCall.op)).map Registration.value else none := by
  have h := registered_run narrow (calls.map CoursewareCall.op) s
  rwa [List.filterMap_map] at h

theorem course_state : (state narrow calls).course c = none
    ↔ c ∉ calls.filterMap fun call => call.op.courseAdded := by
  have h := course_run narrow (calls.map CoursewareCall.op) c
  rwa [List.filterMap_map] at h

/-- Only a Boolean that is true enrolls, or closes a full course. -/
theorem enroll_eq_self {st : CoursewareState}
    (h : (st.student s).map Prod.snd ≠ some (.bool true)) : st.enroll narrow s c = st := by
  unfold CoursewareState.enroll
  cases hs : st.student s with
  | none => rfl
  | some student =>
      cases st.course c with
      | none => rfl
      | some course =>
          refine if_neg fun hadmitted => h ?_
          rw [hs, Option.map_some, asBool_eq_true.mp hadmitted.1]

/-- The record has a true Boolean only if the latest action left the student registered. -/
theorem leftRegistered_of_record
    (h : ((state narrow calls).student s).map Prod.snd = some (.bool true)) :
    LeftRegistered calls s := by
  rw [registered_state] at h
  split at h
  · obtain ⟨action, hlast, hvalue⟩ := Option.map_eq_some_iff.mp h
    exact ⟨action, hlast, Registration.leavesRegistered_of_value hvalue⟩
  · exact (Option.some_ne_none _ h.symm).elim

theorem enrollResult_of_none {st : CoursewareState}
    (h : st.student s = none ∨ st.course c = none) : st.enrollResult s c = .ok () := by
  unfold enrollResult
  rcases h with hs | hc
  · rw [hs]
  · rw [hc]; cases st.student s <;> rfl

theorem enrollResult_of_some {st : CoursewareState} {student : Student × Json}
    {course : Course × Json} (hs : st.student s = some student) (hc : st.course c = some course) :
    st.enrollResult s c = if student.2.asBool = none then .error .json else .ok () := by
  rw [enrollResult, hs, hc]

/-- `enroll` throws where it reads the number that a withdrawal stored. -/
theorem enrollResult_state_iff : (state narrow calls).enrollResult s c = .ok ()
    ↔ (s ∈ calls.filterMap (fun call => call.op.studentAdded) →
        c ∈ calls.filterMap (fun call => call.op.courseAdded) →
        lastRegistration s (calls.map CoursewareCall.op) ≠ some .withdrawn) := by
  have hrecord := registered_state narrow calls s
  have hcourse := course_state narrow calls c
  cases hs : (state narrow calls).student s with
  | none =>
      refine iff_of_true (enrollResult_of_none s c (Or.inl hs)) fun hadded => ?_
      rw [hs, if_pos hadded] at hrecord
      rw [Option.map_eq_none_iff.mp hrecord.symm]
      exact fun _ => (Option.some_ne_none _).symm
  | some student =>
      cases hc : (state narrow calls).course c with
      | none =>
          exact iff_of_true (enrollResult_of_none s c (Or.inr hc))
            fun _ hadded => (hcourse.mp hc hadded).elim
      | some course =>
          have hcadded : c ∈ calls.filterMap fun call => call.op.courseAdded :=
            Classical.not_not.mp fun hnot =>
              Option.some_ne_none _ (hc.symm.trans (hcourse.mpr hnot))
          rw [hs] at hrecord
          by_cases hadded : s ∈ calls.filterMap fun call => call.op.studentAdded
          · rw [if_pos hadded] at hrecord
            obtain ⟨action, hlast, hvalue⟩ := Option.map_eq_some_iff.mp hrecord.symm
            rw [enrollResult_of_some s c hs hc, ← hvalue, hlast,
              if_congr action.asBool_value rfl rfl]
            by_cases hwithdrawn : action = .withdrawn
            · rw [if_pos hwithdrawn]
              exact iff_of_false nofun fun h => h hadded hcadded (congrArg some hwithdrawn)
            · rw [if_neg hwithdrawn]
              exact iff_of_true rfl fun _ _ heq => hwithdrawn (Option.some.inj heq)
          · rw [if_neg hadded] at hrecord
            exact (Option.some_ne_none _ hrecord).elim

/-- **`enroll` returns, and respects registration, just if it does not come upon a withdrawn
student**: one that was added, whose latest registration action withdrew it, and a course that
was added to look at next to it. -/
theorem enroll_safe_iff : EnrollsSafely narrow calls s c sessionId draws
    ↔ (s ∈ calls.filterMap (fun call => call.op.studentAdded) →
        c ∈ calls.filterMap (fun call => call.op.courseAdded) →
        lastRegistration s (calls.map CoursewareCall.op) ≠ some .withdrawn) := by
  obtain ⟨hstrong, hcontents⟩ := contents_after narrow calls
  obtain ⟨hresult, hmap, -⟩ := run_onMap CoursewareKey.name_injective
    (enroll narrow s c sessionId) draws hstrong
  rw [hcontents, onMap_enroll] at hresult hmap
  have hsame : ¬ LeftRegistered calls s →
      contents CoursewareKey.name (App.run CoursewareKey.name (enroll narrow s c sessionId) draws
        (after narrow calls)).2 = contents CoursewareKey.name (after narrow calls) := by
    intro hnot
    rw [hmap, enroll_eq_self narrow s c
      fun hrecord => hnot (leftRegistered_of_record narrow calls s hrecord), hcontents]
  rw [← enrollResult_state_iff]
  constructor
  · intro h
    exact hresult.symm.trans h.returns
  · intro h
    refine ⟨hresult.trans h, fun key _ hne => ?_, fun hnot => ?_⟩
    · exact Classical.not_not.mp fun hnot => hne (congrFun (hsame hnot) key)
    · exact (run_latest_iff _ _ hstrong).mpr (hsame hnot)

end After

/-- A student is withdrawn, and a course is there to enroll in. -/
def withdrawnStudent : List CoursewareCall :=
  [⟨.addStudent ⟨7, "Grace", true, "r7"⟩, 0, fun _ => zeroDraws⟩,
    ⟨.addCourse ⟨1, "Logic", "CS", "open", 1⟩, 0, fun _ => zeroDraws⟩,
    ⟨.deregisterStudent 7, 0, fun _ => zeroDraws⟩]

/-- To enroll a student that was withdrawn throws. -/
theorem enroll_safe_violated :
    ¬ EnrollsSafely Json.string withdrawnStudent 7 1 0 (fun _ => zeroDraws) := by
  intro h
  obtain ⟨hstrong, hcontents⟩ := contents_after Json.string withdrawnStudent
  have hresult := (run_onMap CoursewareKey.name_injective (enroll Json.string 7 1 0)
    (fun _ => zeroDraws) hstrong).1
  rw [hcontents, onMap_enroll] at hresult
  have hreturns := (enrollResult_state_iff Json.string withdrawnStudent 7 1).mp
    (hresult.symm.trans h.returns)
  exact hreturns (by decide) (by decide) (by decide)

end Courseware

end MockDB
