import MockDB.Proof.AppRun
import MockDB.Spec.CoursewareState

/-!
# Courseware on a linearizable store

One lemma for each call: run on the map that a state is stored as, it leaves the map that
the next state is stored as. So a run of the code follows the states.
-/

namespace MockDB

namespace CoursewareState

/-- `student_details`, with what is under `registered` by now. -/
def studentRecord (r : Student × Json) : Json :=
  .object [("name", .string r.1.name), ("registered", r.2), ("roll_number", .string r.1.rollNumber)]

/-- `course_details`, with what is under `status` by now. -/
def courseRecord (r : Course × Json) : Json :=
  .object [("name", .string r.1.name), ("department", .string r.1.department), ("status", r.2),
    ("capacity", .number r.1.capacity)]

/-- The values the store has for a state. -/
def toMap (st : CoursewareState) : CoursewareKey → Option Json
  | .students => st.students.map (Json.idList "list")
  | .courses => st.courses.map (Json.idList "list")
  | .student id => (st.student id).map studentRecord
  | .course id => (st.course id).map courseRecord
  | .enrollmentStudent id => (st.enrollmentStudent id).map (Json.idList "list")
  | .enrollmentCourse id => (st.enrollmentCourse id).map (Json.idList "list")

section Update

variable (st : CoursewareState) (id : Int) (ids : List Int)

@[simp] theorem update_students :
    Function.update st.toMap .students (some (Json.idList "list" ids))
      = { st with students := some ids }.toMap := by
  funext k
  cases k <;> simp [toMap, Function.update]

@[simp] theorem update_courses :
    Function.update st.toMap .courses (some (Json.idList "list" ids))
      = { st with courses := some ids }.toMap := by
  funext k
  cases k <;> simp [toMap, Function.update]

@[simp] theorem update_student (r : Student × Json) :
    Function.update st.toMap (.student id) (some (studentRecord r))
      = { st with student := Function.update st.student id (some r) }.toMap := by
  funext k
  cases k with
  | student id' => by_cases h : id' = id <;> simp [toMap, Function.update, h]
  | _ => simp [toMap, Function.update]

@[simp] theorem update_course (r : Course × Json) :
    Function.update st.toMap (.course id) (some (courseRecord r))
      = { st with course := Function.update st.course id (some r) }.toMap := by
  funext k
  cases k with
  | course id' => by_cases h : id' = id <;> simp [toMap, Function.update, h]
  | _ => simp [toMap, Function.update]

@[simp] theorem update_enrollmentStudent :
    Function.update st.toMap (.enrollmentStudent id) (some (Json.idList "list" ids))
      = { st with
          enrollmentStudent := Function.update st.enrollmentStudent id (some ids) }.toMap := by
  funext k
  cases k with
  | enrollmentStudent id' => by_cases h : id' = id <;> simp [toMap, Function.update, h]
  | _ => simp [toMap, Function.update]

@[simp] theorem update_enrollmentCourse :
    Function.update st.toMap (.enrollmentCourse id) (some (Json.idList "list" ids))
      = { st with
          enrollmentCourse := Function.update st.enrollmentCourse id (some ids) }.toMap := by
  funext k
  cases k with
  | enrollmentCourse id' => by_cases h : id' = id <;> simp [toMap, Function.update, h]
  | _ => simp [toMap, Function.update]

end Update

end CoursewareState

/-! ## One lemma for each call -/

namespace Courseware

open App CoursewareState

variable (miss : CoursewareKey → StoreException String) (narrow : String → Json)
  (st : CoursewareState) (sessionId : Int)

/-- Appending to the list that was read. -/
theorem onMap_appendTo (key : CoursewareKey) (ids : List Int) (id : Int)
    (m : CoursewareKey → Option Json) :
    (appendTo key (Json.idList "list" ids) ids.length id sessionId).onMap miss m
      = (.ok (), Function.update m key (some (Json.idList "list" (ids ++ [id])))) := by
  simp [appendTo, Json.appendAt_idList ids Json.list_ne_count]

theorem onMap_addStudent (s : Student) :
    (addStudent s sessionId).onMap miss st.toMap = (.ok (), (st.addStudent s).toMap) := by
  have hlist := onMap_getList miss Json.list_ne_count sessionId
    (show st.toMap .students = st.students.map _ from rfl)
  have hdetails : studentDetails s = studentRecord (s, .bool s.registered) := rfl
  simp [addStudent, hlist, Json.count_idList _ Json.list_ne_count, onMap_appendTo, hdetails,
    Json.setList_list_null, CoursewareState.addStudent]

theorem onMap_addCourse (c : Course) :
    (addCourse c sessionId).onMap miss st.toMap = (.ok (), (st.addCourse c).toMap) := by
  have hlist := onMap_getList miss Json.list_ne_count sessionId
    (show st.toMap .courses = st.courses.map _ from rfl)
  have hdetails : courseDetails c = courseRecord (c, .string c.status) := rfl
  simp [addCourse, hlist, Json.count_idList _ Json.list_ne_count, onMap_appendTo, hdetails,
    Json.setList_list_null, CoursewareState.addCourse]

theorem setField_registered (r : Student × Json) (v : Json) :
    (studentRecord r).setField "registered" v = some (studentRecord (r.1, v)) := by
  simp [studentRecord, Json.setField, Json.setEntry]

theorem setField_status (r : Course × Json) (v : Json) :
    (courseRecord r).setField "status" v = some (courseRecord (r.1, v)) := by
  simp [courseRecord, Json.setField, Json.setEntry]

theorem onMap_registered (s : Int) (v : Json) :
    (updateField (.student s) "registered" v sessionId).onMap miss st.toMap
      = (.ok (), (st.setRegistered s v).toMap) := by
  unfold updateField CoursewareState.setRegistered
  cases hs : st.student s with
  | none =>
      have hm : st.toMap (.student s) = none := by simp [toMap, hs]
      simp [hm]
  | some r =>
      have hm : st.toMap (.student s) = some (studentRecord r) := by simp [toMap, hs]
      simp [hm, setField_registered]

theorem onMap_status (c : Int) (v : Json) :
    (updateField (.course c) "status" v sessionId).onMap miss st.toMap
      = (.ok (), (st.setStatus c v).toMap) := by
  unfold updateField CoursewareState.setStatus
  cases hc : st.course c with
  | none =>
      have hm : st.toMap (.course c) = none := by simp [toMap, hc]
      simp [hm]
  | some r =>
      have hm : st.toMap (.course c) = some (courseRecord r) := by simp [toMap, hc]
      simp [hm, setField_status]

/-- Taking an id off the list that was read, then emptying another. -/
theorem onMap_deleteFrom (listKey enrollmentKey : CoursewareKey) (id : Int)
    (m : CoursewareKey → Option Json) {ids : Option (List Int)}
    (hm : m listKey = ids.map (Json.idList "list")) :
    (deleteFrom listKey enrollmentKey id sessionId).onMap miss m
      = (.ok (), ids.elim m fun ids => Function.update
          (Function.update m listKey (some (Json.idList "list" (ids.filter fun i => i ≠ id))))
          enrollmentKey (some (Json.idList "list" []))) := by
  unfold deleteFrom
  cases ids with
  | none => simp [hm]
  | some ids =>
      have hremove := Json.removeFrom_idList ids Json.list_ne_count id
      have hempty := Json.setList_idList (ids.filter fun i => i ≠ id) Json.list_ne_count []
      rw [List.map_nil, List.length_nil, Int.natCast_zero] at hempty
      simp only [onMap_get, hm, Option.map_some, Program.onMap_bind, Program.onMap_attempt,
        Option.elim_some, Program.after_ok, onMap_json, hremove, onMap_put, hempty]

theorem onMap_deleteStudent (s : Student) :
    (deleteStudent s sessionId).onMap miss st.toMap
      = (.ok (), ((st.setRegistered s.id (.number 0)).removeStudent s.id).toMap) := by
  have hreg := onMap_registered miss st sessionId s.id (.number 0)
  generalize st.setRegistered s.id (.number 0) = st' at hreg ⊢
  have hdelete := onMap_deleteFrom miss sessionId .students (.enrollmentStudent s.id) s.id
    st'.toMap (show st'.toMap .students = st'.students.map _ from rfl)
  unfold deleteStudent deregisterStudent removeStudent
  simp only [Program.onMap_bind, hreg, Program.after_ok, hdelete]
  cases st'.students with
  | none => rfl
  | some ids => simp

theorem onMap_deleteCourse (c : Course) :
    (deleteCourse narrow c sessionId).onMap miss st.toMap
      = (.ok (), ((st.setStatus c.id (narrow "close")).removeCourse c.id).toMap) := by
  have hstatus := onMap_status miss st sessionId c.id (narrow "close")
  generalize st.setStatus c.id (narrow "close") = st' at hstatus ⊢
  have hdelete := onMap_deleteFrom miss sessionId .courses (.enrollmentCourse c.id) c.id
    st'.toMap (show st'.toMap .courses = st'.courses.map _ from rfl)
  unfold deleteCourse closeCourse removeCourse
  simp only [Program.onMap_bind, hstatus, Program.after_ok, hdelete]
  cases st'.courses with
  | none => rfl
  | some ids => simp

theorem field_registered (r : Student × Json) :
    (studentRecord r).field "registered" = some r.2 := by
  simp [studentRecord, Json.field, List.lookup_cons]

theorem field_status (r : Course × Json) : (courseRecord r).field "status" = some r.2 := by
  simp [courseRecord, Json.field, List.lookup_cons]

theorem field_capacity (r : Course × Json) :
    (courseRecord r).field "capacity" = some (.number r.1.capacity) := by
  simp [courseRecord, Json.field, List.lookup_cons]

theorem onMap_enroll (s c : Int) :
    (enroll narrow s c sessionId).onMap miss st.toMap
      = (st.enrollResult s c, (st.enroll narrow s c).toMap) := by
  have hstudent : st.toMap (.student s) = (st.student s).map studentRecord := rfl
  have hcourse : st.toMap (.course c) = (st.course c).map courseRecord := rfl
  have hlist : (getList "list" (.enrollmentCourse c) sessionId).onMap miss st.toMap
      = (.ok (Json.idList "list" (st.studentsOf c)), st.toMap) :=
    onMap_getList miss Json.list_ne_count sessionId rfl
  -- the student's list is read after the course's has been stored
  have hlist' : (getList "list" (.enrollmentStudent s) sessionId).onMap miss
        { st with
          enrollmentCourse := Function.update st.enrollmentCourse c
            (some (st.studentsOf c ++ [s])) }.toMap
      = (.ok (Json.idList "list" (st.coursesOf s)), _) :=
    onMap_getList miss Json.list_ne_count sessionId rfl
  unfold enroll CoursewareState.enroll enrollResult
  cases hs : st.student s with
  | none => simp [hstudent, hs]
  | some student =>
      cases hc : st.course c with
      | none => simp [hstudent, hcourse, hs, hc]
      | some course =>
          obtain ⟨student, registered⟩ := student
          obtain ⟨course, status⟩ := course
          simp only [Program.onMap_bind, Program.onMap_attempt, onMap_get, hstudent, hcourse, hs,
            hc, Option.map_some, Option.elim_some, Program.after_ok, Program.onMap_pure,
            field_registered, Option.bind_some, onMap_json]
          cases hreg : registered.asBool with
          | none => rfl
          | some b =>
              cases b with
              | false => simp
              | true =>
                  by_cases hopen : status.sameStatus (narrow "open") = true
                  · by_cases hplace : ((st.studentsOf c).length : Int) < course.capacity
                    · have hnot : ¬ course.capacity ≤ ((st.studentsOf c).length : Int) := by omega
                      simp [field_status, hopen, hlist, Json.count_idList _ Json.list_ne_count,
                        field_capacity, Json.asInteger, hplace, hnot, onMap_appendTo, hlist',
                        addEnrollment]
                    · have hle : course.capacity ≤ ((st.studentsOf c).length : Int) := by omega
                      have hclose := onMap_status miss st sessionId c (narrow "close")
                      simp [field_status, hopen, hlist, Json.count_idList _ Json.list_ne_count,
                        field_capacity, Json.asInteger, hplace, hle, closeCourse, hclose]
                  · simp [field_status, hopen]

theorem onMap_getIds (key : CoursewareKey) {m : CoursewareKey → Option Json}
    {ids : Option (List Int)} (hm : m key = ids.map (Json.idList "list")) :
    (getIds key sessionId).onMap miss m = (.ok (ids.getD []), m) := by
  unfold getIds
  cases ids with
  | none => simp [hm]
  | some ids =>
      have hread := Json.mapM_asInteger ids
      rw [List.mapM_map] at hread
      simp [hm, Json.elements_idList, hread]

/-- The loop of `get_enrollments` looks up every course it is given. -/
theorem onMap_enrollmentsOf (cs : List Int)
    (found : UnorderedMap Int (List Int)) :
    ∃ enrollments, (enrollmentsOf sessionId (cs.map Json.number) found).onMap miss st.toMap
        = (.ok enrollments, st.toMap)
      ∧ ∀ c, enrollments.lookup c = if c ∈ cs then some (st.studentsOf c) else found.lookup c := by
  induction cs generalizing found with
  | nil => exact ⟨found, rfl, fun c => by simp⟩
  | cons c cs ih =>
      obtain ⟨enrollments, hrun, hlookup⟩ := ih (found.insert c (st.studentsOf c))
      have hget : (getEnrolledStudents c sessionId).onMap miss st.toMap
          = (.ok (st.studentsOf c), st.toMap) := onMap_getIds miss sessionId _ rfl
      refine ⟨enrollments, ?_, fun c' => ?_⟩
      · simpa [enrollmentsOf, Json.asInteger, hget] using hrun
      · rw [hlookup c']
        by_cases hmem : c' ∈ cs
        · simp [hmem]
        · by_cases heq : c' = c
          · subst heq; simp [hmem]
          · simp [hmem, heq, AList.lookup_insert_ne heq]

/-- `get_enrollments` reports the courses on the list, each with its students. -/
theorem onMap_getEnrollments : ∃ enrollments,
    (getEnrollments sessionId).onMap miss st.toMap = (.ok enrollments, st.toMap)
      ∧ ∀ c ss, enrollments.lookup c = some ss ↔ st.IsCourse c ∧ ss = st.studentsOf c := by
  have hcourses : st.toMap .courses = st.courses.map (Json.idList "list") := rfl
  unfold getEnrollments IsCourse
  cases hc : st.courses with
  | none => exact ⟨∅, by simp [hcourses, hc], fun c ss => by simp⟩
  | some cs =>
      obtain ⟨enrollments, hrun, hlookup⟩ := onMap_enrollmentsOf miss st sessionId cs ∅
      refine ⟨enrollments, ?_, fun c ss => ?_⟩
      · simp [hcourses, hc, Json.elements_idList, hrun]
      · rw [hlookup c]
        by_cases hmem : c ∈ cs
        · simp [hmem, eq_comm]
        · simp [hmem]

/-- **A call on the map of a state leaves the map of the next state.** -/
theorem onMap_program (op : CoursewareOp) :
    ((op.program narrow sessionId).onMap miss st.toMap).2 = (st.step narrow op).toMap := by
  cases op with
  | addStudent s => rw [CoursewareOp.program, onMap_addStudent]; rfl
  | deleteStudent s => rw [CoursewareOp.program, onMap_deleteStudent]; rfl
  | addCourse c => rw [CoursewareOp.program, onMap_addCourse]; rfl
  | deleteCourse c => rw [CoursewareOp.program, onMap_deleteCourse]; rfl
  | registerStudent s => rw [CoursewareOp.program, registerStudent, onMap_registered]; rfl
  | deregisterStudent s => rw [CoursewareOp.program, deregisterStudent, onMap_registered]; rfl
  | openCourse c => rw [CoursewareOp.program, openCourse, onMap_status]; rfl
  | closeCourse c => rw [CoursewareOp.program, closeCourse, onMap_status]; rfl
  | enroll s c => rw [CoursewareOp.program, onMap_enroll]; rfl
  | getEnrolledCourses s =>
      have hget := onMap_getIds miss sessionId (.enrollmentStudent s)
        (show st.toMap (.enrollmentStudent s) = (st.enrollmentStudent s).map _ from rfl)
      simp [CoursewareOp.program, getEnrolledCourses, hget, step]
  | getEnrolledStudents c =>
      have hget := onMap_getIds miss sessionId (.enrollmentCourse c)
        (show st.toMap (.enrollmentCourse c) = (st.enrollmentCourse c).map _ from rfl)
      simp [CoursewareOp.program, getEnrolledStudents, hget, step]
  | getEnrollments =>
      obtain ⟨enrollments, hget, -⟩ := onMap_getEnrollments miss st sessionId
      simp [CoursewareOp.program, hget, step]

end Courseware

end MockDB
