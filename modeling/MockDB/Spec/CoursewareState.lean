import MockDB.Applications.Courseware
import Mathlib.Logic.Function.Basic

/-!
# The state of courseware

What the store holds for courseware, without keys and JSON: two lists, two kinds of
records, and the two sides of each enrollment. A call changes the state as a whole.
`Proof/CoursewareRun.lean` shows that on a linearizable store the code does the same.
-/

namespace MockDB

/-- What courseware stores. -/
structure CoursewareState where
  students : Option (List Int)
  courses : Option (List Int)
  /-- The student that was added, and what is under `registered` by now. -/
  student : Int → Option (Student × Json)
  /-- The course that was added, and what is under `status` by now. -/
  course : Int → Option (Course × Json)
  enrollmentStudent : Int → Option (List Int)
  enrollmentCourse : Int → Option (List Int)

namespace CoursewareState

/-- Nothing stored. -/
def empty : CoursewareState where
  students := none
  courses := none
  student _ := none
  course _ := none
  enrollmentStudent _ := none
  enrollmentCourse _ := none

/-- The courses a student is in, as its own list has it. -/
def coursesOf (st : CoursewareState) (s : Int) : List Int := (st.enrollmentStudent s).getD []

/-- The students in a course, as the course's list has it. -/
def studentsOf (st : CoursewareState) (c : Int) : List Int := (st.enrollmentCourse c).getD []

/-- Whether an id is on the list of students. -/
def IsStudent (st : CoursewareState) (s : Int) : Prop := s ∈ st.students.getD []

/-- Whether an id is on the list of courses. -/
def IsCourse (st : CoursewareState) (c : Int) : Prop := c ∈ st.courses.getD []

def addStudent (st : CoursewareState) (s : Student) : CoursewareState :=
  { st with
    students := some (st.students.getD [] ++ [s.id])
    student := Function.update st.student s.id (some (s, .bool s.registered))
    enrollmentStudent := Function.update st.enrollmentStudent s.id (some []) }

def addCourse (st : CoursewareState) (c : Course) : CoursewareState :=
  { st with
    courses := some (st.courses.getD [] ++ [c.id])
    course := Function.update st.course c.id (some (c, .string c.status))
    enrollmentCourse := Function.update st.enrollmentCourse c.id (some []) }

/-- `registered` of a student that has a record. -/
def setRegistered (st : CoursewareState) (s : Int) (registered : Json) : CoursewareState :=
  match st.student s with
  | none => st
  | some r => { st with student := Function.update st.student s (some (r.1, registered)) }

/-- `status` of a course that has a record. -/
def setStatus (st : CoursewareState) (c : Int) (status : Json) : CoursewareState :=
  match st.course c with
  | none => st
  | some r => { st with course := Function.update st.course c (some (r.1, status)) }

/-- A student goes off the list of students, and out of nothing but its own courses. -/
def removeStudent (st : CoursewareState) (s : Int) : CoursewareState :=
  match st.students with
  | none => st
  | some ids =>
      { st with
        students := some (ids.filter fun i => i ≠ s)
        enrollmentStudent := Function.update st.enrollmentStudent s (some []) }

/-- A course goes off the list of courses, and out of nothing but its own students. -/
def removeCourse (st : CoursewareState) (c : Int) : CoursewareState :=
  match st.courses with
  | none => st
  | some ids =>
      { st with
        courses := some (ids.filter fun i => i ≠ c)
        enrollmentCourse := Function.update st.enrollmentCourse c (some []) }

/-- Both sides of an enrollment. -/
def addEnrollment (st : CoursewareState) (s c : Int) : CoursewareState :=
  { st with
    enrollmentCourse := Function.update st.enrollmentCourse c (some (st.studentsOf c ++ [s]))
    enrollmentStudent := Function.update st.enrollmentStudent s (some (st.coursesOf s ++ [c])) }

/-- An `enroll` of `s` in `c` enrolls: the student is registered, the course open, and a place
left in it. -/
def Enrolls (narrow : String → Json) (st : CoursewareState) (s c : Int) : Prop :=
  ∃ student course status, st.student s = some (student, .bool true)
    ∧ st.course c = some (course, status) ∧ status.sameStatus (narrow "open") = true
    ∧ ((st.studentsOf c).length : Int) < course.capacity

/-- `enroll`, which closes a course that is full. -/
def enroll (narrow : String → Json) (st : CoursewareState) (s c : Int) : CoursewareState :=
  match st.student s, st.course c with
  | some (_, registered), some (course, status) =>
      if registered.asBool = some true ∧ status.sameStatus (narrow "open") = true then
        if ((st.studentsOf c).length : Int) < course.capacity then st.addEnrollment s c
        else st.setStatus c (narrow "close")
      else st
  | _, _ => st

/-- What `enroll` ends with: an exception where `registered` is no Boolean. -/
def enrollResult (st : CoursewareState) (s c : Int) : Except AppException Unit :=
  match st.student s, st.course c with
  | some (_, registered), some _ =>
      if registered.asBool = none then .error .json else .ok ()
  | _, _ => .ok ()

/-- One call. -/
def step (narrow : String → Json) (st : CoursewareState) : CoursewareOp → CoursewareState
  | .addStudent s => st.addStudent s
  | .deleteStudent s => (st.setRegistered s.id (.number 0)).removeStudent s.id
  | .addCourse c => st.addCourse c
  | .deleteCourse c => (st.setStatus c.id (narrow "close")).removeCourse c.id
  | .registerStudent s => st.setRegistered s (.bool true)
  | .deregisterStudent s => st.setRegistered s (.number 0)
  | .openCourse c => st.setStatus c (narrow "open")
  | .closeCourse c => st.setStatus c (narrow "close")
  | .enroll s c => st.enroll narrow s c
  | .getEnrolledCourses _ => st
  | .getEnrolledStudents _ => st
  | .getEnrollments => st

/-- Calls one after another. -/
def run (narrow : String → Json) (ops : List CoursewareOp) : CoursewareState :=
  ops.foldl (step narrow) empty

/-- What `get_enrollments` returns. -/
def enrollments (st : CoursewareState) : UnorderedMap Int (List Int) :=
  (st.courses.getD []).foldl (fun found c => found.insert c (st.studentsOf c)) ∅

/-- What a call of a thread returns and leaves, unless it throws. -/
def serve (narrow : String → Json) :
    CoursewareOp → CoursewareState → CoursewareReply × CoursewareState
  | .getEnrolledCourses s, st => (.ids (st.coursesOf s), st)
  | .getEnrolledStudents c, st => (.ids (st.studentsOf c), st)
  | .getEnrollments, st => (.enrollments st.enrollments, st)
  | op, st => (.done, st.step narrow op)

/-- What a call of a thread returns or throws, and what it leaves. -/
def respond (narrow : String → Json) : CoursewareOp → CoursewareState →
    Except AppException CoursewareReply × CoursewareState
  | .enroll s c, st => ((st.enrollResult s c).map fun _ => .done, st.enroll narrow s c)
  | op, st => (.ok (st.serve narrow op).1, (st.serve narrow op).2)

theorem run_concat (narrow : String → Json) (ops : List CoursewareOp) (op : CoursewareOp) :
    run narrow (ops ++ [op]) = (run narrow ops).step narrow op := by
  simp [run]

theorem asBool_eq_true {v : Json} : v.asBool = some true ↔ v = .bool true := by
  cases v <;> simp [Json.asBool]

/-- **`enroll` enrolls, or leaves all but a status as it was.** -/
theorem enroll_cases (narrow : String → Json) (st : CoursewareState) (s c : Int) :
    (st.Enrolls narrow s c ∧ st.enroll narrow s c = st.addEnrollment s c)
      ∨ (¬ st.Enrolls narrow s c ∧ (st.enroll narrow s c = st
          ∨ st.enroll narrow s c = st.setStatus c (narrow "close"))) := by
  unfold enroll Enrolls
  cases hs : st.student s with
  | none => exact Or.inr ⟨by simp, Or.inl rfl⟩
  | some student =>
      cases hc : st.course c with
      | none => exact Or.inr ⟨by simp, Or.inl rfl⟩
      | some course =>
          obtain ⟨student, registered⟩ := student
          obtain ⟨course, status⟩ := course
          dsimp only
          by_cases hadmitted : registered.asBool = some true
              ∧ status.sameStatus (narrow "open") = true
          · rw [if_pos hadmitted]
            obtain ⟨hreg, hopen⟩ := hadmitted
            rw [asBool_eq_true] at hreg
            subst hreg
            by_cases hplace : ((st.studentsOf c).length : Int) < course.capacity
            · rw [if_pos hplace]
              exact Or.inl ⟨⟨student, course, status, rfl, rfl, hopen, hplace⟩, rfl⟩
            · rw [if_neg hplace]
              right
              refine ⟨?_, Or.inr rfl⟩
              rintro ⟨_, course', _, -, hcourse, -, hlt⟩
              have heq := Option.some.inj hcourse
              rw [(Prod.mk.inj heq).1] at hplace
              exact hplace hlt
          · rw [if_neg hadmitted]
            right
            refine ⟨?_, Or.inl rfl⟩
            rintro ⟨_, _, status', hstudent, hcourse, hopen, -⟩
            have hreg := (Prod.mk.inj (Option.some.inj hstudent)).2
            have hstatus := (Prod.mk.inj (Option.some.inj hcourse)).2
            exact hadmitted ⟨asBool_eq_true.mpr hreg, hstatus ▸ hopen⟩

end CoursewareState

end MockDB
