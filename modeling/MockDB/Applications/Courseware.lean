import MockDB.Applications.App

/-!
# Courseware

`courseware.h`. Students and courses have a list each, a record for each of their members,
and for each student the list of courses and for each course the list of students. The
list fields of a value are read and assigned as `Json` describes.
-/

namespace MockDB

/-- `student`. -/
structure Student where
  id : Int
  name : String
  registered : Bool
  rollNumber : String
  deriving DecidableEq

/-- `course`. -/
structure Course where
  id : Int
  name : String
  department : String
  status : String
  capacity : Int
  deriving DecidableEq

inductive CoursewareKey where
  | students
  | courses
  | student (id : Int)
  | course (id : Int)
  | enrollmentStudent (id : Int)
  | enrollmentCourse (id : Int)
  deriving DecidableEq

/-- The strings the keys are. -/
def CoursewareKey.name : CoursewareKey → String
  | students => "students"
  | courses => "courses"
  | student id => "student:" ++ toString id
  | course id => "course:" ++ toString id
  | enrollmentStudent id => "enrollment:student:" ++ toString id
  | enrollmentCourse id => "enrollment:course:" ++ toString id

namespace Courseware

open App Json

/-- `student_details`. -/
def studentDetails (s : Student) : Json :=
  object [("name", string s.name), ("registered", bool s.registered),
    ("roll_number", string s.rollNumber)]

/-- `course_details`. -/
def courseDetails (c : Course) : Json :=
  object [("name", string c.name), ("department", string c.department),
    ("status", string c.status), ("capacity", number c.capacity)]

/-- Appends to the list under `key`, which `value` was read from, and stores it. -/
def appendTo (key : CoursewareKey) (value : Json) (count id sessionId : Int) :
    App CoursewareKey Unit := do
  let value ← json (value.appendAt "list" count (number id))
  put key value sessionId

/-- An assignment to one field of a record that exists. -/
def updateField (key : CoursewareKey) (field : String) (v : Json) (sessionId : Int) :
    App CoursewareKey Unit := do
  match ← (get key sessionId).attempt with
  | .error _ => pure ()
  | .ok details =>
      let details ← json (details.setField field v)
      put key details sessionId

/-- `add_student`. -/
def addStudent (s : Student) (sessionId : Int) : App CoursewareKey Unit := do
  -- Insert student into list
  let students ← getList "list" .students sessionId
  let studentsCount ← json students.count
  appendTo .students students studentsCount s.id sessionId
  -- Add student detail
  put (.student s.id) (studentDetails s) sessionId
  -- Add enrollment details
  let courseList ← json (Json.null.setList "list" [] 0)
  put (.enrollmentStudent s.id) courseList sessionId

/-- `add_course`. -/
def addCourse (c : Course) (sessionId : Int) : App CoursewareKey Unit := do
  -- Insert course into list
  let courses ← getList "list" .courses sessionId
  let coursesCount ← json courses.count
  appendTo .courses courses coursesCount c.id sessionId
  -- Add course detail
  put (.course c.id) (courseDetails c) sessionId
  -- Add enrollment details
  let courseEnrollment ← json (Json.null.setList "list" [] 0)
  put (.enrollmentCourse c.id) courseEnrollment sessionId

/-- `register_student`. -/
def registerStudent (studentId sessionId : Int) : App CoursewareKey Unit :=
  updateField (.student studentId) "registered" (bool true) sessionId

/-- `deregister_student`, which stores a number where the others store a Boolean. -/
def deregisterStudent (studentId sessionId : Int) : App CoursewareKey Unit :=
  updateField (.student studentId) "registered" (number 0) sessionId

/-- What `delete_student` and `delete_course` do after the record: take the id off the list
under `listKey`, and empty the enrollment list under `enrollmentKey`. -/
def deleteFrom (listKey enrollmentKey : CoursewareKey) (id sessionId : Int) :
    App CoursewareKey Unit := do
  match ← (get listKey sessionId).attempt with
  | .error _ => pure ()
  | .ok value =>
      let value ← json (value.removeFrom "list" id)
      put listKey value sessionId
      let value ← json (value.setList "list" [] 0)
      put enrollmentKey value sessionId

/-- `delete_student`. -/
def deleteStudent (s : Student) (sessionId : Int) : App CoursewareKey Unit := do
  deregisterStudent s.id sessionId
  deleteFrom .students (.enrollmentStudent s.id) s.id sessionId

section Status

-- `web::json::value` of a narrow literal: which of its constructors takes a `const char *`
-- depends on the platform's `utility::string_t`
variable (narrow : String → Json)

/-- `open_course`. -/
def openCourse (courseId sessionId : Int) : App CoursewareKey Unit :=
  updateField (.course courseId) "status" (narrow "open") sessionId

/-- `close_course`. -/
def closeCourse (courseId sessionId : Int) : App CoursewareKey Unit :=
  updateField (.course courseId) "status" (narrow "close") sessionId

/-- `delete_course`. -/
def deleteCourse (c : Course) (sessionId : Int) : App CoursewareKey Unit := do
  closeCourse narrow c.id sessionId
  deleteFrom .courses (.enrollmentCourse c.id) c.id sessionId

/-- `enroll`. -/
def enroll (studentId courseId sessionId : Int) : App CoursewareKey Unit := do
  -- Verify student and course are registered and open
  let details ← (do
    let studentDetails ← get (.student studentId) sessionId
    let courseDetails ← get (.course courseId) sessionId
    pure (studentDetails, courseDetails) : App CoursewareKey (Json × Json)).attempt
  match details with
  | .error _ => pure ()
  | .ok (studentDetails, courseDetails) =>
      let registered ← json ((studentDetails.field "registered").bind asBool)
      if registered = false then pure ()
      else
        let status ← json (courseDetails.field "status")
        if status.sameStatus (narrow "open") = false then pure ()
        else
          -- Retrieve list of students enrolled for the course
          let courseEnrollment ← getList "list" (.enrollmentCourse courseId) sessionId
          let studentCount ← json courseEnrollment.count
          -- Check enrollment count doesn't exceed the capacity of course
          let capacity ← json ((courseDetails.field "capacity").bind asInteger)
          if studentCount ≥ capacity then closeCourse narrow courseId sessionId
          else
            -- Add enrollment entry for course
            appendTo (.enrollmentCourse courseId) courseEnrollment studentCount studentId sessionId
            -- Add enrollment entry for student
            let studentEnrollment ← getList "list" (.enrollmentStudent studentId) sessionId
            let courseCount ← json studentEnrollment.count
            appendTo (.enrollmentStudent studentId) studentEnrollment courseCount courseId sessionId

end Status

/-- The ids in the list under `key`, none if there is no list. -/
def getIds (key : CoursewareKey) (sessionId : Int) : App CoursewareKey (List Int) := do
  match ← (get key sessionId).attempt with
  | .error _ => pure []
  | .ok value =>
      let list ← json (value.elements "list")
      json (list.mapM asInteger)

/-- `get_enrolled_courses`. -/
def getEnrolledCourses (studentId sessionId : Int) : App CoursewareKey (List Int) :=
  getIds (.enrollmentStudent studentId) sessionId

/-- `get_enrolled_students`. -/
def getEnrolledStudents (courseId sessionId : Int) : App CoursewareKey (List Int) :=
  getIds (.enrollmentCourse courseId) sessionId

/-- The loop of `get_enrollments`, over what is left of the course list. -/
def enrollmentsOf (sessionId : Int) :
    List Json → UnorderedMap Int (List Int) → App CoursewareKey (UnorderedMap Int (List Int))
  | [], enrollments => pure enrollments
  | it :: rest, enrollments => do
      let courseId ← json it.asInteger
      let students ← getEnrolledStudents courseId sessionId
      enrollmentsOf sessionId rest (enrollments.insert courseId students)

/-- `get_enrollments`. The map it returns is a `std::map`, whose order is left out. -/
def getEnrollments (sessionId : Int) : App CoursewareKey (UnorderedMap Int (List Int)) := do
  match ← (get .courses sessionId).attempt with
  | .error _ => pure ∅
  | .ok courses =>
      let courseList ← json (courses.elements "list")
      enrollmentsOf sessionId courseList ∅

end Courseware

/-- The calls there are. -/
inductive CoursewareOp where
  | addStudent (s : Student)
  | deleteStudent (s : Student)
  | addCourse (c : Course)
  | deleteCourse (c : Course)
  | registerStudent (studentId : Int)
  | deregisterStudent (studentId : Int)
  | openCourse (courseId : Int)
  | closeCourse (courseId : Int)
  | enroll (studentId courseId : Int)
  | getEnrolledCourses (studentId : Int)
  | getEnrolledStudents (courseId : Int)
  | getEnrollments
  deriving DecidableEq

/-- What a call runs. What a getter returns is left to whoever called it. -/
def CoursewareOp.program (narrow : String → Json) (sessionId : Int) :
    CoursewareOp → App CoursewareKey Unit
  | addStudent s => Courseware.addStudent s sessionId
  | deleteStudent s => Courseware.deleteStudent s sessionId
  | addCourse c => Courseware.addCourse c sessionId
  | deleteCourse c => Courseware.deleteCourse narrow c sessionId
  | registerStudent id => Courseware.registerStudent id sessionId
  | deregisterStudent id => Courseware.deregisterStudent id sessionId
  | openCourse id => Courseware.openCourse narrow id sessionId
  | closeCourse id => Courseware.closeCourse narrow id sessionId
  | enroll studentId courseId => Courseware.enroll narrow studentId courseId sessionId
  | getEnrolledCourses studentId => do
      let _ ← Courseware.getEnrolledCourses studentId sessionId
      pure ()
  | getEnrolledStudents courseId => do
      let _ ← Courseware.getEnrolledStudents courseId sessionId
      pure ()
  | getEnrollments => do
      let _ ← Courseware.getEnrollments sessionId
      pure ()

/-- What calls return. -/
inductive CoursewareReply where
  | done
  | ids (ids : List Int)
  | enrollments (enrollments : UnorderedMap Int (List Int))

/-- What a call runs, with what it returns. -/
def CoursewareOp.reply (narrow : String → Json) (sessionId : Int) :
    CoursewareOp → App CoursewareKey CoursewareReply
  | getEnrolledCourses studentId => do
      let courses ← Courseware.getEnrolledCourses studentId sessionId
      pure (.ids courses)
  | getEnrolledStudents courseId => do
      let students ← Courseware.getEnrolledStudents courseId sessionId
      pure (.ids students)
  | getEnrollments => do
      let enrollments ← Courseware.getEnrollments sessionId
      pure (.enrollments enrollments)
  | op => do
      op.program narrow sessionId
      pure .done

/-- The student a call adds. -/
def CoursewareOp.studentAdded : CoursewareOp → Option Int
  | addStudent s => some s.id
  | _ => none

/-- The course a call adds. -/
def CoursewareOp.courseAdded : CoursewareOp → Option Int
  | addCourse c => some c.id
  | _ => none

/-- The student whose registration a call takes back. -/
def CoursewareOp.studentWithdrawn : CoursewareOp → Option Int
  | deleteStudent s => some s.id
  | deregisterStudent id => some id
  | _ => none

/-- The student and the course of a call to enroll. -/
def CoursewareOp.enrollment : CoursewareOp → Option (Int × Int)
  | enroll studentId courseId => some (studentId, courseId)
  | _ => none

/-- A call, with the session that makes it and its random numbers. -/
structure CoursewareCall where
  op : CoursewareOp
  sessionId : Int
  draws : Nat → Draws

/-- A linearizable store after whole calls, one at a time. -/
def Courseware.after (narrow : String → Json) (calls : List CoursewareCall) : World String Json :=
  App.runAll CoursewareKey.name (World.init .linearizable)
    (calls.map fun call => (call.op.program narrow call.sessionId, call.draws))

end MockDB
