import MockDB.Proof.CoursewareRun
import MockDB.Proof.KeyNames

/-!
# Whole calls, one at a time

After any calls the store holds the state that the calls lead to, and the getters read it
off. What a state holds comes from students and courses that were added.
-/

namespace MockDB

namespace CoursewareState

/-! ## The two sides of the enrollments -/

section Sides

variable (st : CoursewareState) (s c : Int)

@[simp] theorem coursesOf_addStudent (s : Student) :
    (st.addStudent s).coursesOf = Function.update st.coursesOf s.id [] := by
  funext s'
  by_cases h : s' = s.id <;> simp [addStudent, coursesOf, h]

@[simp] theorem studentsOf_addStudent (s : Student) :
    (st.addStudent s).studentsOf = st.studentsOf := rfl

@[simp] theorem coursesOf_addCourse (c : Course) :
    (st.addCourse c).coursesOf = st.coursesOf := rfl

@[simp] theorem studentsOf_addCourse (c : Course) :
    (st.addCourse c).studentsOf = Function.update st.studentsOf c.id [] := by
  funext c'
  by_cases h : c' = c.id <;> simp [addCourse, studentsOf, h]

@[simp] theorem coursesOf_setRegistered (v : Json) :
    (st.setRegistered s v).coursesOf = st.coursesOf := by
  unfold setRegistered; cases st.student s <;> rfl

@[simp] theorem studentsOf_setRegistered (v : Json) :
    (st.setRegistered s v).studentsOf = st.studentsOf := by
  unfold setRegistered; cases st.student s <;> rfl

@[simp] theorem coursesOf_setStatus (v : Json) :
    (st.setStatus c v).coursesOf = st.coursesOf := by
  unfold setStatus; cases st.course c <;> rfl

@[simp] theorem studentsOf_setStatus (v : Json) :
    (st.setStatus c v).studentsOf = st.studentsOf := by
  unfold setStatus; cases st.course c <;> rfl

@[simp] theorem studentsOf_removeStudent : (st.removeStudent s).studentsOf = st.studentsOf := by
  unfold removeStudent; cases st.students <;> rfl

@[simp] theorem coursesOf_removeCourse : (st.removeCourse c).coursesOf = st.coursesOf := by
  unfold removeCourse; cases st.courses <;> rfl

@[simp] theorem coursesOf_addEnrollment :
    (st.addEnrollment s c).coursesOf = Function.update st.coursesOf s (st.coursesOf s ++ [c]) := by
  funext s'
  by_cases h : s' = s <;> simp [addEnrollment, coursesOf, h]

@[simp] theorem studentsOf_addEnrollment :
    (st.addEnrollment s c).studentsOf
      = Function.update st.studentsOf c (st.studentsOf c ++ [s]) := by
  funext c'
  by_cases h : c' = c <;> simp [addEnrollment, studentsOf, h]

end Sides

/-! ## Lists and records -/

section Records

variable (st : CoursewareState) (s c : Int) (v : Json)

@[simp] theorem students_setRegistered : (st.setRegistered s v).students = st.students := by
  unfold setRegistered; cases st.student s <;> rfl

@[simp] theorem courses_setRegistered : (st.setRegistered s v).courses = st.courses := by
  unfold setRegistered; cases st.student s <;> rfl

@[simp] theorem course_setRegistered : (st.setRegistered s v).course = st.course := by
  unfold setRegistered; cases st.student s <;> rfl

theorem student_setRegistered : (st.setRegistered s v).student
    = Function.update st.student s ((st.student s).map fun r => (r.1, v)) := by
  unfold setRegistered
  cases h : st.student s with
  | none =>
      show st.student = _
      rw [Option.map_none, ← h, Function.update_eq_self]
  | some r => rfl

@[simp] theorem students_setStatus : (st.setStatus c v).students = st.students := by
  unfold setStatus; cases st.course c <;> rfl

@[simp] theorem courses_setStatus : (st.setStatus c v).courses = st.courses := by
  unfold setStatus; cases st.course c <;> rfl

@[simp] theorem student_setStatus : (st.setStatus c v).student = st.student := by
  unfold setStatus; cases st.course c <;> rfl

theorem course_setStatus : (st.setStatus c v).course
    = Function.update st.course c ((st.course c).map fun r => (r.1, v)) := by
  unfold setStatus
  cases h : st.course c with
  | none =>
      show st.course = _
      rw [Option.map_none, ← h, Function.update_eq_self]
  | some r => rfl

@[simp] theorem students_removeStudent : (st.removeStudent s).students
    = st.students.map fun ids => ids.filter fun i => i ≠ s := by
  unfold removeStudent
  cases h : st.students with
  | none => exact h
  | some ids => rfl

@[simp] theorem courses_removeStudent : (st.removeStudent s).courses = st.courses := by
  unfold removeStudent; cases st.students <;> rfl

@[simp] theorem student_removeStudent : (st.removeStudent s).student = st.student := by
  unfold removeStudent; cases st.students <;> rfl

@[simp] theorem course_removeStudent : (st.removeStudent s).course = st.course := by
  unfold removeStudent; cases st.students <;> rfl

@[simp] theorem students_removeCourse : (st.removeCourse c).students = st.students := by
  unfold removeCourse; cases st.courses <;> rfl

@[simp] theorem courses_removeCourse : (st.removeCourse c).courses
    = st.courses.map fun ids => ids.filter fun i => i ≠ c := by
  unfold removeCourse
  cases h : st.courses with
  | none => exact h
  | some ids => rfl

@[simp] theorem student_removeCourse : (st.removeCourse c).student = st.student := by
  unfold removeCourse; cases st.courses <;> rfl

@[simp] theorem course_removeCourse : (st.removeCourse c).course = st.course := by
  unfold removeCourse; cases st.courses <;> rfl

end Records

/-! ## Only what was added leaves traces -/

/-- `students` and `courses` are all that was added so far. -/
structure Known (st : CoursewareState) (students courses : List Int) : Prop where
  /-- A student that was not added has no record, and is in no course from either side. -/
  student : ∀ s, s ∉ students → st.student s = none ∧ st.coursesOf s = [] ∧ ∀ c, s ∉ st.studentsOf c
  /-- A course that was not added has no record and no students. -/
  course : ∀ c, c ∉ courses → st.course c = none ∧ st.studentsOf c = []
  /-- Without a list of students none was added. -/
  noStudents : st.students = none → students = []
  /-- Without a list of courses none was added. -/
  noCourses : st.courses = none → courses = []

section Known

variable {st : CoursewareState} {students courses : List Int}

theorem Known.coursesOf_removeStudent (h : st.Known students courses) (s : Int) :
    (st.removeStudent s).coursesOf = Function.update st.coursesOf s [] := by
  unfold removeStudent
  cases hs : st.students with
  | none =>
      have hnone : st.coursesOf s = [] := (h.student s (by simp [h.noStudents hs])).2.1
      rw [← hnone, Function.update_eq_self]
  | some ids =>
      funext s'
      by_cases heq : s' = s <;> simp [coursesOf, heq]

theorem Known.studentsOf_removeCourse (h : st.Known students courses) (c : Int) :
    (st.removeCourse c).studentsOf = Function.update st.studentsOf c [] := by
  unfold removeCourse
  cases hc : st.courses with
  | none =>
      have hnone : st.studentsOf c = [] := (h.course c (by simp [h.noCourses hc])).2
      rw [← hnone, Function.update_eq_self]
  | some ids =>
      funext c'
      by_cases heq : c' = c <;> simp [studentsOf, heq]

theorem known_empty : empty.Known [] [] where
  student _ _ := ⟨rfl, rfl, fun _ h => (List.not_mem_nil h).elim⟩
  course _ _ := ⟨rfl, rfl⟩
  noStudents _ := rfl
  noCourses _ := rfl

theorem Known.setRegistered (h : st.Known students courses) (s : Int) (v : Json) :
    (st.setRegistered s v).Known students courses where
  student s' hs' := by
    obtain ⟨hrec, hcourses, hmem⟩ := h.student s' hs'
    refine ⟨?_, by simpa using hcourses, by simpa using hmem⟩
    rw [student_setRegistered]
    by_cases heq : s' = s
    · subst heq; simp [hrec]
    · rw [Function.update_of_ne heq]; exact hrec
  course c hc := by simpa using h.course c hc
  noStudents hno := h.noStudents (by simpa using hno)
  noCourses hno := h.noCourses (by simpa using hno)

theorem Known.setStatus (h : st.Known students courses) (c : Int) (v : Json) :
    (st.setStatus c v).Known students courses where
  student s hs := by simpa using h.student s hs
  course c' hc' := by
    obtain ⟨hrec, hstudents⟩ := h.course c' hc'
    refine ⟨?_, by simpa using hstudents⟩
    rw [course_setStatus]
    by_cases heq : c' = c
    · subst heq; simp [hrec]
    · rw [Function.update_of_ne heq]; exact hrec
  noStudents hno := h.noStudents (by simpa using hno)
  noCourses hno := h.noCourses (by simpa using hno)

theorem Known.removeStudent (h : st.Known students courses) (s : Int) :
    (st.removeStudent s).Known students courses where
  student s' hs' := by
    obtain ⟨hrec, hcourses, hmem⟩ := h.student s' hs'
    refine ⟨by simpa using hrec, ?_, by simpa using hmem⟩
    rw [h.coursesOf_removeStudent]
    by_cases heq : s' = s
    · subst heq; rw [Function.update_self]
    · rw [Function.update_of_ne heq]; exact hcourses
  course c hc := by simpa using h.course c hc
  noStudents hno := h.noStudents (by simpa using hno)
  noCourses hno := h.noCourses (by simpa using hno)

theorem Known.removeCourse (h : st.Known students courses) (c : Int) :
    (st.removeCourse c).Known students courses where
  student s hs := by
    obtain ⟨hrec, hcourses, hmem⟩ := h.student s hs
    refine ⟨by simpa using hrec, by simpa using hcourses, fun c' => ?_⟩
    rw [h.studentsOf_removeCourse]
    by_cases heq : c' = c
    · subst heq; rw [Function.update_self]; exact List.not_mem_nil
    · rw [Function.update_of_ne heq]; exact hmem c'
  course c' hc' := by
    obtain ⟨hrec, hstudents⟩ := h.course c' hc'
    refine ⟨by simpa using hrec, ?_⟩
    rw [h.studentsOf_removeCourse]
    by_cases heq : c' = c
    · subst heq; rw [Function.update_self]
    · rw [Function.update_of_ne heq]; exact hstudents
  noStudents hno := h.noStudents (by simpa using hno)
  noCourses hno := h.noCourses (by simpa using hno)

theorem Known.addStudent (h : st.Known students courses) (s : Student) :
    (st.addStudent s).Known (students ++ [s.id]) courses where
  student s' hs' := by
    rw [List.mem_append, not_or, List.mem_singleton] at hs'
    obtain ⟨hrec, hcourses, hmem⟩ := h.student s' hs'.1
    refine ⟨?_, ?_, by simpa using hmem⟩
    · simpa [CoursewareState.addStudent, hs'.2] using hrec
    · rw [coursesOf_addStudent, Function.update_of_ne hs'.2]; exact hcourses
  course c hc := h.course c hc
  noStudents hno := by simp [CoursewareState.addStudent] at hno
  noCourses hno := h.noCourses hno

theorem Known.addCourse (h : st.Known students courses) (c : Course) :
    (st.addCourse c).Known students (courses ++ [c.id]) where
  student s hs := by
    obtain ⟨hrec, hcourses, hmem⟩ := h.student s hs
    refine ⟨hrec, by simpa using hcourses, fun c' => ?_⟩
    rw [studentsOf_addCourse]
    by_cases heq : c' = c.id
    · subst heq; rw [Function.update_self]; exact List.not_mem_nil
    · rw [Function.update_of_ne heq]; exact hmem c'
  course c' hc' := by
    rw [List.mem_append, not_or, List.mem_singleton] at hc'
    obtain ⟨hrec, hstudents⟩ := h.course c' hc'.1
    refine ⟨by simpa [CoursewareState.addCourse, hc'.2] using hrec, ?_⟩
    rw [studentsOf_addCourse, Function.update_of_ne hc'.2]
    exact hstudents
  noStudents hno := h.noStudents hno
  noCourses hno := by simp [CoursewareState.addCourse] at hno

/-- Who has a record was added. -/
theorem Known.mem_students (h : st.Known students courses) {s : Int} {r : Student × Json}
    (hr : st.student s = some r) : s ∈ students := by
  by_contra hs
  rw [(h.student s hs).1] at hr
  exact Option.some_ne_none r hr.symm

theorem Known.mem_courses (h : st.Known students courses) {c : Int} {r : Course × Json}
    (hr : st.course c = some r) : c ∈ courses := by
  by_contra hc
  rw [(h.course c hc).1] at hr
  exact Option.some_ne_none r hr.symm

theorem Known.addEnrollment (h : st.Known students courses) {s c : Int} (hs : s ∈ students)
    (hc : c ∈ courses) : (st.addEnrollment s c).Known students courses where
  student s' hs' := by
    obtain ⟨hrec, hcourses, hmem⟩ := h.student s' hs'
    have hne : s' ≠ s := fun heq => hs' (heq ▸ hs)
    refine ⟨hrec, ?_, fun c' => ?_⟩
    · rw [coursesOf_addEnrollment, Function.update_of_ne hne]; exact hcourses
    · rw [studentsOf_addEnrollment]
      by_cases heq : c' = c
      · subst heq
        rw [Function.update_self, List.mem_append, List.mem_singleton]
        exact fun hor => hor.elim (hmem c') hne
      · rw [Function.update_of_ne heq]; exact hmem c'
  course c' hc' := by
    obtain ⟨hrec, hstudents⟩ := h.course c' hc'
    have hne : c' ≠ c := fun heq => hc' (heq ▸ hc)
    refine ⟨hrec, ?_⟩
    rw [studentsOf_addEnrollment, Function.update_of_ne hne]
    exact hstudents
  noStudents hno := h.noStudents hno
  noCourses hno := h.noCourses hno

theorem Known.enroll (h : st.Known students courses) (narrow : String → Json) (s c : Int) :
    (st.enroll narrow s c).Known students courses := by
  rcases enroll_cases narrow st s c with ⟨henrolls, heq⟩ | ⟨-, heq | heq⟩
  · obtain ⟨student, course, status, hs, hc, -⟩ := henrolls
    rw [heq]
    exact h.addEnrollment (h.mem_students hs) (h.mem_courses hc)
  · rw [heq]; exact h
  · rw [heq]; exact h.setStatus _ _

/-- **A call leaves traces of what it adds only.** -/
theorem known_step (h : st.Known students courses) (narrow : String → Json) (op : CoursewareOp) :
    (st.step narrow op).Known (students ++ op.studentAdded.toList)
      (courses ++ op.courseAdded.toList) := by
  have same : op.studentAdded = none → op.courseAdded = none →
      (st.step narrow op).Known students courses →
      (st.step narrow op).Known (students ++ op.studentAdded.toList)
        (courses ++ op.courseAdded.toList) := by
    intro hs hc hknown
    rw [hs, hc, Option.toList_none, List.append_nil, List.append_nil]
    exact hknown
  cases op with
  | addStudent s =>
      rw [show (CoursewareOp.addStudent s).courseAdded.toList = [] from rfl, List.append_nil]
      exact h.addStudent s
  | addCourse c =>
      rw [show (CoursewareOp.addCourse c).studentAdded.toList = [] from rfl, List.append_nil]
      exact h.addCourse c
  | deleteStudent s => exact same rfl rfl ((h.setRegistered _ _).removeStudent _)
  | deleteCourse c => exact same rfl rfl ((h.setStatus _ _).removeCourse _)
  | registerStudent s => exact same rfl rfl (h.setRegistered _ _)
  | deregisterStudent s => exact same rfl rfl (h.setRegistered _ _)
  | openCourse c => exact same rfl rfl (h.setStatus _ _)
  | closeCourse c => exact same rfl rfl (h.setStatus _ _)
  | enroll s c => exact same rfl rfl (h.enroll narrow s c)
  | getEnrolledCourses s => exact same rfl rfl h
  | getEnrolledStudents c => exact same rfl rfl h
  | getEnrollments => exact same rfl rfl h

/-- **Only what was added leaves traces.** -/
theorem known_run (narrow : String → Json) (ops : List CoursewareOp) :
    (run narrow ops).Known (ops.filterMap CoursewareOp.studentAdded)
      (ops.filterMap CoursewareOp.courseAdded) := by
  induction ops using List.reverseRecOn with
  | nil => exact known_empty
  | append_singleton ops op ih =>
      rw [run_concat, List.filterMap_append, List.filterMap_append]
      have hstep := known_step ih narrow op
      cases op <;> exact hstep

end Known

end CoursewareState

/-! ## The store and the getters -/

namespace Courseware

open App CoursewareState

variable (narrow : String → Json) (calls : List CoursewareCall)

/-- The state that calls lead to. -/
def state : CoursewareState := run narrow (calls.map CoursewareCall.op)

theorem state_concat (call : CoursewareCall) :
    state narrow (calls ++ [call]) = (state narrow calls).step narrow call.op := by
  rw [state, List.map_append, List.map_singleton, run_concat, state]

theorem known_state : (state narrow calls).Known
    (calls.filterMap fun call => call.op.studentAdded)
    (calls.filterMap fun call => call.op.courseAdded) := by
  have h := known_run narrow (calls.map CoursewareCall.op)
  rwa [List.filterMap_map, List.filterMap_map] at h

/-- **The store holds the state that the calls lead to.** -/
theorem contents_after : Strong (after narrow calls)
    ∧ contents CoursewareKey.name (after narrow calls) = (state narrow calls).toMap := by
  have hinit : contents CoursewareKey.name (World.init .linearizable) = empty.toMap := by
    refine contents_init.trans ?_
    funext key
    cases key <;> rfl
  rw [state, CoursewareState.run, List.foldl_map]
  exact runAll_simulates CoursewareKey.name_injective
    (fun st call => onMap_program _ narrow st call.sessionId call.op) CoursewareCall.draws calls
    strong_init hinit

/-- What a getter returns is read off the state. -/
theorem result_after {α : Type} (p : App CoursewareKey α) (draws : Nat → Draws) :
    (App.run CoursewareKey.name p draws (after narrow calls)).1
      = (p.onMap (missing CoursewareKey.name) (state narrow calls).toMap).1 := by
  obtain ⟨hstrong, hcontents⟩ := contents_after narrow calls
  rw [← hcontents]
  exact (run_onMap CoursewareKey.name_injective p draws hstrong).1

section Getters

variable (sessionId : Int) (draws : Nat → Draws)

theorem getEnrolledCourses_after (s : Int) :
    (App.run CoursewareKey.name (getEnrolledCourses s sessionId) draws (after narrow calls)).1
      = .ok ((state narrow calls).coursesOf s) := by
  rw [result_after, getEnrolledCourses, onMap_getIds _ _ _ rfl]
  rfl

theorem getEnrolledStudents_after (c : Int) :
    (App.run CoursewareKey.name (getEnrolledStudents c sessionId) draws (after narrow calls)).1
      = .ok ((state narrow calls).studentsOf c) := by
  rw [result_after, getEnrolledStudents, onMap_getIds _ _ _ rfl]
  rfl

/-- `get_enrollments` reports the courses on the list, each with its students. -/
theorem getEnrollments_after :
    ∃ enrollments,
      (App.run CoursewareKey.name (getEnrollments sessionId) draws (after narrow calls)).1
          = .ok enrollments
        ∧ ∀ c ss, enrollments.lookup c = some ss
          ↔ (state narrow calls).IsCourse c ∧ ss = (state narrow calls).studentsOf c := by
  obtain ⟨enrollments, hrun, hlookup⟩ :=
    onMap_getEnrollments (missing CoursewareKey.name) (state narrow calls) sessionId
  exact ⟨enrollments, by rw [result_after, hrun], hlookup⟩

end Getters

end Courseware

end MockDB
