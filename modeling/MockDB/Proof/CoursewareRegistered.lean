import MockDB.Lib.ListOrder
import MockDB.Proof.CoursewareCalls

/-!
# Enrollments of registered students

`enroll` looks for a registered student when it enrolls, and at no list of students.
What it relied on can be withdrawn later: a student that is deregistered or deleted stays
in its courses. So enrollments are of registered students as long as nobody who is in a
course on the list of courses is withdrawn, and as long as who enrolls in one is on the list
of students.
-/

namespace MockDB

namespace CoursewareState

/-- Who is in a course on the list of courses is on the list of students, and registered. -/
def OnlyRegistered (st : CoursewareState) : Prop :=
  ∀ c s, st.IsCourse c → s ∈ st.studentsOf c →
    st.IsStudent s ∧ ∃ student, st.student s = some (student, .bool true)

/-- The next call withdraws nobody who is in a course, and enrolls nobody who is not on the
list of students, as far as courses on the list of courses go. -/
def KeepsRegistered (narrow : String → Json) (st : CoursewareState) : CoursewareOp → Prop
  | .deregisterStudent s => ∀ c, st.IsCourse c → s ∉ st.studentsOf c
  | .deleteStudent s => ∀ c, st.IsCourse c → s.id ∉ st.studentsOf c
  | .enroll s c => st.Enrolls narrow s c → st.IsCourse c → st.IsStudent s
  | _ => True

section Step

variable {st : CoursewareState} {students courses : List Int}

theorem onlyRegistered_empty : empty.OnlyRegistered := by
  intro c s hc
  exact (List.not_mem_nil hc).elim

/-- Marking a student as not registered keeps the rule just if it is in no course. -/
theorem OnlyRegistered.withdraw (h : st.OnlyRegistered) {st' : CoursewareState} {s : Int}
    (hcourses : st'.courses = st.courses) (hsides : st'.studentsOf = st.studentsOf)
    (hstudents : ∀ s', s' ≠ s → st.IsStudent s' → st'.IsStudent s')
    (hrecord : st'.student
      = Function.update st.student s ((st.student s).map fun r => (r.1, .number 0))) :
    st'.OnlyRegistered ↔ ∀ c, st.IsCourse c → s ∉ st.studentsOf c := by
  have hcourse : ∀ c, st'.IsCourse c ↔ st.IsCourse c := fun c => by
    unfold IsCourse; rw [hcourses]
  constructor
  · intro h' c hc hmem
    obtain ⟨-, student, hreg⟩ := h' c s ((hcourse c).mpr hc) (hsides ▸ hmem)
    rw [hrecord, Function.update_self] at hreg
    obtain ⟨r, -, hr⟩ := Option.map_eq_some_iff.mp hreg
    exact Json.noConfusion (Prod.mk.inj hr).2
  · intro hnone c s' hc hmem
    rw [hcourse] at hc
    rw [hsides] at hmem
    have hne : s' ≠ s := fun heq => hnone c hc (heq ▸ hmem)
    obtain ⟨hlisted, hreg⟩ := h c s' hc hmem
    refine ⟨hstudents s' hne hlisted, ?_⟩
    rw [hrecord, Function.update_of_ne hne]
    exact hreg

theorem OnlyRegistered.registerStudent (h : st.OnlyRegistered) (s : Int) :
    (st.setRegistered s (.bool true)).OnlyRegistered := by
  intro c s' hc hmem
  unfold IsCourse at hc
  rw [courses_setRegistered] at hc
  rw [studentsOf_setRegistered] at hmem
  obtain ⟨hlisted, student, hreg⟩ := h c s' hc hmem
  refine ⟨by unfold IsStudent; rwa [students_setRegistered], student, ?_⟩
  rw [student_setRegistered]
  by_cases heq : s' = s
  · subst heq; rw [Function.update_self, hreg]; rfl
  · rw [Function.update_of_ne heq]; exact hreg

theorem OnlyRegistered.setStatus (h : st.OnlyRegistered) (c : Int) (v : Json) :
    (st.setStatus c v).OnlyRegistered := by
  intro c' s hc hmem
  unfold IsCourse at hc
  rw [courses_setStatus] at hc
  rw [studentsOf_setStatus] at hmem
  obtain ⟨hlisted, hreg⟩ := h c' s hc hmem
  exact ⟨by unfold IsStudent; rwa [students_setStatus], by rwa [student_setStatus]⟩

theorem OnlyRegistered.removeCourse (h : st.OnlyRegistered) (hk : st.Known students courses)
    (c : Int) : (st.removeCourse c).OnlyRegistered := by
  intro c' s hc hmem
  rw [hk.studentsOf_removeCourse] at hmem
  by_cases heq : c' = c
  · rw [heq, Function.update_self] at hmem
    exact (List.not_mem_nil hmem).elim
  · rw [Function.update_of_ne heq] at hmem
    have hlisted : st.IsCourse c' := by
      unfold IsCourse at hc ⊢
      rw [courses_removeCourse] at hc
      cases hcs : st.courses with
      | none => rw [hcs] at hc; exact (List.not_mem_nil hc).elim
      | some ids => rw [hcs] at hc; exact (List.mem_filter.mp hc).1
    obtain ⟨hstudent, hreg⟩ := h c' s hlisted hmem
    exact ⟨by unfold IsStudent; rwa [students_removeCourse], by rwa [student_removeCourse]⟩

theorem OnlyRegistered.addStudent (h : st.OnlyRegistered) (hk : st.Known students courses)
    {s : Student} (hnew : s.id ∉ students) : (st.addStudent s).OnlyRegistered := by
  intro c s' hc hmem
  have hne : s' ≠ s.id := fun heq => (hk.student s.id hnew).2.2 c (heq ▸ hmem)
  obtain ⟨hlisted, student, hreg⟩ := h c s' hc hmem
  refine ⟨List.mem_append_left _ hlisted, student, ?_⟩
  exact (Function.update_of_ne hne _ st.student).trans hreg

theorem OnlyRegistered.addCourse (h : st.OnlyRegistered) (c : Course) :
    (st.addCourse c).OnlyRegistered := by
  intro c' s hc hmem
  rw [studentsOf_addCourse] at hmem
  by_cases heq : c' = c.id
  · rw [heq, Function.update_self] at hmem
    exact (List.not_mem_nil hmem).elim
  · rw [Function.update_of_ne heq] at hmem
    have hlisted : st.IsCourse c' := by
      rcases List.mem_append.mp hc with hold | hnew
      · exact hold
      · exact (heq (List.mem_singleton.mp hnew)).elim
    exact h c' s hlisted hmem

/-- Enrolling keeps the rule just if the student is on the list. -/
theorem OnlyRegistered.addEnrollment (h : st.OnlyRegistered) {narrow : String → Json} {s c : Int}
    (henrolls : st.Enrolls narrow s c) :
    (st.addEnrollment s c).OnlyRegistered ↔ (st.IsCourse c → st.IsStudent s) := by
  constructor
  · intro h' hc
    refine (h' c s hc ?_).1
    rw [studentsOf_addEnrollment, Function.update_self]
    exact List.mem_append_right _ List.mem_cons_self
  · intro hlisted c' s' hc hmem
    rw [studentsOf_addEnrollment] at hmem
    by_cases heq : c' = c
    · subst heq
      rw [Function.update_self, List.mem_append, List.mem_singleton] at hmem
      rcases hmem with hold | rfl
      · exact h c' s' hc hold
      · obtain ⟨student, -, -, hreg, -⟩ := henrolls
        exact ⟨hlisted hc, student, hreg⟩
    · rw [Function.update_of_ne heq] at hmem
      exact h c' s' hc hmem

/-- **A call keeps the rule just if it withdraws nobody who is in a course and enrolls only
who is on the list.** -/
theorem onlyRegistered_step (narrow : String → Json) (hk : st.Known students courses)
    (h : st.OnlyRegistered) {op : CoursewareOp}
    (hs : ∀ s, op.studentAdded = some s → s ∉ students) :
    (st.step narrow op).OnlyRegistered ↔ st.KeepsRegistered narrow op := by
  cases op with
  | addStudent s => exact iff_of_true (h.addStudent hk (hs s.id rfl)) trivial
  | addCourse c => exact iff_of_true (h.addCourse c) trivial
  | deleteStudent s =>
      refine h.withdraw (by simp [step]) (by simp [step]) (fun s' hne hlisted => ?_)
        (by simp [step, student_setRegistered])
      unfold IsStudent at hlisted ⊢
      cases hids : st.students with
      | none => rw [hids] at hlisted; exact (List.not_mem_nil hlisted).elim
      | some ids => rw [hids] at hlisted; simpa [step, hids, hne] using hlisted
  | deleteCourse c =>
      exact iff_of_true ((h.setStatus _ _).removeCourse (hk.setStatus _ _) _) trivial
  | registerStudent s => exact iff_of_true (h.registerStudent s) trivial
  | deregisterStudent s =>
      refine h.withdraw (by simp [step]) (by simp [step]) (fun s' _ hlisted => ?_)
        (by simp [step, student_setRegistered])
      unfold IsStudent at hlisted ⊢
      simpa [step] using hlisted
  | openCourse c => exact iff_of_true (h.setStatus _ _) trivial
  | closeCourse c => exact iff_of_true (h.setStatus _ _) trivial
  | enroll s c =>
      show (st.enroll narrow s c).OnlyRegistered
        ↔ (st.Enrolls narrow s c → st.IsCourse c → st.IsStudent s)
      rcases enroll_cases narrow st s c with ⟨henrolls, heq⟩ | ⟨hnot, heq⟩
      · rw [heq, h.addEnrollment henrolls, forall_prop_of_true henrolls]
      · refine iff_of_true ?_ fun henrolls => (hnot henrolls).elim
        rcases heq with heq | heq
        · rw [heq]; exact h
        · rw [heq]; exact h.setStatus _ _
  | getEnrolledCourses s => exact iff_of_true h trivial
  | getEnrolledStudents c => exact iff_of_true h trivial
  | getEnrollments => exact iff_of_true h trivial

end Step

end CoursewareState

namespace Courseware

open App CoursewareState

/-- The list stored under `key` has `id` on it. -/
def Listed (w : World String Json) (key : CoursewareKey) (id : Int) : Prop :=
  ∃ value list, contents CoursewareKey.name w key = some value
    ∧ value.elements "list" = some list ∧ Json.number id ∈ list

/-- The record of a student says `registered`. -/
def MarkedRegistered (w : World String Json) (s : Int) : Prop :=
  ∃ details, contents CoursewareKey.name w (.student s) = some details
    ∧ details.field "registered" = some (.bool true)

/-- Each course that `get_enrollments` reports is on the list of courses, and each student it
reports is on the list of students and registered, whoever asks. -/
def EnrollmentsRegistered (w : World String Json) : Prop :=
  ∀ sessionId draws, ∃ enrollments,
    (App.run CoursewareKey.name (getEnrollments sessionId) draws w).1 = .ok enrollments
      ∧ ∀ c ss, enrollments.lookup c = some ss →
        Listed w .courses c ∧ ∀ s ∈ ss, Listed w .students s ∧ MarkedRegistered w s

section After

variable (narrow : String → Json) (calls : List CoursewareCall)

/-- A list that was read off the state. -/
theorem listed_after (key : CoursewareKey) {ids : Option (List Int)}
    (hkey : (state narrow calls).toMap key = ids.map (Json.idList "list")) (id : Int) :
    Listed (after narrow calls) key id ↔ id ∈ ids.getD [] := by
  unfold Listed
  rw [(contents_after narrow calls).2, hkey]
  cases ids with
  | none => exact iff_of_false (by simp) List.not_mem_nil
  | some ids =>
      constructor
      · rintro ⟨value, list, hvalue, hlist, hmem⟩
        rw [← Option.some.inj hvalue, Json.elements_idList] at hlist
        rw [← Option.some.inj hlist] at hmem
        obtain ⟨id', hmem', heq⟩ := List.mem_map.mp hmem
        exact Json.number.inj heq ▸ hmem'
      · intro hmem
        exact ⟨_, _, rfl, Json.elements_idList ids, List.mem_map_of_mem hmem⟩

theorem markedRegistered_after (s : Int) : MarkedRegistered (after narrow calls) s
    ↔ ∃ student, (state narrow calls).student s = some (student, .bool true) := by
  unfold MarkedRegistered
  rw [(contents_after narrow calls).2]
  have hkey : (state narrow calls).toMap (.student s)
      = ((state narrow calls).student s).map studentRecord := rfl
  rw [hkey]
  constructor
  · rintro ⟨details, hdetails, hfield⟩
    obtain ⟨r, hr, hrecord⟩ := Option.map_eq_some_iff.mp hdetails
    rw [← hrecord, field_registered] at hfield
    exact ⟨r.1, hr.trans (by rw [← Option.some.inj hfield])⟩
  · rintro ⟨student, hr⟩
    exact ⟨studentRecord (student, .bool true), by rw [hr]; rfl, field_registered _⟩

theorem enrollmentsRegistered_after :
    EnrollmentsRegistered (after narrow calls) ↔ (state narrow calls).OnlyRegistered := by
  have hcourses := listed_after narrow calls .courses rfl
  have hstudents := listed_after narrow calls .students rfl
  constructor
  · intro h c s hc hmem
    obtain ⟨enrollments, hrun, hall⟩ := h 0 fun _ _ => 0
    obtain ⟨reported, hrun', hlookup⟩ := getEnrollments_after narrow calls 0 fun _ _ => 0
    rw [hrun'] at hrun
    have heq := Except.ok.inj hrun
    subst heq
    obtain ⟨hlisted, hmarked⟩ := (hall c _ ((hlookup c _).mpr ⟨hc, rfl⟩)).2 s hmem
    exact ⟨(hstudents s).mp hlisted, (markedRegistered_after narrow calls s).mp hmarked⟩
  · intro h sessionId draws
    obtain ⟨reported, hrun, hlookup⟩ := getEnrollments_after narrow calls sessionId draws
    refine ⟨reported, hrun, fun c ss hss => ?_⟩
    obtain ⟨hc, rfl⟩ := (hlookup c ss).mp hss
    refine ⟨(hcourses c).mpr hc, fun s hmem => ?_⟩
    obtain ⟨hlisted, hmarked⟩ := h c s hc hmem
    exact ⟨(hstudents s).mpr hlisted, (markedRegistered_after narrow calls s).mpr hmarked⟩

end After

/-- **After each call the enrollments reported are of registered students and existing
courses, just if no call withdraws a student who is in a course, or enrolls one who is not
on the list of students.** Courses may be added more than once. -/
theorem enrollmentsRegistered_iff (narrow : String → Json) (calls : List CoursewareCall)
    (hs : (calls.filterMap fun call => call.op.studentAdded).Nodup) :
    (∀ done, done <+: calls →
        contents CoursewareKey.name (after narrow done) = (state narrow done).toMap)
      ∧ ((∀ done, done <+: calls → EnrollmentsRegistered (after narrow done))
        ↔ ∀ done call, done ++ [call] <+: calls →
          (state narrow done).KeepsRegistered narrow call.op) := by
  refine ⟨fun done _ => (contents_after narrow done).2, ?_⟩
  simp only [enrollmentsRegistered_after]
  refine ListOrder.forall_prefix_iff onlyRegistered_empty fun done call hpre hdone => ?_
  rw [state_concat]
  exact onlyRegistered_step narrow (known_state narrow done) hdone
    (fun s hadd => ListOrder.not_mem_of_nodup_filterMap hs hpre hadd)

/-- Student 7 enrolls in course 1, then is deregistered. -/
def deregistered : List CoursewareCall :=
  [.addStudent ⟨7, "Grace", true, "r7"⟩, .addCourse ⟨1, "Logic", "CS", "new", 30⟩, .openCourse 1,
    .enroll 7 1, .deregisterStudent 7].map fun op => ⟨op, 0, fun _ => zeroDraws⟩

/-- The deregistered student is still reported. -/
theorem enrollmentsRegistered_violated :
    (deregistered.filterMap fun call => call.op.studentAdded).Nodup
      ∧ (deregistered.filterMap fun call => call.op.courseAdded).Nodup
      ∧ ¬ EnrollmentsRegistered (after Json.string deregistered) := by
  refine ⟨by decide, by decide, ?_⟩
  rw [enrollmentsRegistered_after]
  intro h
  obtain ⟨-, student, hreg⟩ := h 1 7 (by unfold IsCourse; decide) (by decide)
  have hrecord : (state Json.string deregistered).student 7
      = some (⟨7, "Grace", true, "r7"⟩, .number 0) := rfl
  rw [hrecord] at hreg
  exact Json.noConfusion (Prod.mk.inj (Option.some.inj hreg)).2

/-- The condition for these calls, which the last of them does not meet. -/
theorem enrollmentsRegistered_iff_deregistered :
    (∀ done, done <+: deregistered →
        contents CoursewareKey.name (after Json.string done) = (state Json.string done).toMap)
      ∧ ((∀ done, done <+: deregistered → EnrollmentsRegistered (after Json.string done))
        ↔ ∀ done call, done ++ [call] <+: deregistered →
          (state Json.string done).KeepsRegistered Json.string call.op) :=
  enrollmentsRegistered_iff Json.string deregistered (by decide)

end Courseware

end MockDB
