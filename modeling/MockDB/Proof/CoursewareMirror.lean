import MockDB.Lib.ListOrder
import MockDB.Proof.CoursewareCalls

/-!
# The two sides of an enrollment

Each enrollment is stored under the student and under the course. `enroll` writes both
sides, but looks at neither for a student who is in the course already, and a deletion
empties the side of what it deletes and leaves the other side alone. So the sides agree as
long as nobody enrolls twice and nothing with enrollments is deleted, and no longer.
-/

namespace MockDB

namespace CoursewareState

/-- Both sides have the same enrollments, each once. -/
structure Mirrored (st : CoursewareState) : Prop where
  agree : ∀ s c, c ∈ st.coursesOf s ↔ s ∈ st.studentsOf c
  courses : ∀ s, (st.coursesOf s).Nodup
  students : ∀ c, (st.studentsOf c).Nodup

/-- The next call enrolls nobody twice, and deletes nothing that has enrollments. -/
def KeepsMirrors (narrow : String → Json) (st : CoursewareState) : CoursewareOp → Prop
  | .enroll s c => st.Enrolls narrow s c → s ∉ st.studentsOf c
  | .deleteStudent s => st.coursesOf s.id = []
  | .deleteCourse c => st.studentsOf c.id = []
  | _ => True

section Step

variable {st : CoursewareState} {students courses : List Int}

theorem mirrored_empty : empty.Mirrored where
  agree _ _ := iff_of_false List.not_mem_nil List.not_mem_nil
  courses _ := List.nodup_nil
  students _ := List.nodup_nil

/-- Only the sides matter. -/
theorem mirrored_congr {st' : CoursewareState} (hc : st'.coursesOf = st.coursesOf)
    (hs : st'.studentsOf = st.studentsOf) : st'.Mirrored ↔ st.Mirrored := by
  constructor
  · rintro ⟨h1, h2, h3⟩
    exact ⟨by rwa [hc, hs] at h1, by rwa [hc] at h2, by rwa [hs] at h3⟩
  · rintro ⟨h1, h2, h3⟩
    exact ⟨by rwa [hc, hs], by rwa [hc], by rwa [hs]⟩

/-- Emptying a student's side alone keeps the sides the same just if it was empty. -/
theorem Mirrored.dropStudent (h : st.Mirrored) {st' : CoursewareState} {s : Int}
    (hc : st'.coursesOf = Function.update st.coursesOf s [])
    (hs : st'.studentsOf = st.studentsOf) : st'.Mirrored ↔ st.coursesOf s = [] := by
  constructor
  · intro h'
    rw [List.eq_nil_iff_forall_not_mem]
    intro c hmem
    have hother := (h.agree s c).mp hmem
    rw [← hs, ← h'.agree, hc, Function.update_self] at hother
    exact List.not_mem_nil hother
  · intro hnone
    rw [mirrored_congr (by rw [hc, ← hnone, Function.update_eq_self]) hs]
    exact h

theorem Mirrored.dropCourse (h : st.Mirrored) {st' : CoursewareState} {c : Int}
    (hc : st'.coursesOf = st.coursesOf)
    (hs : st'.studentsOf = Function.update st.studentsOf c []) :
    st'.Mirrored ↔ st.studentsOf c = [] := by
  constructor
  · intro h'
    rw [List.eq_nil_iff_forall_not_mem]
    intro s hmem
    have hother := (h.agree s c).mpr hmem
    rw [← hc, h'.agree, hs, Function.update_self] at hother
    exact List.not_mem_nil hother
  · intro hnone
    rw [mirrored_congr hc (by rw [hs, ← hnone, Function.update_eq_self])]
    exact h

/-- Enrolling keeps each enrollment once just if it is a new one. -/
theorem Mirrored.addEnrollment (h : st.Mirrored) (s c : Int) :
    (st.addEnrollment s c).Mirrored ↔ s ∉ st.studentsOf c := by
  constructor
  · intro h' hmem
    have hnodup := h'.students c
    rw [studentsOf_addEnrollment, Function.update_self] at hnodup
    exact (ListOrder.nodup_concat.mp hnodup).1 hmem
  · intro hnew
    have hnew' : c ∉ st.coursesOf s := fun hmem => hnew ((h.agree s c).mp hmem)
    refine ⟨fun s' c' => ?_, fun s' => ?_, fun c' => ?_⟩
    · rw [coursesOf_addEnrollment, studentsOf_addEnrollment]
      have hagree := h.agree s' c'
      by_cases hs : s' = s
      · by_cases hc : c' = c
        · subst hs hc; simp
        · subst hs; simpa [Function.update_of_ne hc, hc] using hagree
      · by_cases hc : c' = c
        · subst hc; simpa [Function.update_of_ne hs, hs] using hagree
        · simpa [Function.update_of_ne hs, Function.update_of_ne hc] using hagree
    · rw [coursesOf_addEnrollment]
      by_cases hs : s' = s
      · subst hs
        rw [Function.update_self]
        exact ListOrder.nodup_concat.mpr ⟨hnew', h.courses s'⟩
      · rw [Function.update_of_ne hs]; exact h.courses s'
    · rw [studentsOf_addEnrollment]
      by_cases hc : c' = c
      · subst hc
        rw [Function.update_self]
        exact ListOrder.nodup_concat.mpr ⟨hnew, h.students c'⟩
      · rw [Function.update_of_ne hc]; exact h.students c'

/-- **A call keeps the sides the same just if it enrolls nobody twice and deletes nothing
that has enrollments.** -/
theorem mirrored_step (narrow : String → Json) (hk : st.Known students courses)
    (h : st.Mirrored) {op : CoursewareOp} (hs : ∀ s, op.studentAdded = some s → s ∉ students)
    (hc : ∀ c, op.courseAdded = some c → c ∉ courses) :
    (st.step narrow op).Mirrored ↔ st.KeepsMirrors narrow op := by
  -- a call that leaves the sides as they are
  have same : ∀ {st' : CoursewareState}, st'.coursesOf = st.coursesOf →
      st'.studentsOf = st.studentsOf → (st'.Mirrored ↔ True) := fun h1 h2 =>
    (mirrored_congr h1 h2).trans (iff_true_intro h)
  cases op with
  | addStudent s =>
      have hnone : st.coursesOf s.id = [] := (hk.student s.id (hs s.id rfl)).2.1
      refine same ?_ rfl
      exact (coursesOf_addStudent st s).trans (by rw [← hnone, Function.update_eq_self])
  | addCourse c =>
      have hnone : st.studentsOf c.id = [] := (hk.course c.id (hc c.id rfl)).2
      refine same rfl ?_
      exact (studentsOf_addCourse st c).trans (by rw [← hnone, Function.update_eq_self])
  | deleteStudent s =>
      refine h.dropStudent ?_ (by simp [step])
      exact ((hk.setRegistered _ _).coursesOf_removeStudent s.id).trans (by simp)
  | deleteCourse c =>
      refine h.dropCourse (by simp [step]) ?_
      exact ((hk.setStatus _ _).studentsOf_removeCourse c.id).trans (by simp)
  | registerStudent s => exact same (by simp [step]) (by simp [step])
  | deregisterStudent s => exact same (by simp [step]) (by simp [step])
  | openCourse c => exact same (by simp [step]) (by simp [step])
  | closeCourse c => exact same (by simp [step]) (by simp [step])
  | enroll s c =>
      show (st.enroll narrow s c).Mirrored ↔ (st.Enrolls narrow s c → s ∉ st.studentsOf c)
      rcases enroll_cases narrow st s c with ⟨henrolls, heq⟩ | ⟨hnot, heq⟩
      · rw [heq, h.addEnrollment, forall_prop_of_true henrolls]
      · have hkept : (st.enroll narrow s c).Mirrored ↔ True := by
          rcases heq with heq | heq
          · exact same (by rw [heq]) (by rw [heq])
          · exact same (by rw [heq, coursesOf_setStatus]) (by rw [heq, studentsOf_setStatus])
        rw [hkept]
        exact ⟨fun _ henrolls => (hnot henrolls).elim, fun _ => trivial⟩
  | getEnrolledCourses s => exact same rfl rfl
  | getEnrolledStudents c => exact same rfl rfl
  | getEnrollments => exact same rfl rfl

end Step

end CoursewareState

namespace Courseware

open App CoursewareState

/-- What `get_enrolled_courses` and `get_enrolled_students` return agrees, for each student
and course and whoever asks. -/
def MirrorsAgree (w : World String Json) : Prop :=
  ∀ s c sessionId sessionId' draws draws', ∃ cs ss,
    (App.run CoursewareKey.name (getEnrolledCourses s sessionId) draws w).1 = .ok cs
      ∧ (App.run CoursewareKey.name (getEnrolledStudents c sessionId') draws' w).1 = .ok ss
      ∧ (c ∈ cs ↔ s ∈ ss) ∧ cs.Nodup ∧ ss.Nodup

/-- No student is seen as enrolled in the course, from either side. -/
def NobodyIn (c : Int) (w : World String Json) : Prop :=
  ∀ s sessionId sessionId' draws draws', ∃ cs ss,
    (App.run CoursewareKey.name (getEnrolledCourses s sessionId) draws w).1 = .ok cs
      ∧ (App.run CoursewareKey.name (getEnrolledStudents c sessionId') draws' w).1 = .ok ss
      ∧ c ∉ cs ∧ s ∉ ss

/-- The course was deleted, and since then no `enroll` in it was successful. -/
inductive DeletedSince (narrow : String → Json) (c : Int) : List CoursewareCall → Prop
  | deleted (done : List CoursewareCall) (call : CoursewareCall) (course : Course) :
      call.op = .deleteCourse course → course.id = c → DeletedSince narrow c (done ++ [call])
  | kept (done : List CoursewareCall) (call : CoursewareCall) :
      DeletedSince narrow c done →
      (∀ s, call.op = .enroll s c → ¬ (state narrow done).Enrolls narrow s c) →
      DeletedSince narrow c (done ++ [call])

variable (narrow : String → Json) (calls : List CoursewareCall)

/-- The getters agree just if the state's sides do. -/
theorem mirrorsAgree_after :
    MirrorsAgree (after narrow calls) ↔ (state narrow calls).Mirrored := by
  constructor
  · intro h
    have key : ∀ s c, (c ∈ (state narrow calls).coursesOf s ↔ s ∈ (state narrow calls).studentsOf c)
        ∧ ((state narrow calls).coursesOf s).Nodup
        ∧ ((state narrow calls).studentsOf c).Nodup := by
      intro s c
      obtain ⟨cs, ss, hcs, hss, hagree⟩ := h s c 0 0 (fun _ _ => 0) (fun _ _ => 0)
      rw [getEnrolledCourses_after] at hcs
      rw [getEnrolledStudents_after] at hss
      rw [Except.ok.inj hcs, Except.ok.inj hss]
      exact hagree
    exact ⟨fun s c => (key s c).1, fun s => (key s 0).2.1, fun c => (key 0 c).2.2⟩
  · intro h s c sessionId sessionId' draws draws'
    exact ⟨_, _, getEnrolledCourses_after narrow calls sessionId draws s,
      getEnrolledStudents_after narrow calls sessionId' draws' c, h.agree s c, h.courses s,
      h.students c⟩

/-- A call that enrolls nobody in the course brings it no students. -/
theorem studentsOf_step {st : CoursewareState} {students courses : List Int}
    (hk : st.Known students courses) {op : CoursewareOp} {c : Int} (hnone : st.studentsOf c = [])
    (hnot : ∀ s, op = .enroll s c → ¬ st.Enrolls narrow s c) :
    (st.step narrow op).studentsOf c = [] := by
  cases op with
  | addCourse c' =>
      show (st.addCourse c').studentsOf c = []
      rw [studentsOf_addCourse]
      by_cases heq : c = c'.id
      · rw [heq, Function.update_self]
      · rw [Function.update_of_ne heq]; exact hnone
  | deleteCourse c' =>
      show ((st.setStatus c'.id (narrow "close")).removeCourse c'.id).studentsOf c = []
      rw [(hk.setStatus _ _).studentsOf_removeCourse, studentsOf_setStatus]
      by_cases heq : c = c'.id
      · rw [heq, Function.update_self]
      · rw [Function.update_of_ne heq]; exact hnone
  | enroll s c' =>
      show (st.enroll narrow s c').studentsOf c = []
      rcases enroll_cases narrow st s c' with ⟨henrolls, heq⟩ | ⟨-, heq | heq⟩
      · have hne : c ≠ c' := fun hcc => hnot s (by rw [hcc]) (hcc ▸ henrolls)
        rw [heq, studentsOf_addEnrollment, Function.update_of_ne hne]
        exact hnone
      · rw [heq]; exact hnone
      · rw [heq, studentsOf_setStatus]; exact hnone
  | addStudent s => exact hnone
  | deleteStudent s => simpa [step] using hnone
  | registerStudent s => simpa [step] using hnone
  | deregisterStudent s => simpa [step] using hnone
  | openCourse c' => simpa [step] using hnone
  | closeCourse c' => simpa [step] using hnone
  | getEnrolledCourses s => exact hnone
  | getEnrolledStudents c' => exact hnone
  | getEnrollments => exact hnone

/-- A deleted course has no students on its own side. -/
theorem studentsOf_of_deletedSince {c : Int} {done : List CoursewareCall}
    (h : DeletedSince narrow c done) : (state narrow done).studentsOf c = [] := by
  induction h with
  | deleted done call course hop hid =>
      have hk := known_state narrow done
      rw [state_concat, hop]
      show (((state narrow done).setStatus course.id (narrow "close")).removeCourse
        course.id).studentsOf c = []
      rw [(hk.setStatus _ _).studentsOf_removeCourse, hid, Function.update_self]
  | kept done call _ hnot ih =>
      rw [state_concat]
      exact studentsOf_step narrow (known_state narrow done) ih hnot

/-- **The two sides agree after each call, and a deleted course is seen by nobody, just if
no call enrolls a student twice in a course or deletes what has enrollments.** -/
theorem mirrorsAgree_iff
    (hs : (calls.filterMap fun call => call.op.studentAdded).Nodup)
    (hc : (calls.filterMap fun call => call.op.courseAdded).Nodup) :
    (∀ done, done <+: calls →
        contents CoursewareKey.name (after narrow done) = (state narrow done).toMap)
      ∧ ((∀ done, done <+: calls → MirrorsAgree (after narrow done)
          ∧ ∀ c, DeletedSince narrow c done → NobodyIn c (after narrow done))
        ↔ ∀ done call, done ++ [call] <+: calls →
          (state narrow done).KeepsMirrors narrow call.op) := by
  refine ⟨fun done _ => (contents_after narrow done).2, ?_⟩
  have hmirrored : (∀ done, done <+: calls → (state narrow done).Mirrored)
      ↔ ∀ done call, done ++ [call] <+: calls →
        (state narrow done).KeepsMirrors narrow call.op := by
    refine ListOrder.forall_prefix_iff mirrored_empty fun done call hpre hdone => ?_
    rw [state_concat]
    exact mirrored_step narrow (known_state narrow done) hdone
      (fun s hadd => ListOrder.not_mem_of_nodup_filterMap hs hpre hadd)
      (fun c hadd => ListOrder.not_mem_of_nodup_filterMap hc hpre hadd)
  rw [← hmirrored]
  constructor
  · exact fun h done hdone => (mirrorsAgree_after narrow done).mp (h done hdone).1
  · intro h done hdone
    have hsides := h done hdone
    refine ⟨(mirrorsAgree_after narrow done).mpr hsides, fun c hdeleted => ?_⟩
    intro s sessionId sessionId' draws draws'
    have hnone := studentsOf_of_deletedSince narrow hdeleted
    refine ⟨_, _, getEnrolledCourses_after narrow done sessionId draws s,
      getEnrolledStudents_after narrow done sessionId' draws' c, ?_, ?_⟩
    · rw [hsides.agree, hnone]; exact List.not_mem_nil
    · rw [hnone]; exact List.not_mem_nil

/-- Student 7 enrolls in course 1, then the course is deleted. -/
def deletedCourse : List CoursewareCall :=
  let student : Student := ⟨7, "Grace", true, "r7"⟩
  let course : Course := ⟨1, "Logic", "CS", "new", 30⟩
  [.addStudent student, .addCourse course, .openCourse 1, .enroll 7 1, .deleteCourse course].map
    fun op => ⟨op, 0, fun _ => zeroDraws⟩

/-- After the deletion the student's side still has the course. -/
theorem mirrorsAgree_violated :
    (deletedCourse.filterMap fun call => call.op.studentAdded).Nodup
      ∧ (deletedCourse.filterMap fun call => call.op.courseAdded).Nodup
      ∧ DeletedSince Json.string 1 deletedCourse
      ∧ ¬ NobodyIn 1 (after Json.string deletedCourse)
      ∧ ¬ MirrorsAgree (after Json.string deletedCourse) := by
  refine ⟨by decide, by decide, .deleted (deletedCourse.take 4) _ _ rfl rfl, ?_, ?_⟩
  · intro h
    obtain ⟨cs, ss, hcs, -, hnot, -⟩ := h 7 0 0 (fun _ _ => 0) (fun _ _ => 0)
    rw [getEnrolledCourses_after] at hcs
    have hmem : 1 ∈ (state Json.string deletedCourse).coursesOf 7 := by decide
    exact hnot (Except.ok.inj hcs ▸ hmem)
  · rw [mirrorsAgree_after]
    intro h
    have hmem : 7 ∈ (state Json.string deletedCourse).studentsOf 1 :=
      (h.agree 7 1).mp (by decide)
    exact absurd hmem (by decide)

/-- The condition for these calls, which the last of them does not meet. -/
theorem mirrorsAgree_iff_deletedCourse :
    (∀ done, done <+: deletedCourse →
        contents CoursewareKey.name (after Json.string done) = (state Json.string done).toMap)
      ∧ ((∀ done, done <+: deletedCourse → MirrorsAgree (after Json.string done)
          ∧ ∀ c, DeletedSince Json.string c done → NobodyIn c (after Json.string done))
        ↔ ∀ done call, done ++ [call] <+: deletedCourse →
          (state Json.string done).KeepsMirrors Json.string call.op) :=
  mirrorsAgree_iff Json.string deletedCourse (by decide) (by decide)

end Courseware

end MockDB
