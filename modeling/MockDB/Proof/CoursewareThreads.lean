import MockDB.Proof.CoursewareRun
import MockDB.Proof.KeyNames
import MockDB.Proof.Threads

/-!
# Courseware, under any isolation

Each version of an enrollment list has ids that calls to `enroll` put there, and each version of
a record is one that a call left. So nobody is enrolled by a race who was not by a call. The
one exception there is comes from `deregister_student`, which stores a number where `enroll`
reads a Boolean: without it and `delete_student` no call throws, whatever it reads.
-/

namespace MockDB

namespace Courseware

open App CoursewareState

/-- What calls do of what shows in others. -/
structure Calls where
  Enrolls : Int → Int → Prop
  Withdraws : Int → Prop
  AddsCourse : Int → Prop

variable (c : Calls)

/-- What every version under a key is. -/
def Calls.Fits : CoursewareKey → Json → Prop
  | .students, v => ∃ ids, v = Json.idList "list" ids
  | .courses, v => ∃ ids, v = Json.idList "list" ids ∧ ∀ id ∈ ids, c.AddsCourse id
  | .student id, v => ∃ r, v = studentRecord r
      ∧ ((∃ registered, r.2 = .bool registered) ∨ (r.2 = .number 0 ∧ c.Withdraws id))
  | .course _, v => ∃ r, v = courseRecord r
  | .enrollmentStudent s, v => ∃ ids, v = Json.idList "list" ids ∧ ∀ id ∈ ids, c.Enrolls s id
  | .enrollmentCourse id, v => ∃ ids, v = Json.idList "list" ids ∧ ∀ s ∈ ids, c.Enrolls s id

variable {c} {miss : CoursewareKey → StoreException String}

/-- Operations return, whatever versions they read. -/
abbrev Returns {α : Type} (c : Calls) (miss : CoursewareKey → StoreException String)
    (p : App CoursewareKey α) (Q : α → Prop) : Prop :=
  Program.Returns c.Fits (fun _ => False) miss p Q

/-! ## One lemma for each operation -/

theorem returns_updateField {key : CoursewareKey} {field : String} (v : Json) (s : Int)
    (hset : ∀ value, c.Fits key value →
      ∃ value', value.setField field v = some value' ∧ c.Fits key value') :
    Returns c miss (updateField key field v s) fun _ => True := by
  refine attempt_get_then s (Program.returns_pure trivial) fun value hvalue => ?_
  obtain ⟨value', heq, hfits⟩ := hset value hvalue
  exact json_then heq (returns_put s hfits trivial)

theorem returns_status (id : Int) (v : Json) (s : Int) :
    Returns c miss (updateField (.course id) "status" v s) fun _ => True := by
  refine returns_updateField v s fun value hvalue => ?_
  obtain ⟨r, rfl⟩ := hvalue
  exact ⟨_, setField_status r v, (r.1, v), rfl⟩

theorem returns_registered {id : Int} {v : Json} (s : Int)
    (hv : (∃ registered, v = .bool registered) ∨ (v = .number 0 ∧ c.Withdraws id)) :
    Returns c miss (updateField (.student id) "registered" v s) fun _ => True := by
  refine returns_updateField v s fun value hvalue => ?_
  obtain ⟨r, rfl, -⟩ := hvalue
  exact ⟨_, setField_registered r v, (r.1, v), rfl, hv⟩

theorem returns_appendTo {key : CoursewareKey} {ids : List Int} {id : Int} (s : Int)
    (hkey : c.Fits key (Json.idList "list" (ids ++ [id]))) :
    Returns c miss (appendTo key (Json.idList "list" ids) ids.length id s) fun _ => True :=
  json_then (Json.appendAt_idList ids Json.list_ne_count id) (returns_put s hkey trivial)

/-- A list that was read, or a new one. -/
theorem returns_list {key : CoursewareKey} (s : Int) (hnew : c.Fits key (Json.idList "list" [])) :
    Returns c miss (getList "list" key s) (c.Fits key) :=
  returns_getList Json.list_ne_count s hnew fun _ hv => hv

theorem returns_newList {key : CoursewareKey} (s : Int)
    (hnew : c.Fits key (Json.idList "list" [])) :
    Returns c miss (json (Json.null.setList "list" [] 0) >>= fun list => put key list s)
      fun _ => True :=
  json_then Json.setList_list_null (returns_put s hnew trivial)

theorem returns_addStudent (student : Student) (s : Int) :
    Returns c miss (addStudent student s) fun _ => True := by
  have hnew : c.Fits .students (Json.idList "list" []) := ⟨[], rfl⟩
  refine (returns_list s hnew).bind fun students hv => ?_
  obtain ⟨ids, rfl⟩ := hv
  have hlist : c.Fits .students (Json.idList "list" (ids ++ [student.id])) := ⟨_, rfl⟩
  have hdetails : c.Fits (.student student.id) (studentDetails student) :=
    ⟨(student, .bool student.registered), rfl, Or.inl ⟨_, rfl⟩⟩
  have hcourses : c.Fits (.enrollmentStudent student.id) (Json.idList "list" []) :=
    ⟨[], rfl, fun _ h => nomatch h⟩
  refine json_then (Json.count_idList ids Json.list_ne_count) ?_
  refine (returns_appendTo s hlist).bind fun _ _ => put_then s hdetails ?_
  exact returns_newList s hcourses

theorem returns_addCourse {course : Course} (hadds : c.AddsCourse course.id) (s : Int) :
    Returns c miss (addCourse course s) fun _ => True := by
  have hnew : c.Fits .courses (Json.idList "list" []) := ⟨[], rfl, fun _ h => nomatch h⟩
  refine (returns_list s hnew).bind fun courses hv => ?_
  obtain ⟨ids, rfl, hids⟩ := hv
  have hlist : c.Fits .courses (Json.idList "list" (ids ++ [course.id])) := by
    refine ⟨_, rfl, fun id hid => ?_⟩
    rcases List.mem_append.mp hid with hold | hlast
    · exact hids id hold
    · exact List.mem_singleton.mp hlast ▸ hadds
  have hdetails : c.Fits (.course course.id) (courseDetails course) :=
    ⟨(course, .string course.status), rfl⟩
  have hstudents : c.Fits (.enrollmentCourse course.id) (Json.idList "list" []) :=
    ⟨[], rfl, fun _ h => nomatch h⟩
  refine json_then (Json.count_idList ids Json.list_ne_count) ?_
  refine (returns_appendTo s hlist).bind fun _ _ => put_then s hdetails ?_
  exact returns_newList s hstudents

theorem returns_deleteFrom {listKey enrollmentKey : CoursewareKey} (id s : Int)
    (hlist : ∀ v, c.Fits listKey v → ∃ ids, v = Json.idList "list" ids
      ∧ c.Fits listKey (Json.idList "list" (ids.filter fun i => i ≠ id)))
    (hempty : c.Fits enrollmentKey (Json.idList "list" [])) :
    Returns c miss (deleteFrom listKey enrollmentKey id s) fun _ => True := by
  refine attempt_get_then s (Program.returns_pure trivial) fun v hv => ?_
  obtain ⟨ids, rfl, hrest⟩ := hlist v hv
  have hset := Json.setList_idList (ids.filter fun i => i ≠ id) Json.list_ne_count []
  refine json_then (Json.removeFrom_idList ids Json.list_ne_count id) (put_then s hrest ?_)
  exact json_then hset (returns_put s hempty trivial)

theorem returns_deleteStudent {student : Student} (hwithdraws : c.Withdraws student.id) (s : Int) :
    Returns c miss (deleteStudent student s) fun _ => True := by
  have hempty : c.Fits (.enrollmentStudent student.id) (Json.idList "list" []) :=
    ⟨[], rfl, fun _ h => nomatch h⟩
  refine (returns_registered s (Or.inr ⟨rfl, hwithdraws⟩)).bind fun _ _ => ?_
  refine returns_deleteFrom student.id s (fun v hv => ?_) hempty
  obtain ⟨ids, rfl⟩ := hv
  exact ⟨ids, rfl, _, rfl⟩

variable (narrow : String → Json)

theorem returns_deleteCourse (course : Course) (s : Int) :
    Returns c miss (deleteCourse narrow course s) fun _ => True := by
  have hempty : c.Fits (.enrollmentCourse course.id) (Json.idList "list" []) :=
    ⟨[], rfl, fun _ h => nomatch h⟩
  refine (returns_status course.id _ s).bind fun _ _ => ?_
  refine returns_deleteFrom course.id s (fun v hv => ?_) hempty
  obtain ⟨ids, rfl, hids⟩ := hv
  exact ⟨ids, rfl, _, rfl, fun id hid => hids id (List.mem_filter.mp hid).1⟩

/-- A list of enrollments gets one more if `enroll` put it there. -/
theorem fits_enrolled {student course : Int} (henrolls : c.Enrolls student course) :
    (∀ ids, c.Fits (.enrollmentCourse course) (Json.idList "list" ids) →
        c.Fits (.enrollmentCourse course) (Json.idList "list" (ids ++ [student])))
      ∧ ∀ ids, c.Fits (.enrollmentStudent student) (Json.idList "list" ids) →
        c.Fits (.enrollmentStudent student) (Json.idList "list" (ids ++ [course])) := by
  refine ⟨fun ids h => ⟨_, rfl, fun id hid => ?_⟩, fun ids h => ⟨_, rfl, fun id hid => ?_⟩⟩
  all_goals
    obtain ⟨ids', heq, hids⟩ := h
    obtain rfl := Json.idList_inj.mp heq
    rcases List.mem_append.mp hid with hold | hlast
    · exact hids id hold
    · exact List.mem_singleton.mp hlast ▸ henrolls

/-- What `enroll` does for a registered student and an open course. -/
theorem returns_place {student course : Int} (henrolls : c.Enrolls student course)
    (details : Course × Json) (s : Int) :
    Returns c miss (do
      let courseEnrollment ← getList "list" (.enrollmentCourse course) s
      let studentCount ← json courseEnrollment.count
      let capacity ← json (((courseRecord details).field "capacity").bind Json.asInteger)
      if studentCount ≥ capacity then closeCourse narrow course s
      else
        appendTo (.enrollmentCourse course) courseEnrollment studentCount student s
        let studentEnrollment ← getList "list" (.enrollmentStudent student) s
        let courseCount ← json studentEnrollment.count
        appendTo (.enrollmentStudent student) studentEnrollment courseCount course s)
      fun _ => True := by
  obtain ⟨hcourse, hstudent⟩ := fits_enrolled henrolls
  have hnobody : c.Fits (.enrollmentCourse course) (Json.idList "list" []) :=
    ⟨[], rfl, fun _ h => nomatch h⟩
  have hnothing : c.Fits (.enrollmentStudent student) (Json.idList "list" []) :=
    ⟨[], rfl, fun _ h => nomatch h⟩
  refine (returns_list s hnobody).bind fun courseEnrollment hv => ?_
  obtain ⟨students, rfl, hstudents⟩ := hv
  refine json_then (Json.count_idList students Json.list_ne_count) ?_
  have hcapacity : ((courseRecord details).field "capacity").bind Json.asInteger
      = some details.1.capacity := by
    rw [field_capacity]
    rfl
  refine json_then hcapacity ?_
  by_cases hfull : (students.length : Int) ≥ details.1.capacity
  · rw [if_pos hfull]
    exact returns_status course _ s
  · rw [if_neg hfull]
    refine (returns_appendTo s (hcourse students ⟨_, rfl, hstudents⟩)).bind fun _ _ => ?_
    refine (returns_list s hnothing).bind fun studentEnrollment hv => ?_
    obtain ⟨courses, rfl, hcourses⟩ := hv
    refine json_then (Json.count_idList courses Json.list_ne_count) ?_
    exact returns_appendTo s (hstudent courses ⟨_, rfl, hcourses⟩)

/-- The only exception of `enroll` is that of a record which a withdrawal has left. -/
theorem among_enroll {student course : Int} (henrolls : c.Enrolls student course) (s : Int) :
    (enroll narrow student course s).among c.Fits (fun _ => False) miss fun r =>
      ∀ e, r = .error e → c.Withdraws student ∧ e = .json := by
  refine Program.Returns.then (R := fun res => ∀ p : Json × Json, res = .ok p →
      c.Fits (.student student) p.1 ∧ c.Fits (.course course) p.2)
    (Program.Returns.attempt ?_) fun res hres => ?_
  · refine ⟨fun _ p heq => (nomatch heq), fun v hv => ⟨fun _ p heq => (nomatch heq), ?_⟩⟩
    exact fun v' hv' p heq => Except.ok.inj heq ▸ ⟨hv, hv'⟩
  · match res, hres with
    | .error e, _ => exact fun _ heq => nomatch heq
    | .ok (studentDetails, courseDetails), hres =>
        obtain ⟨⟨r, rfl, hregistered⟩, details, rfl⟩ := hres _ rfl
        have hfield : ((studentRecord r).field "registered").bind Json.asBool = r.2.asBool := by
          rw [field_registered, Option.bind_some]
        rcases hregistered with ⟨registered, hr⟩ | ⟨hr, hwithdraws⟩
        · have hbool := hfield.trans (congrArg Json.asBool hr)
          refine Program.among_mono (json_then (Q := fun _ => True) hbool ?_)
            fun _ ⟨_, hok, _⟩ _ heq => nomatch hok.symm.trans heq
          cases registered with
          | false => exact Program.returns_pure trivial
          | true =>
              refine json_then (field_status details) ?_
              by_cases hopen : details.2.sameStatus (narrow "open") = false
              · rw [if_pos hopen]
                exact Program.returns_pure trivial
              · rw [if_neg hopen]
                exact returns_place narrow henrolls details s
        · have hnumber := hfield.trans (congrArg Json.asBool hr)
          refine json_raises hnumber fun e heq => ?_
          cases heq
          exact ⟨hwithdraws, rfl⟩

theorem returns_getIds (key : CoursewareKey) {In : Int → Prop}
    (hkey : ∀ v, c.Fits key v → ∃ ids, v = Json.idList "list" ids ∧ ∀ id ∈ ids, In id) (s : Int) :
    Returns c miss (getIds key s) fun ids => ∀ id ∈ ids, In id := by
  refine attempt_get_then s (Program.returns_pure fun _ h => nomatch h) fun v hv => ?_
  obtain ⟨ids, rfl, hids⟩ := hkey v hv
  exact json_then (Json.elements_idList ids) (returns_json (Json.mapM_asInteger ids) hids)

/-- Enrollments that calls made, in courses that calls added. -/
def Calls.Lists (c : Calls) (enrollments : UnorderedMap Int (List Int)) : Prop :=
  ∀ id students, enrollments.lookup id = some students →
    c.AddsCourse id ∧ ∀ s ∈ students, c.Enrolls s id

theorem returns_enrollmentsOf (s : Int) {ids : List Int} (hids : ∀ id ∈ ids, c.AddsCourse id)
    {found : UnorderedMap Int (List Int)} (hfound : c.Lists found) :
    Returns c miss (enrollmentsOf s (ids.map Json.number) found) c.Lists := by
  induction ids generalizing found with
  | nil => exact Program.returns_pure hfound
  | cons id ids ih =>
      refine json_then (a := id) rfl ?_
      refine (returns_getIds (.enrollmentCourse id) (fun _ hv => hv) s).bind fun students h => ?_
      refine ih (fun id' hid' => hids id' (List.mem_cons_of_mem _ hid')) fun id' students' hl => ?_
      by_cases hid : id' = id
      · subst hid
        rw [AList.lookup_insert] at hl
        exact ⟨hids id' List.mem_cons_self, Option.some.inj hl ▸ h⟩
      · rw [AList.lookup_insert_ne hid] at hl
        exact hfound id' students' hl

theorem returns_getEnrollments (s : Int) : Returns c miss (getEnrollments s) c.Lists := by
  have hnone : c.Lists ∅ := fun id students h => by rw [AList.lookup_empty] at h; cases h
  refine attempt_get_then s (Program.returns_pure hnone) fun v hv => ?_
  obtain ⟨ids, rfl, hids⟩ := hv
  exact json_then (Json.elements_idList ids) (returns_enrollmentsOf s hids hnone)

/-! ## All calls -/

/-- What a call may return. -/
def Calls.Answers (c : Calls) : CoursewareOp → CoursewareReply → Prop
  | .getEnrolledCourses s, .ids courses => ∀ id ∈ courses, c.Enrolls s id
  | .getEnrolledStudents id, .ids students => ∀ s ∈ students, c.Enrolls s id
  | .getEnrollments, .enrollments enrollments => c.Lists enrollments
  | _, reply => reply = .done

/-- What is asked of a call, whether it returns or throws. -/
def Calls.Ends (c : Calls) (op : CoursewareOp) : Except AppException CoursewareReply → Prop
  | .ok reply => c.Answers op reply
  | .error e => e = .json ∧ ∃ s id, op.enrollment = some (s, id) ∧ c.Withdraws s

/-- What the calls of all threads do. -/
def Calls.of (calls : Nat → List (Bool × CoursewareOp × Int)) : Calls where
  Enrolls s id := ∃ i, ∃ call ∈ calls i, call.2.1.enrollment = some (s, id)
  Withdraws s := ∃ i, ∃ call ∈ calls i, call.2.1.studentWithdrawn = some s
  AddsCourse id := ∃ i, ∃ call ∈ calls i, call.2.1.courseAdded = some id

theorem among_reply {op : CoursewareOp}
    (henrolls : ∀ s id, op.enrollment = some (s, id) → c.Enrolls s id)
    (hwithdraws : ∀ s, op.studentWithdrawn = some s → c.Withdraws s)
    (hadds : ∀ id, op.courseAdded = some id → c.AddsCourse id) (s : Int) :
    (op.reply narrow s).among c.Fits (fun _ => False) miss (c.Ends op) := by
  have hends : ∀ {p : App CoursewareKey CoursewareReply},
      Returns c miss p (c.Answers op) → p.among c.Fits (fun _ => False) miss (c.Ends op) :=
    fun h => Program.among_mono h fun _ ⟨_, heq, ha⟩ => heq ▸ ha
  cases op with
  | addStudent student =>
      exact hends ((returns_addStudent student s).bind fun _ _ => Program.returns_pure rfl)
  | deleteStudent student =>
      exact hends ((returns_deleteStudent (hwithdraws student.id rfl) s).bind
        fun _ _ => Program.returns_pure rfl)
  | addCourse course =>
      exact hends ((returns_addCourse (hadds course.id rfl) s).bind
        fun _ _ => Program.returns_pure rfl)
  | deleteCourse course =>
      exact hends ((returns_deleteCourse narrow course s).bind
        fun _ _ => Program.returns_pure rfl)
  | registerStudent id =>
      exact hends ((returns_registered s (Or.inl ⟨true, rfl⟩)).bind
        fun _ _ => Program.returns_pure rfl)
  | deregisterStudent id =>
      exact hends ((returns_registered s (Or.inr ⟨rfl, hwithdraws id rfl⟩)).bind
        fun _ _ => Program.returns_pure rfl)
  | openCourse id =>
      exact hends ((returns_status id _ s).bind fun _ _ => Program.returns_pure rfl)
  | closeCourse id =>
      exact hends ((returns_status id _ s).bind fun _ _ => Program.returns_pure rfl)
  | enroll student course =>
      refine (Program.among_bind _ _ _).mpr
        (Program.among_mono (among_enroll narrow (henrolls student course rfl) s) fun r hr => ?_)
      cases r with
      | ok a => rfl
      | error e =>
          obtain ⟨hwithdrawn, he⟩ := hr e rfl
          exact ⟨he, student, course, rfl, hwithdrawn⟩
  | getEnrolledCourses student =>
      exact hends ((returns_getIds (.enrollmentStudent student) (fun _ hv => hv) s).bind
        fun _ h => Program.returns_pure h)
  | getEnrolledStudents course =>
      exact hends ((returns_getIds (.enrollmentCourse course) (fun _ hv => hv) s).bind
        fun _ h => Program.returns_pure h)
  | getEnrollments =>
      exact hends ((returns_getEnrollments s).bind fun _ h => Program.returns_pure h)

/--
**No race enrolls anybody**, on a store of any selector, whatever threads there are, whichever of
their calls stand between `tx_start` and `tx_end`, and however they interleave. Whoever a call
returns as enrolled was enrolled there by a call, and `get_enrollments` returns courses
that calls added. The only exception that leaves a thread is one of `enroll`, for a student
that a call deregisters or deletes.
-/
theorem threads_courseware (sel : ReadResponseSelector)
    (calls : Nat → List (Bool × CoursewareOp × Int)) (turns : List (Nat × Draws)) :
    let pool := threads CoursewareKey.name (World.init sel)
      (fun i => (calls i).map fun call => ⟨call.1, call.2.1.reply narrow call.2.2⟩) turns
    (∀ (i n : Nat) (e : AppException), StoppedAt pool i n e →
        ∃ call, (calls i)[n]? = some call ∧ (Calls.of calls).Ends call.2.1 (.error e))
      ∧ ∀ (i n : Nat) (reply : CoursewareReply), (pool.parties i).results[n]? = some reply →
          ∃ call, (calls i)[n]? = some call ∧ (Calls.of calls).Answers call.2.1 reply :=
  calls_among CoursewareKey.name_injective (holds_init sel)
    (fun call : Bool × CoursewareOp × Int => ⟨call.1, call.2.1.reply narrow call.2.2⟩)
    (fun i call hcall => among_reply narrow (c := Calls.of calls)
      (fun _ _ h => ⟨i, call, hcall, h⟩) (fun _ h => ⟨i, call, hcall, h⟩)
      (fun _ h => ⟨i, call, hcall, h⟩) call.2.2)
    turns

end Courseware

end MockDB
