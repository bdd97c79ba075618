import MockDB.Proof.AtomicThreads
import MockDB.Proof.CoursewareEnroll

/-!
# Courseware served one call at a time

On the map of a state a call returns or throws, and leaves, what `CoursewareState.respond` says.
So on a linearizable store threads are served by the state machine. Only an `enroll` throws,
and none does where students are not withdrawn.
-/

namespace MockDB

open App Interleaving

namespace CoursewareState

variable {st : CoursewareState} {narrow : String → Json}

/-- Every record of a student has a Boolean under `registered`. -/
def Registered (st : CoursewareState) : Prop :=
  ∀ s r, st.student s = some r → ∃ b, r.2 = .bool b

/-- The calls of threads that take no registration back. -/
def KeepsBooleans : CoursewareOp → Prop
  | .deleteStudent _ => False
  | .deregisterStudent _ => False
  | _ => True

theorem Registered.congr {st' : CoursewareState} (h : st.Registered)
    (hsame : st'.student = st.student) : st'.Registered := fun s r hr => h s r (hsame ▸ hr)

theorem Registered.update (h : st.Registered) {st' : CoursewareState} {s : Int}
    {r : Option (Student × Json)} (hsame : st'.student = Function.update st.student s r)
    (hr : ∀ r', r = some r' → ∃ b, r'.2 = .bool b) : st'.Registered := by
  intro id r' hr'
  rw [hsame] at hr'
  by_cases hid : id = s
  · subst hid
    rw [Function.update_self] at hr'
    exact hr r' hr'
  · rw [Function.update_of_ne hid] at hr'
    exact h id r' hr'

theorem Registered.serve (h : st.Registered) {op : CoursewareOp} (hop : KeepsBooleans op) :
    (st.serve narrow op).2.Registered := by
  cases op with
  | addStudent s => exact h.update rfl fun r hr => ⟨s.registered, by rw [← Option.some.inj hr]⟩
  | registerStudent s =>
      refine h.update (student_setRegistered st s _) fun r hr => ⟨true, ?_⟩
      obtain ⟨r', -, rfl⟩ := Option.map_eq_some_iff.mp hr
      rfl
  | deleteStudent s => exact hop.elim
  | deregisterStudent s => exact hop.elim
  | addCourse c => exact h
  | deleteCourse c =>
      exact h.congr ((student_removeCourse _ _).trans (student_setStatus _ _ _))
  | openCourse c => exact h.congr (student_setStatus _ _ _)
  | closeCourse c => exact h.congr (student_setStatus _ _ _)
  | enroll s c => exact h.congr (student_enroll _ _ s c)
  | getEnrolledCourses s => exact h
  | getEnrolledStudents c => exact h
  | getEnrollments => exact h

/-- No call throws where every record has its Boolean. -/
theorem Registered.respond (h : st.Registered) (op : CoursewareOp) :
    st.respond narrow op = (.ok (st.serve narrow op).1, (st.serve narrow op).2) := by
  cases op with
  | enroll s c =>
      have hok : st.enrollResult s c = .ok () := by
        unfold enrollResult
        cases hs : st.student s with
        | none => rfl
        | some r =>
            obtain ⟨student, registered⟩ := r
            obtain ⟨b, rfl⟩ : ∃ b, registered = .bool b := h s _ hs
            cases st.course c <;> rfl
      show ((st.enrollResult s c).map fun _ => CoursewareReply.done, st.enroll narrow s c) = _
      rw [hok]
      rfl
  | _ => rfl

theorem serve_snd (op : CoursewareOp) : (st.serve narrow op).2 = st.step narrow op := by
  cases op <;> rfl

theorem Registered.run {ops : List CoursewareOp} (hops : ∀ op ∈ ops, KeepsBooleans op) :
    (run narrow ops).Registered := by
  induction ops using List.reverseRecOn with
  | nil => exact fun s r hr => nomatch hr
  | append_singleton ops op ih =>
      rw [run_concat, ← serve_snd]
      exact (ih fun op' h => hops op' (List.mem_append_left _ h)).serve
        (hops op (List.mem_append_right _ List.mem_cons_self))

end CoursewareState

namespace Courseware

open CoursewareState

variable {st : CoursewareState} {miss : CoursewareKey → StoreException String}
  {narrow : String → Json}

theorem onMap_enrollmentsOf_foldl (sessionId : Int) (cs : List Int)
    (found : UnorderedMap Int (List Int)) :
    (enrollmentsOf sessionId (cs.map Json.number) found).onMap miss st.toMap
      = (.ok (cs.foldl (fun found c => found.insert c (st.studentsOf c)) found), st.toMap) := by
  induction cs generalizing found with
  | nil => rfl
  | cons c cs ih =>
      have hget : (getEnrolledStudents c sessionId).onMap miss st.toMap
          = (.ok (st.studentsOf c), st.toMap) := onMap_getIds miss sessionId _ rfl
      simp [enrollmentsOf, Json.asInteger, hget, ih]

/-- A call on the map of a state, with what it returns or throws. -/
theorem onMap_reply (op : CoursewareOp) (sessionId : Int) :
    (op.reply narrow sessionId).onMap miss st.toMap
      = ((st.respond narrow op).1, (st.respond narrow op).2.toMap) := by
  cases op with
  | addStudent s =>
      simp [CoursewareOp.reply, CoursewareOp.program, onMap_addStudent, respond, serve, step]
  | addCourse c =>
      simp [CoursewareOp.reply, CoursewareOp.program, onMap_addCourse, respond, serve, step]
  | deleteStudent s =>
      simp [CoursewareOp.reply, CoursewareOp.program, onMap_deleteStudent, respond, serve, step]
  | deleteCourse c =>
      simp [CoursewareOp.reply, CoursewareOp.program, onMap_deleteCourse, respond, serve, step]
  | registerStudent s =>
      simp [CoursewareOp.reply, CoursewareOp.program, registerStudent, onMap_registered, respond,
        serve, step]
  | deregisterStudent s =>
      simp [CoursewareOp.reply, CoursewareOp.program, deregisterStudent, onMap_registered,
        respond, serve, step]
  | openCourse c =>
      simp [CoursewareOp.reply, CoursewareOp.program, openCourse, onMap_status, respond, serve,
        step]
  | closeCourse c =>
      simp [CoursewareOp.reply, CoursewareOp.program, closeCourse, onMap_status, respond, serve,
        step]
  | enroll s c =>
      cases hresult : st.enrollResult s c with
      | ok u => simp [CoursewareOp.reply, CoursewareOp.program, onMap_enroll, hresult, respond,
          Except.map]
      | error e => simp [CoursewareOp.reply, CoursewareOp.program, onMap_enroll, hresult, respond,
          Except.map]
  | getEnrolledCourses s =>
      have hget : (getEnrolledCourses s sessionId).onMap miss st.toMap
          = (.ok (st.coursesOf s), st.toMap) := onMap_getIds miss sessionId _ rfl
      simp [CoursewareOp.reply, hget, respond, serve]
  | getEnrolledStudents c =>
      have hget : (getEnrolledStudents c sessionId).onMap miss st.toMap
          = (.ok (st.studentsOf c), st.toMap) := onMap_getIds miss sessionId _ rfl
      simp [CoursewareOp.reply, hget, respond, serve]
  | getEnrollments =>
      have hcourses : st.toMap .courses = st.courses.map (Json.idList "list") := rfl
      unfold CoursewareOp.reply getEnrollments
      cases hc : st.courses with
      | none => simp [hcourses, hc, respond, serve, enrollments]
      | some cs =>
          simp [hcourses, hc, Json.elements_idList, onMap_enrollmentsOf_foldl, respond, serve,
            enrollments]

/--
**Courseware's threads are served by its state machine.** On a linearizable store, after any
calls one at a time and then in any interleaving of threads whose calls stand between `tx_start`
and `tx_end`: whenever nobody holds the mutex, every thread has been returned what its calls
return in some sequence of the calls that have returned, which keeps the order of each
thread, and the store holds the state that the sequence leads to. None of them throws there.
-/
theorem courseware_served (narrow : String → Json) (before : List CoursewareCall)
    (calls : Nat → List (CoursewareOp × Int)) (turns : List (Nat × Draws)) :
    let pool := threads CoursewareKey.name (after narrow before)
      (allInTx fun i => (calls i).map fun call => call.1.reply narrow call.2) turns
    pool.holder = none → ∃ order : List (Nat × (CoursewareOp × Int)),
      Interleaves (made pool calls) order
      ∧ (∀ i, (pool.parties i).results.map .ok = ofParty (serveAll
          (fun call => CoursewareState.respond narrow call.1) order (state narrow before)).1 i)
      ∧ contents CoursewareKey.name pool.shared = (serveAll (fun call =>
          CoursewareState.respond narrow call.1) order (state narrow before)).2.toMap := by
  intro pool hfree
  obtain ⟨hstrong, hmap⟩ := contents_after narrow before
  exact (runsOnMap_strong CoursewareKey.name_injective).served hstrong (fun _ => True) _
    trivial hmap (fun _ _ _ => trivial) (fun i call _ st _ => ⟨trivial, onMap_reply call.1 call.2⟩)
    hfree

/-- A student enrolls in a course, and another one that has deregistered first. -/
def enrolling : Nat → List (CoursewareOp × Int)
  | 0 => [(.enroll 1 1, 1), (.getEnrollments, 1)]
  | 1 => [(.deregisterStudent 2, 2), (.enroll 2 1, 2)]
  | _ => []

theorem courseware_served_enrolling :
    let before : List CoursewareCall :=
      [⟨.addStudent ⟨1, "s", true, "1"⟩, 0, fun _ => zeroDraws⟩,
        ⟨.addStudent ⟨2, "t", true, "2"⟩, 0, fun _ => zeroDraws⟩,
        ⟨.addCourse ⟨1, "c", "d", "open", 1⟩, 0, fun _ => zeroDraws⟩]
    let pool := threads CoursewareKey.name (after Json.string before)
      (allInTx fun i => (enrolling i).map fun call => call.1.reply Json.string call.2)
      (List.replicate 4 (1, zeroDraws) ++ List.replicate 12 (0, zeroDraws))
    ∃ order : List (Nat × (CoursewareOp × Int)), Interleaves (made pool enrolling) order
      ∧ (∀ i, (pool.parties i).results.map .ok = ofParty (serveAll
          (fun call => CoursewareState.respond Json.string call.1) order
          (state Json.string before)).1 i)
      ∧ contents CoursewareKey.name pool.shared = (serveAll
          (fun call => CoursewareState.respond Json.string call.1) order
          (state Json.string before)).2.toMap :=
  courseware_served Json.string _ enrolling _ (by decide +kernel)

end Courseware

end MockDB
