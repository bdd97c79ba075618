import MockDB.Lib.ListOrder
import MockDB.Proof.AppRun
import MockDB.Proof.KeyNames

/-!
# Capacity, under any isolation

Two enrollments that race can both read an old list, and one of them is lost; but neither
stores a list longer than the capacity. Each version of a list is one that was read, with
at most one id more, and each version of a course's record has the capacity that the course
was added with. So the bound is an invariant of all versions at once, whatever is read.
-/

namespace MockDB

/-- The keys that a list is stored under. -/
def CoursewareKey.HoldsList : CoursewareKey → Prop
  | student _ => False
  | course _ => False
  | _ => True

namespace Courseware

open App

variable {cap : Int → Int}

/-- What every version under a key is, for courses with these capacities. -/
def Fits (cap : Int → Int) : CoursewareKey → Json → Prop
  | .student _, _ => True
  | .course c, v => v.field "capacity" = some (.number (cap c))
  | .enrollmentCourse c, v =>
      ∃ ids, v = Json.idList "list" ids ∧ (ids.length : Int) ≤ cap c
  | _, v => ∃ ids, v = Json.idList "list" ids

/-- A course's record keeps its capacity when another field is assigned. -/
theorem keeps_updateField {key : CoursewareKey} {field : String} (v : Json) (s : Int)
    (hset : ∀ value value', Fits cap key value → value.setField field v = some value' →
      Fits cap key value') :
    (updateField key field v s).Keeps (Fits cap) fun _ => True := by
  refine Program.Keeps.bind (keeps_attempt_get s) fun res hres => ?_
  cases res with
  | error e => trivial
  | ok value =>
      refine Program.Keeps.bind
        (Program.keeps_ofOption fun value' heq => hset value value' (hres value rfl) heq) ?_
      exact fun value' hvalue' => keeps_put s hvalue' trivial

theorem keeps_status (c : Int) (v : Json) (s : Int) :
    (updateField (.course c) "status" v s).Keeps (Fits cap) fun _ => True :=
  keeps_updateField v s fun _ _ hfits hset =>
    (Json.field_setField_ne (by decide) hset).trans hfits

theorem keeps_registered (id : Int) (v : Json) (s : Int) :
    (updateField (.student id) "registered" v s).Keeps (Fits cap) fun _ => True :=
  keeps_updateField v s fun _ _ _ _ => trivial

/-- Appending to a list keeps it a list. -/
theorem keeps_appendTo {key : CoursewareKey} {ids : List Int} {id : Int} (s : Int)
    (hfits : Fits cap key (Json.idList "list" (ids ++ [id]))) :
    (appendTo key (Json.idList "list" ids) ids.length id s).Keeps (Fits cap) fun _ => True := by
  refine Program.Keeps.bind (R := Fits cap key) (Program.keeps_ofOption fun value heq => ?_) ?_
  · rw [Json.appendAt_idList ids (by decide)] at heq
    exact Option.some.inj heq ▸ hfits
  · exact fun value hvalue => keeps_put s hvalue trivial

/-- A list of ids that any version of may be read. -/
theorem keeps_getIdList {key : CoursewareKey} (s : Int)
    (hkey : ∀ v, Fits cap key v → ∃ ids, v = Json.idList "list" ids)
    (hnew : Fits cap key (Json.idList "list" [])) :
    (getList "list" key s).Keeps (Fits cap) fun v =>
      ∃ ids, v = Json.idList "list" ids ∧ Fits cap key v :=
  (keeps_getList (by decide) s hnew).mono fun v hv =>
    let ⟨ids, heq⟩ := hkey v hv
    ⟨ids, heq, hv⟩

/-- What follows the reading of a count. -/
theorem keeps_count {α : Type} (ids : List Int) {f : Int → App CoursewareKey α} {Q : α → Prop}
    (h : (f ids.length).Keeps (Fits cap) Q) :
    (json (Json.idList "list" ids).count >>= f).Keeps (Fits cap) Q := by
  rw [Json.count_idList ids (by decide)]
  exact h

theorem keeps_newList {key : CoursewareKey} (s : Int)
    (hnew : Fits cap key (Json.idList "list" [])) :
    (json (Json.null.setList "list" [] 0) >>= fun list => put key list s).Keeps (Fits cap)
      fun _ => True := by
  refine Program.Keeps.bind (R := Fits cap key) (Program.keeps_ofOption fun value heq => ?_)
    fun value hvalue => keeps_put s hvalue trivial
  have hnull : Json.null.setList "list" [] 0 = some (Json.idList "list" []) :=
    Json.setList_null [] (by decide)
  rw [hnull] at heq
  exact Option.some.inj heq ▸ hnew

/-! ## One lemma for each operation -/

theorem keeps_addStudent (student : Student) (s : Int) :
    (addStudent student s).Keeps (Fits cap) fun _ => True := by
  refine Program.Keeps.bind (keeps_getIdList s (fun _ hv => hv) ⟨[], rfl⟩) fun students hv => ?_
  obtain ⟨ids, rfl, -⟩ := hv
  refine keeps_count ids (Program.Keeps.andThen (keeps_appendTo s ⟨_, rfl⟩) fun _ => ?_)
  refine Program.Keeps.andThen (keeps_put s trivial trivial) fun _ => ?_
  exact keeps_newList s ⟨[], rfl⟩

theorem keeps_addCourse {course : Course} (hcap : cap course.id = course.capacity)
    (hnonneg : 0 ≤ course.capacity) (s : Int) :
    (addCourse course s).Keeps (Fits cap) fun _ => True := by
  refine Program.Keeps.bind (keeps_getIdList s (fun _ hv => hv) ⟨[], rfl⟩) fun courses hv => ?_
  obtain ⟨ids, rfl, -⟩ := hv
  refine keeps_count ids (Program.Keeps.andThen (keeps_appendTo s ⟨_, rfl⟩) fun _ => ?_)
  have hdetails : (courseDetails course).field "capacity" = some (.number (cap course.id)) := by
    simp [courseDetails, Json.field, List.lookup_cons, hcap]
  refine Program.Keeps.andThen (keeps_put s hdetails trivial) fun _ => ?_
  exact keeps_newList s ⟨[], rfl, hcap ▸ hnonneg⟩

theorem keeps_deleteFrom {listKey enrollmentKey : CoursewareKey} (id s : Int)
    (hlist : ∀ v, Fits cap listKey v ↔ ∃ ids, v = Json.idList "list" ids)
    (hnew : Fits cap enrollmentKey (Json.idList "list" [])) :
    (deleteFrom listKey enrollmentKey id s).Keeps (Fits cap) fun _ => True := by
  refine Program.Keeps.bind (keeps_attempt_get s) fun res hres => ?_
  cases res with
  | error e => trivial
  | ok value =>
      obtain ⟨ids, rfl⟩ := (hlist value).mp (hres value rfl)
      refine Program.Keeps.bind
        (R := fun value => value = Json.idList "list" (ids.filter fun i => i ≠ id))
        (Program.keeps_ofOption fun value heq => ?_) ?_
      · rw [Json.removeFrom_idList ids (by decide)] at heq
        exact (Option.some.inj heq).symm
      · rintro value rfl
        refine Program.Keeps.andThen (keeps_put s ((hlist _).mpr ⟨_, rfl⟩) trivial) fun _ => ?_
        refine Program.Keeps.bind (R := Fits cap enrollmentKey)
          (Program.keeps_ofOption fun value heq => ?_)
          fun value hvalue => keeps_put s hvalue trivial
        have hempty : (Json.idList "list" (ids.filter fun i => i ≠ id)).setList "list" [] 0
            = some (Json.idList "list" []) := Json.setList_idList _ (by decide) []
        rw [hempty] at heq
        exact Option.some.inj heq ▸ hnew

theorem keeps_deleteStudent (student : Student) (s : Int) :
    (deleteStudent student s).Keeps (Fits cap) fun _ => True :=
  Program.Keeps.andThen (keeps_registered student.id (.number 0) s) fun _ =>
    keeps_deleteFrom student.id s (fun _ => Iff.rfl) ⟨[], rfl⟩

theorem keeps_deleteCourse (narrow : String → Json) (course : Course)
    (hnonneg : 0 ≤ cap course.id) (s : Int) :
    (deleteCourse narrow course s).Keeps (Fits cap) fun _ => True :=
  Program.Keeps.andThen (keeps_status course.id (narrow "close") s) fun _ =>
    keeps_deleteFrom course.id s (fun _ => Iff.rfl) ⟨[], rfl, hnonneg⟩

/-- `enroll` stores a list that is one longer than one below the capacity. -/
theorem keeps_enroll (narrow : String → Json) (studentId courseId : Int)
    (hnonneg : 0 ≤ cap courseId) (s : Int) :
    (enroll narrow studentId courseId s).Keeps (Fits cap) fun _ => True := by
  refine Program.Keeps.bind (R := fun res => ∀ details, res = .ok details →
    details.2.field "capacity" = some (.number (cap courseId))) ?_ fun res hres => ?_
  · refine Program.Keeps.attempt ?_ fun e details heq => nomatch heq
    refine Program.Keeps.andThen (keeps_get s fun _ _ => trivial) fun sd => ?_
    refine Program.Keeps.bind (R := Fits cap (.course courseId)) (keeps_get s fun _ hv => hv) ?_
    intro cd hcd details heq
    exact Except.ok.inj heq ▸ hcd
  · cases res with
    | error e => trivial
    | ok details =>
        obtain ⟨studentDetails, courseDetails⟩ := details
        have hcapacity := hres _ rfl
        refine Program.Keeps.andThen (Program.keeps_ofOption fun _ _ => trivial)
          fun registered => ?_
        by_cases hreg : registered = false
        · rw [if_pos hreg]; trivial
        rw [if_neg hreg]
        refine Program.Keeps.andThen (Program.keeps_ofOption fun _ _ => trivial) fun status => ?_
        by_cases hopen : status.sameStatus (narrow "open") = false
        · rw [if_pos hopen]; trivial
        rw [if_neg hopen]
        refine Program.Keeps.bind (keeps_getIdList s
          (fun _ ⟨ids, heq, _⟩ => ⟨ids, heq⟩) ⟨[], rfl, hnonneg⟩) fun enrollment hv => ?_
        obtain ⟨ids, rfl, -⟩ := hv
        refine keeps_count ids ?_
        refine Program.Keeps.bind (R := fun capacity => capacity = cap courseId)
          (Program.keeps_ofOption fun capacity heq => ?_) ?_
        · have hread : (courseDetails.field "capacity").bind Json.asInteger
              = some (cap courseId) := by rw [hcapacity]; rfl
          exact (Option.some.inj (hread.symm.trans heq)).symm
        rintro capacity rfl
        by_cases hfull : (ids.length : Int) ≥ cap courseId
        · rw [if_pos hfull]
          exact keeps_status courseId (narrow "close") s
        rw [if_neg hfull]
        refine Program.Keeps.andThen (keeps_appendTo s ⟨_, rfl, ?_⟩) fun _ => ?_
        · rw [List.length_append, List.length_singleton]
          omega
        refine Program.Keeps.bind (keeps_getIdList s (fun _ hv => hv) ⟨[], rfl⟩) fun _ hv => ?_
        obtain ⟨ids', rfl, -⟩ := hv
        exact keeps_count ids' (keeps_appendTo s ⟨_, rfl⟩)

/-- The getters store nothing. -/
theorem keeps_getIds (key : CoursewareKey) (s : Int) :
    (getIds key s).Keeps (Fits cap) fun _ => True := by
  refine Program.Keeps.bind (keeps_attempt_get s) fun res _ => ?_
  cases res with
  | error e => trivial
  | ok value =>
      exact Program.Keeps.andThen (Program.keeps_ofOption fun _ _ => trivial)
        fun _ => Program.keeps_ofOption fun _ _ => trivial

theorem keeps_enrollmentsOf (s : Int) (list : List Json) (found : UnorderedMap Int (List Int)) :
    (enrollmentsOf s list found).Keeps (Fits cap) fun _ => True := by
  induction list generalizing found with
  | nil => trivial
  | cons it rest ih =>
      refine Program.Keeps.andThen (Program.keeps_ofOption fun _ _ => trivial) fun courseId => ?_
      exact Program.Keeps.andThen (keeps_getIds (.enrollmentCourse courseId) s) fun _ => ih _

theorem keeps_getEnrollments (s : Int) :
    (getEnrollments s).Keeps (Fits cap) fun _ => True := by
  refine Program.Keeps.bind (keeps_attempt_get s) fun res _ => ?_
  cases res with
  | error e => trivial
  | ok value =>
      exact Program.Keeps.andThen (Program.keeps_ofOption fun _ _ => trivial)
        fun list => keeps_enrollmentsOf s list ∅

theorem keeps_program (narrow : String → Json) (s : Int) {op : CoursewareOp}
    (hnonneg : ∀ c, 0 ≤ cap c)
    (hadded : ∀ course, op = .addCourse course → cap course.id = course.capacity) :
    (op.program narrow s).Keeps (Fits cap) fun _ => True := by
  cases op with
  | addStudent student => exact keeps_addStudent student s
  | deleteStudent student => exact keeps_deleteStudent student s
  | addCourse course =>
      have hcap := hadded course rfl
      exact keeps_addCourse hcap (hcap ▸ hnonneg course.id) s
  | deleteCourse course => exact keeps_deleteCourse narrow course (hnonneg course.id) s
  | registerStudent id => exact keeps_registered id (.bool true) s
  | deregisterStudent id => exact keeps_registered id (.number 0) s
  | openCourse id => exact keeps_status id (narrow "open") s
  | closeCourse id => exact keeps_status id (narrow "close") s
  | enroll studentId courseId => exact keeps_enroll narrow studentId courseId (hnonneg courseId) s
  | getEnrolledCourses id =>
      exact Program.Keeps.bind (keeps_getIds (.enrollmentStudent id) s) fun _ _ => trivial
  | getEnrolledStudents id =>
      exact Program.Keeps.bind (keeps_getIds (.enrollmentCourse id) s) fun _ _ => trivial
  | getEnrollments => exact Program.Keeps.bind (keeps_getEnrollments s) fun _ _ => trivial

/-! ## Any interleaving -/

/-- The course that an event adds. -/
def courseStarted : CrowdEvent (CoursewareOp × Int) → Option Int
  | .start op => op.1.courseAdded
  | .turn _ _ => none

/-- Operations by any sessions, one `get` or `put` at a time in any order, over a new store. -/
def crowd (narrow : String → Json) (sel : ReadResponseSelector)
    (events : List (CrowdEvent (CoursewareOp × Int))) : Crowd CoursewareKey :=
  Crowd.run CoursewareKey.name (fun op => op.1.program narrow op.2) sel events

/-- With each id added once, a course has one capacity. -/
theorem exists_capacity {events : List (CrowdEvent (CoursewareOp × Int))}
    (hadded : (events.filterMap courseStarted).Nodup)
    (hcapacity : ∀ course s, .start (.addCourse course, s) ∈ events → 0 ≤ course.capacity) :
    ∃ cap : Int → Int, (∀ c, 0 ≤ cap c)
      ∧ ∀ course s, .start (.addCourse course, s) ∈ events → cap course.id = course.capacity := by
  have key : ∀ c, ∃ n : Int, 0 ≤ n ∧ ∀ course s, .start (.addCourse course, s) ∈ events →
      course.id = c → n = course.capacity := by
    intro c
    by_cases h : ∃ course s, .start (.addCourse course, s) ∈ events ∧ course.id = c
    · obtain ⟨course, s, hmem, hid⟩ := h
      refine ⟨course.capacity, hcapacity course s hmem, fun course' s' hmem' hid' => ?_⟩
      have heq := ListOrder.eq_of_nodup_filterMap hadded hmem hmem'
        (show courseStarted _ = some c from congrArg some hid)
        (show courseStarted _ = some c from congrArg some hid')
      have hop := (Prod.mk.inj (CrowdEvent.start.inj heq)).1
      rw [CoursewareOp.addCourse.inj hop]
    · exact ⟨0, Int.le_refl 0, fun course s hmem hid => (h ⟨course, s, hmem, hid⟩).elim⟩
  choose cap hnonneg hcap using key
  exact ⟨cap, hnonneg, fun course s hmem => hcap course.id course s hmem rfl⟩

/-- **Every version ever stored of a list counts what it lists, and no version of a course's
enrollments is longer than the course's capacity**, under any selector and interleaving. -/
theorem stored_within_capacity (narrow : String → Json) (sel : ReadResponseSelector)
    (events : List (CrowdEvent (CoursewareOp × Int)))
    (hadded : (events.filterMap courseStarted).Nodup)
    (hcapacity : ∀ course s, .start (.addCourse course, s) ∈ events → 0 ≤ course.capacity) :
    (∀ key, key.HoldsList → ∀ v ∈ versions CoursewareKey.name (crowd narrow sel events).world key,
        ∃ list, v.elements "list" = some list ∧ v.count = some (list.length : Int))
      ∧ ∀ course s, .start (.addCourse course, s) ∈ events →
        ∀ v ∈ versions CoursewareKey.name (crowd narrow sel events).world
            (.enrollmentCourse course.id),
          ∃ list, v.elements "list" = some list ∧ (list.length : Int) ≤ course.capacity := by
  obtain ⟨cap, hnonneg, hcap⟩ := exists_capacity hadded hcapacity
  have hsafe : Crowd.Safe CoursewareKey.name (Fits cap) (crowd narrow sel events) :=
    Crowd.safe_run CoursewareKey.name_injective sel events fun op hop =>
      keeps_program narrow op.2 hnonneg fun course heq =>
        hcap course op.2 (by rw [← heq]; exact hop)
  -- a list of ids counts what it lists
  have hlist : ∀ ids, ∃ list, (Json.idList "list" ids).elements "list" = some list
      ∧ (Json.idList "list" ids).count = some (list.length : Int) := fun ids =>
    ⟨_, Json.elements_idList ids, by rw [Json.count_idList ids (by decide), List.length_map]⟩
  constructor
  · intro key hkey v hv
    rw [versions_eq hsafe.reachable] at hv
    have hfits := hsafe.stored key v hv
    cases key with
    | student id => exact hkey.elim
    | course id => exact hkey.elim
    | enrollmentCourse id => obtain ⟨ids, rfl, -⟩ := hfits; exact hlist ids
    | students => obtain ⟨ids, rfl⟩ := hfits; exact hlist ids
    | courses => obtain ⟨ids, rfl⟩ := hfits; exact hlist ids
    | enrollmentStudent id => obtain ⟨ids, rfl⟩ := hfits; exact hlist ids
  · intro course s hmem v hv
    rw [versions_eq hsafe.reachable] at hv
    obtain ⟨ids, rfl, hle⟩ := hsafe.stored _ v hv
    refine ⟨_, Json.elements_idList ids, ?_⟩
    rw [List.length_map, ← hcap course s hmem]
    exact hle

/-- Two students after the last place of a course, each reading before the other writes. -/
def lastPlace : List (CrowdEvent (CoursewareOp × Int)) :=
  let operations : List (CoursewareOp × Int) :=
    [(.addCourse ⟨1, "Logic", "CS", "open", 1⟩, 0), (.addStudent ⟨7, "Grace", true, "r7"⟩, 0),
      (.addStudent ⟨8, "Alan", true, "r8"⟩, 0), (.enroll 7 1, 1), (.enroll 8 1, 2)]
  let turns := [0, 0, 0, 0, 1, 1, 1, 1, 2, 2, 2, 2, 3, 4, 3, 4, 3, 4, 3, 4, 3, 4, 3, 4]
  operations.map .start ++ turns.map fun i => .turn i zeroDraws

theorem stored_within_capacity_lastPlace :
    (∀ key, key.HoldsList →
        ∀ v ∈ versions CoursewareKey.name (crowd Json.string .causal lastPlace).world key,
          ∃ list, v.elements "list" = some list ∧ v.count = some (list.length : Int))
      ∧ ∀ course s, .start (.addCourse course, s) ∈ lastPlace →
        ∀ v ∈ versions CoursewareKey.name (crowd Json.string .causal lastPlace).world
            (.enrollmentCourse course.id),
          ∃ list, v.elements "list" = some list ∧ (list.length : Int) ≤ course.capacity :=
  stored_within_capacity Json.string .causal lastPlace (by decide) (by
    intro course s h
    have hcourse : course = ⟨1, "Logic", "CS", "open", 1⟩ ∧ s = 0 := by simpa [lastPlace] using h
    rw [hcourse.1]
    decide)

end Courseware

end MockDB
