/-!
# JSON values

What the server and the applications use of `web::json::value`, by its documentation. The
reads that throw in the code return an `Option` here:

* `at` throws on a missing field, while `value[key]` gives `null` for one and adds it when
  assigned to; a `null` value turns into an object or an array when it is indexed;
* an array grows to hold the index assigned to, with `null`s;
* `as_string`, `as_bool` and `as_array` throw on anything of another kind, `as_bool` also on
  a number; `as_integer` and `as_double` throw on anything but a number;
* `as_integer` returns an `int`, so it keeps the last 32 bits of a `long`;
* numbers are equal if both are integers and agree.
-/

namespace MockDB

/-- `web::json::value`. A number keeps what it was made from: an `int`, a `long` or a `double`. -/
inductive Json where
  | null
  | bool (b : Bool)
  | number (n : Int)
  | long (n : Int)
  | double (x : Float)
  | string (s : String)
  | array (elements : List Json)
  | object (fields : List (String × Json))

namespace Json

/-- `has_field`, false for anything but an object. -/
def hasField (key : String) : Json → Bool
  | object fields => (fields.lookup key).isSome
  | _ => false

/-- `at`, which throws on a missing field and on anything but an object. -/
def at? (key : String) : Json → Option Json
  | object fields => fields.lookup key
  | _ => none

/-- `as_string`, which throws on anything but a string. -/
def asString : Json → Option String
  | string s => some s
  | _ => none

/-! ## What the applications use -/

/-- What an `int` keeps of a `long`: the last 32 bits. -/
def int32 (n : Int) : Int := n.bmod 0x100000000

/-- `as_integer`, which throws on anything but a number. It returns an `int`: one that was stored
comes back as it was, a `long` without what does not fit. -/
def asInteger : Json → Option Int
  | number n => some n
  | long n => some (int32 n)
  | double x => some x.toInt32.toInt
  | _ => none

/-- The integer that is stored, whatever it was made from. -/
def integer : Json → Option Int
  | number n => some n
  | long n => some n
  | _ => none

/-- `as_bool`, which throws on anything but a Boolean; a number is none. -/
def asBool : Json → Option Bool
  | bool b => some b
  | _ => none

/-- `as_double`, which throws on anything but a number. -/
def asDouble : Json → Option Float
  | double x => some x
  | number n => some (Float.ofInt n)
  | long n => some (Float.ofInt n)
  | _ => none

/-- `as_array`, which throws on anything but an array. -/
def asArray : Json → Option (List Json)
  | array elements => some elements
  | _ => none

/-- `*it == web::json::value(n)`: numbers are equal if both are integers and agree. -/
def isNumber (n : Int) : Json → Bool
  | number m => m = n
  | long m => m = n
  | _ => false

/-- `operator==` on the values a status can have. -/
def sameStatus : Json → Json → Bool
  | string s, string s' => s = s'
  | bool b, bool b' => b = b'
  | null, null => true
  | _, _ => false

/-- `value[key]`, read. A missing field comes back as `null`, and so does any of `null`,
which turns into an object. -/
def field (value : Json) (key : String) : Option Json :=
  match value with
  | object fields => some ((fields.lookup key).getD null)
  | null => some null
  | _ => none

/-- One field of an object, replaced or added. -/
def setEntry (key : String) (v : Json) : List (String × Json) → List (String × Json)
  | [] => [(key, v)]
  | entry :: fields => if entry.1 = key then (key, v) :: fields else entry :: setEntry key v fields

/-- `value[key] = v`. `null` turns into an object. -/
def setField (value : Json) (key : String) (v : Json) : Option Json :=
  match value with
  | object fields => some (object (setEntry key v fields))
  | null => some (object [(key, v)])
  | _ => none

/-- `elements[index] = v`. A vector too short for the index grows to hold it, with `null`s. -/
def setIndex (elements : List Json) (index : Int) (v : Json) : Option (List Json) :=
  if index < 0 then none
  else
    let padding := List.replicate (index.toNat + 1 - elements.length) null
    some ((elements ++ padding).set index.toNat v)

/-- `value[index] = v`. `null` turns into an array. -/
def setElement (value : Json) (index : Int) (v : Json) : Option Json :=
  match value with
  | array elements => (setIndex elements index v).map array
  | null => (setIndex [] index v).map array
  | _ => none

/-! ## Lists of ids

The applications keep a list as an object with the ids under one field and their number
under `count`. -/

/-- `value["count"].as_integer()`. -/
def count (value : Json) : Option Int := (value.field "count").bind asInteger

/-- `value[name].as_array()`. -/
def elements (value : Json) (name : String) : Option (List Json) :=
  (value.field name).bind asArray

/-- `value[name] = array(elements)` and `value["count"] = count`. -/
def setList (value : Json) (name : String) (elements : List Json) (count : Int) : Option Json :=
  (value.setField name (array elements)).bind fun value => value.setField "count" (number count)

/-- `value[name][count] = element` and `value["count"] = count + 1`. -/
def appendAt (value : Json) (name : String) (count : Int) (element : Json) : Option Json :=
  (value.field name).bind fun list =>
    (list.setElement count element).bind fun list =>
      (value.setField name list).bind fun value => value.setField "count" (number (count + 1))

/-- The loop that keeps every element but `id`, and the assignments of what it kept. -/
def removeFrom (value : Json) (name : String) (id : Int) : Option Json :=
  (value.elements name).bind fun list =>
    let updatedList := list.filter fun it => !it.isNumber id
    value.setList name updatedList updatedList.length

theorem lookup_setEntry_ne {key key' : String} (hne : key' ≠ key) (v : Json)
    (fields : List (String × Json)) : (setEntry key v fields).lookup key' = fields.lookup key' := by
  have hbeq : (key' == key) = false := by simpa using hne
  induction fields with
  | nil => simp [setEntry, List.lookup_cons, hbeq]
  | cons entry fields ih =>
      obtain ⟨k, w⟩ := entry
      unfold setEntry
      by_cases hk : k = key
      · subst hk; simp [List.lookup_cons, hbeq]
      · rw [if_neg hk, List.lookup_cons, List.lookup_cons, ih]

/-- An assignment to a field leaves the others as they were. -/
theorem field_setField_ne {value value' v : Json} {key key' : String} (hne : key' ≠ key)
    (h : value.setField key v = some value') : value'.field key' = value.field key' := by
  cases value with
  | object fields =>
      rw [← Option.some.inj h]
      show some (((setEntry key v fields).lookup key').getD null) = _
      rw [lookup_setEntry_ne hne]
      rfl
  | null =>
      rw [← Option.some.inj h]
      have hbeq : (key' == key) = false := by simpa using hne
      simp [field, List.lookup_cons, hbeq]
  | _ => exact nomatch h

/-! ## `int`s and `long`s -/

/-- `n` fits an `int`. -/
def IsInt (n : Int) : Prop := -0x80000000 ≤ n ∧ n < 0x80000000

instance (n : Int) : Decidable (IsInt n) := inferInstanceAs (Decidable (_ ∧ _))

theorem int32_eq {n : Int} (h : IsInt n) : int32 n = n := by
  obtain ⟨hlow, hhigh⟩ := h
  exact Int.bmod_eq_of_le (by omega) (by omega)

theorem map_int32 {ids : List Int} (h : ∀ n ∈ ids, IsInt n) : ids.map int32 = ids :=
  (List.map_congr_left fun n hn => int32_eq (h n hn)).trans (List.map_id ids)

@[simp] theorem int32_int32 (n : Int) : int32 (int32 n) = int32 n := Int.bmod_bmod

/-! ## Lists and their lengths -/

/-- A list, as the applications store it. -/
def listOf (name : String) (elements : List Json) : Json :=
  object [(name, array elements), ("count", number elements.length)]

section ListOf

variable {name : String} (list : List Json)

theorem field_listOf : (listOf name list).field name = some (array list) := by
  simp [listOf, field]

@[simp] theorem elements_listOf : (listOf name list).elements name = some list := by
  simp [elements, field_listOf, asArray]

variable (hname : name ≠ "count")
include hname

theorem count_listOf : (listOf name list).count = some (list.length : Int) := by
  have hbeq : ("count" == name) = false := by simpa using hname.symm
  simp [listOf, count, field, asInteger, List.lookup_cons, hbeq]

/-- Assigning both fields gives the list assigned, whatever was there. -/
theorem setList_listOf (list' : List Json) :
    (listOf name list).setList name list' list'.length = some (listOf name list') := by
  simp [listOf, setList, setField, setEntry, hname]

theorem setList_null : null.setList name list list.length = some (listOf name list) := by
  simp [listOf, setList, setField, setEntry, hname]

/-- Assigning at the index `count` appends. -/
theorem appendAt_listOf (element : Json) :
    (listOf name list).appendAt name list.length element
      = some (listOf name (list ++ [element])) := by
  have hset : (array list).setElement list.length element = some (array (list ++ [element])) := by
    simp [setElement, setIndex]
  unfold appendAt
  rw [field_listOf, Option.bind_some, hset]
  simp [listOf, setField, setEntry, hname]

end ListOf

theorem list_ne_count : "list" ≠ "count" := by decide

/-- A list of ids that are `int`s. -/
def idList (name : String) (ids : List Int) : Json := listOf name (ids.map number)

/-- A list of ids that are `long`s. -/
def longList (name : String) (ids : List Int) : Json := listOf name (ids.map long)

section IdList

variable {name : String} (ids : List Int)

theorem setList_list_null : null.setList "list" [] 0 = some (idList "list" []) :=
  setList_null [] list_ne_count

theorem elements_idList : (idList name ids).elements name = some (ids.map number) :=
  elements_listOf _

@[simp] theorem elements_longList : (longList name ids).elements name = some (ids.map long) :=
  elements_listOf _

@[simp] theorem count_longList : (longList "list" ids).count = some (ids.length : Int) := by
  rw [longList, count_listOf _ list_ne_count, List.length_map]

@[simp] theorem appendAt_longList (id : Int) :
    (longList "list" ids).appendAt "list" ids.length (long id)
      = some (longList "list" (ids ++ [id])) := by
  have happend := appendAt_listOf (ids.map long) list_ne_count (long id)
  rwa [List.length_map, ← List.map_singleton, ← List.map_append] at happend

variable (hname : name ≠ "count")
include hname

theorem count_idList : (idList name ids).count = some (ids.length : Int) := by
  rw [idList, count_listOf _ hname, List.length_map]

theorem setList_idList (ids' : List Int) :
    (idList name ids).setList name (ids'.map number) ids'.length = some (idList name ids') := by
  have hset := setList_listOf (ids.map number) hname (ids'.map number)
  rwa [List.length_map] at hset

theorem appendAt_idList (id : Int) :
    (idList name ids).appendAt name ids.length (number id) = some (idList name (ids ++ [id])) := by
  have happend := appendAt_listOf (ids.map number) hname (number id)
  rwa [List.length_map, ← List.map_singleton, ← List.map_append] at happend

theorem removeFrom_idList (id : Int) :
    (idList name ids).removeFrom name id = some (idList name (ids.filter fun i => i ≠ id)) := by
  have hfilter : (ids.map number).filter (fun it => !it.isNumber id)
      = (ids.filter fun i => i ≠ id).map number := by
    rw [List.filter_map]
    congr 1
    exact List.filter_congr fun i _ => by simp [isNumber]
  have hset := setList_idList ids hname (ids.filter fun i => i ≠ id)
  unfold removeFrom
  rw [elements_idList, Option.bind_some, hfilter]
  simpa using hset

end IdList

/-- The numbers of a list of ids, read one by one. -/
theorem mapM_asInteger (ids : List Int) : (ids.map number).mapM asInteger = some ids := by
  induction ids with
  | nil => rfl
  | cons id ids ih => simp [List.mapM_cons, asInteger, ih]

theorem mapM_integer (ids : List Int) : (ids.map long).mapM integer = some ids := by
  induction ids with
  | nil => rfl
  | cons id ids ih => simp [List.mapM_cons, integer, ih]

theorem idList_inj {name : String} {ids ids' : List Int} :
    idList name ids = idList name ids' ↔ ids = ids' := by
  refine ⟨fun h => ?_, fun h => h ▸ rfl⟩
  have helements := congrArg (fun v => v.elements name) h
  simp only [elements_idList] at helements
  exact (List.map_inj_right fun _ _ => number.inj).mp (Option.some.inj helements)

theorem longList_inj {name : String} {ids ids' : List Int} :
    longList name ids = longList name ids' ↔ ids = ids' := by
  refine ⟨fun h => ?_, fun h => h ▸ rfl⟩
  have helements := congrArg (fun v => v.elements name) h
  simp only [elements_longList] at helements
  exact (List.map_inj_right fun _ _ => long.inj).mp (Option.some.inj helements)

end Json

end MockDB
