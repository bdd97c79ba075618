import Mathlib
import MockDB.Applications.Courseware
import MockDB.Applications.ShoppingCart
import MockDB.Applications.Twitter

/-!
# Different keys are different strings

A key's name is a tag, then the id it is about, then perhaps what it says about it. No tag
begins another one, and no ending ends another one, so the name determines both, and then
the id, since different integers print differently.
-/

namespace MockDB

theorem toString_injective : Function.Injective (toString : Int → String) :=
  fun _ _ h => Int.repr_injective h

/-- No tag of a list begins another one. -/
def PrefixFree (tags : List String) : Prop :=
  ∀ p ∈ tags, ∀ q ∈ tags, p.toList <+: q.toList → p = q

instance (tags : List String) : Decidable (PrefixFree tags) := by
  unfold PrefixFree; infer_instance

/-- A text that begins with a tag determines the tag and what follows it. -/
theorem PrefixFree.append_inj {tags : List String} (h : PrefixFree tags) {p q x y : String}
    (hp : p ∈ tags) (hq : q ∈ tags) (heq : p ++ x = q ++ y) : p = q ∧ x = y := by
  have hl := congrArg String.toList heq
  rw [String.toList_append, String.toList_append] at hl
  have hpq : p = q := by
    rcases List.prefix_or_prefix_of_prefix (List.prefix_append p.toList x.toList)
      (hl ▸ List.prefix_append q.toList y.toList) with hpre | hpre
    · exact h p hp q hq hpre
    · exact (h q hq p hp hpre).symm
  subst hpq
  exact ⟨rfl, String.toList_inj.mp (List.append_cancel_left hl)⟩

/-- Keys whose names begin with these tags have one name only if tag and rest are the same. -/
theorem PrefixFree.name_inj {κ : Type} {tags : List String} (h : PrefixFree tags)
    {name tag rest : κ → String} (hmem : ∀ k, tag k ∈ tags)
    (hname : ∀ k, name k = tag k ++ rest k) {k k' : κ} (heq : name k = name k') :
    tag k = tag k' ∧ rest k = rest k' := by
  rw [hname, hname] at heq
  exact h.append_inj (hmem k) (hmem k') heq

/-- No ending of a list ends another one. -/
def SuffixFree (endings : List String) : Prop :=
  ∀ p ∈ endings, ∀ q ∈ endings, p.toList <:+ q.toList → p = q

instance (endings : List String) : Decidable (SuffixFree endings) := by
  unfold SuffixFree; infer_instance

/-- A text that ends in an ending determines it and what precedes it. -/
theorem SuffixFree.append_inj {endings : List String} (h : SuffixFree endings) {p q x y : String}
    (hp : p ∈ endings) (hq : q ∈ endings) (heq : x ++ p = y ++ q) : x = y ∧ p = q := by
  have hl := congrArg String.toList heq
  rw [String.toList_append, String.toList_append] at hl
  have hpq : p = q := by
    rcases List.suffix_or_suffix_of_suffix (List.suffix_append x.toList p.toList)
      (hl ▸ List.suffix_append y.toList q.toList) with hsuf | hsuf
    · exact h p hp q hq hsuf
    · exact (h q hq p hp hsuf).symm
  subst hpq
  exact ⟨String.toList_inj.mp (List.append_cancel_right hl), rfl⟩

/-- So an id with an ending determines both. -/
theorem SuffixFree.toString_append_inj {endings : List String} (h : SuffixFree endings)
    {id id' : Int} {p q : String} (hp : p ∈ endings) (hq : q ∈ endings)
    (heq : toString id ++ p = toString id' ++ q) : id = id' ∧ p = q := by
  obtain ⟨hid, hpq⟩ := h.append_inj hp hq heq
  exact ⟨toString_injective hid, hpq⟩

namespace CoursewareKey

/-- What the names begin with. -/
def tags : List String :=
  ["students", "courses", "student:", "course:", "enrollment:student:", "enrollment:course:"]

def tag : CoursewareKey → String
  | students => "students"
  | courses => "courses"
  | student _ => "student:"
  | course _ => "course:"
  | enrollmentStudent _ => "enrollment:student:"
  | enrollmentCourse _ => "enrollment:course:"

/-- What follows the tag. -/
def rest : CoursewareKey → String
  | students => ""
  | courses => ""
  | student id => toString id
  | course id => toString id
  | enrollmentStudent id => toString id
  | enrollmentCourse id => toString id

theorem name_eq (k : CoursewareKey) : k.name = k.tag ++ k.rest := by
  cases k with
  | students => exact String.append_empty.symm
  | courses => exact String.append_empty.symm
  | student id => rfl
  | course id => rfl
  | enrollmentStudent id => rfl
  | enrollmentCourse id => rfl

theorem name_injective : Function.Injective name := by
  have hfree : PrefixFree tags := by decide
  have hmem : ∀ k : CoursewareKey, k.tag ∈ tags := by
    intro k
    cases k <;> simp [tag, tags]
  intro k k' h
  obtain ⟨htag, hrest⟩ := hfree.name_inj hmem name_eq h
  cases k <;> cases k' <;> first
    | rfl
    | exact congrArg _ (toString_injective hrest)
    | simp [tag] at htag

end CoursewareKey

namespace TwitterKey

def tags : List String := ["users", "user:", "tweet:"]

def tag : TwitterKey → String
  | users => "users"
  | tweet _ => "tweet:"
  | _ => "user:"

/-- What the names of what is kept about a user end in. -/
def endings : List String := [":name", ":following", ":followers", ":tweets"]

def rest : TwitterKey → String
  | users => ""
  | username id => toString id ++ ":name"
  | following id => toString id ++ ":following"
  | followers id => toString id ++ ":followers"
  | tweets id => toString id ++ ":tweets"
  | tweet id => toString id

theorem name_eq (k : TwitterKey) : k.name = k.tag ++ k.rest := by
  cases k with
  | users => exact String.append_empty.symm
  | username id => exact String.append_assoc
  | following id => exact String.append_assoc
  | followers id => exact String.append_assoc
  | tweets id => exact String.append_assoc
  | tweet id => rfl

theorem name_injective : Function.Injective name := by
  have hfree : PrefixFree tags := by decide
  have hendings : SuffixFree endings := by decide
  have hmem : ∀ k : TwitterKey, k.tag ∈ tags := by
    intro k
    cases k <;> simp [tag, tags]
  intro k k' h
  obtain ⟨htag, hrest⟩ := hfree.name_inj hmem name_eq h
  cases k <;> cases k' <;> first
    | rfl
    | exact congrArg _ (toString_injective hrest)
    -- the same ending after the same id, or different endings
    | exact congrArg _ (hendings.toString_append_inj (by decide) (by decide) hrest).1
    | exact absurd (hendings.toString_append_inj (by decide) (by decide) hrest).2 (by decide)
    | simp [tag] at htag

end TwitterKey

namespace CartKey

def tags : List String := ["cart:", "item:"]

def tag : CartKey → String
  | cart => "cart:"
  | quantity _ => "cart:"
  | itemName _ => "item:"
  | itemPrice _ => "item:"

def endings : List String := [":name", ":price", ":quantity"]

def rest (userId : Int) : CartKey → String
  | cart => toString userId
  | quantity id => toString userId ++ (":" ++ (toString id ++ ":quantity"))
  | itemName id => toString id ++ ":name"
  | itemPrice id => toString id ++ ":price"

theorem name_eq (userId : Int) (k : CartKey) : k.name userId = k.tag ++ k.rest userId := by
  cases k with
  | cart => rfl
  | quantity id =>
      show "cart:" ++ toString userId ++ ":" ++ toString id ++ ":quantity" = _
      rw [String.append_assoc, String.append_assoc, String.append_assoc]
      rfl
  | itemName id => exact String.append_assoc
  | itemPrice id => exact String.append_assoc

/-- A user's list has no quantity's name, which is longer. -/
theorem user_ne_quantity (user id : String) : user ≠ user ++ (":" ++ (id ++ ":quantity")) := by
  intro heq
  have hlen := congrArg String.length heq
  have hcolon : ":".length = 1 := rfl
  rw [String.length_append, String.length_append, hcolon] at hlen
  omega

theorem name_injective (userId : Int) : Function.Injective (name userId) := by
  have hfree : PrefixFree tags := by decide
  have hendings : SuffixFree endings := by decide
  have hmem : ∀ k : CartKey, k.tag ∈ tags := by
    intro k
    cases k <;> simp [tag, tags]
  have quantity : ∀ {id id' : Int}, toString userId ++ (":" ++ (toString id ++ ":quantity"))
      = toString userId ++ (":" ++ (toString id' ++ ":quantity")) → id = id' := by
    intro id id' heq
    rw [← String.append_assoc, ← String.append_assoc, ← String.append_assoc,
      ← String.append_assoc] at heq
    have hl := congrArg String.toList (hendings.append_inj (by decide) (by decide) heq).1
    simp only [String.toList_append] at hl
    exact toString_injective (String.toList_inj.mp (List.append_cancel_left hl))
  intro k k' h
  obtain ⟨htag, hrest⟩ := hfree.name_inj hmem (name_eq userId) h
  cases k <;> cases k' <;> first
    | rfl
    | exact congrArg _ (quantity hrest)
    | exact absurd hrest (user_ne_quantity _ _)
    | exact absurd hrest.symm (user_ne_quantity _ _)
    | exact congrArg _ (hendings.toString_append_inj (by decide) (by decide) hrest).1
    | exact absurd (hendings.toString_append_inj (by decide) (by decide) hrest).2 (by decide)
    | simp [tag] at htag

end CartKey

end MockDB
