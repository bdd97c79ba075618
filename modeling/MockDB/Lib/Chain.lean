import Mathlib.Data.List.Basic
import Mathlib.Logic.Function.Basic

/-!
# Linked lists in a store

Nodes live in a store under ids, each with a value and the id of the next node. A chain is
what can be reached from an id, down to the null id.
-/

/-- From `id` the store leads through the nodes of `l` to `null`. -/
inductive Chain {Id Val : Type*} (view : Id → Option (Val × Id)) (null : Id) :
    Id → List (Id × Val) → Prop
  | nil : Chain view null null []
  | cons {id next : Id} {v : Val} {l : List (Id × Val)} (hnull : id ≠ null)
      (hnode : view id = some (v, next)) (hrest : Chain view null next l) :
      Chain view null id ((id, v) :: l)

namespace Chain

variable {Id Val : Type*} {view : Id → Option (Val × Id)} {null id : Id} {l : List (Id × Val)}

/-- Nothing is reached from the null id. -/
theorem eq_nil (h : Chain view null null l) : l = [] := by
  cases h with
  | nil => rfl
  | cons hnull _ _ => exact absurd rfl hnull

/-- Any other id is that of the first node. -/
theorem exists_cons (h : Chain view null id l) (hnull : id ≠ null) :
    ∃ v next rest, view id = some (v, next) ∧ l = (id, v) :: rest ∧ Chain view null next rest := by
  cases h with
  | nil => exact absurd rfl hnull
  | cons _ hnode hrest => exact ⟨_, _, _, hnode, rfl, hrest⟩

/-- The store has the nodes of a chain. -/
theorem view_ne_none (h : Chain view null id l) : ∀ p ∈ l, view p.1 ≠ none := by
  induction h with
  | nil => exact fun p hp => (List.not_mem_nil hp).elim
  | cons hnull hnode _ ih =>
      intro p hp
      rcases List.mem_cons.mp hp with rfl | hp
      · rw [hnode]; exact Option.some_ne_none _
      · exact ih p hp

/-- From a node that is linked to itself there is no way to the end. -/
theorem not_of_self_link (hnull : id ≠ null) {v : Val} (hself : view id = some (v, id)) :
    ¬ Chain view null id l := by
  intro h
  induction l with
  | nil => cases h; exact hnull rfl
  | cons p l ih =>
      cases h with
      | cons _ hnode hrest =>
          rw [hself] at hnode
          obtain rfl := (Prod.mk.inj (Option.some.inj hnode)).2
          exact ih hrest

/-- Chains only depend on their own nodes. -/
theorem congr {view' : Id → Option (Val × Id)} (h : Chain view null id l)
    (heq : ∀ p ∈ l, view' p.1 = view p.1) : Chain view' null id l := by
  induction h with
  | nil => exact .nil
  | cons hnull hnode _ ih =>
      refine .cons hnull ?_ (ih fun p hp => heq p (List.mem_cons_of_mem _ hp))
      rw [heq _ List.mem_cons_self]
      exact hnode

/-- **Writing any other node** leaves a chain as it is. -/
theorem update [DecidableEq Id] (h : Chain view null id l) {k : Id} (x : Val × Id)
    (hk : ∀ p ∈ l, p.1 ≠ k) : Chain (Function.update view k (some x)) null id l :=
  h.congr fun p hp => Function.update_of_ne (hk p hp) _ _

end Chain
