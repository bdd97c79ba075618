import MockDB.Proof.AppRun
import MockDB.Proof.KeyNames
import MockDB.Spec.Cart

/-!
# A cart on a linearizable store

One lemma for each call: run on the map that a state is stored as, it leaves the map that
the next state is stored as. So a run of the code follows the states.
-/

namespace MockDB

namespace CartState

/-- The value under which a quantity is stored. -/
def quantityRecord (quantity : Int) : Json := .object [("value", .number quantity)]

/-- The values the store has for a state, over a store that has the items. -/
def toMap (base : CartKey → Option Json) (st : CartState) : CartKey → Option Json
  | .cart => st.items.map (Json.idList "items")
  | .quantity id => (st.quantity id).map quantityRecord
  | .itemName id => base (.itemName id)
  | .itemPrice id => base (.itemPrice id)

section Update

variable (base : CartKey → Option Json) (st : CartState)

@[simp] theorem update_cart (ids : List Int) :
    Function.update (st.toMap base) .cart (some (Json.idList "items" ids))
      = { st with items := some ids }.toMap base := by
  funext k
  cases k <;> simp [toMap, Function.update]

@[simp] theorem update_quantity (id quantity : Int) :
    Function.update (st.toMap base) (.quantity id) (some (quantityRecord quantity))
      = (st.setQuantity id quantity).toMap base := by
  funext k
  cases k with
  | quantity id' => by_cases h : id' = id <;> simp [toMap, setQuantity, Function.update, h]
  | _ => simp [toMap, setQuantity, Function.update]

theorem setQuantity_self (id q q' : Int) :
    (st.setQuantity id q).setQuantity id q' = st.setQuantity id q' := by
  simp [setQuantity]

end Update

end CartState

namespace ShoppingCart

open App CartState

/-- The item is in the store. -/
def Present (base : CartKey → Option Json) (i : Item) : Prop :=
  base (.itemName i.id) = some (.string i.name) ∧ base (.itemPrice i.id) = some (.double i.price)

variable (userId : Int) (base : CartKey → Option Json) (st : CartState) (sessionId : Int)

theorem items_ne_count : "items" ≠ "count" := by decide

theorem any_isNumber (ids : List Int) (id : Int) :
    (ids.map Json.number).any (fun it => it.isNumber id) = decide (id ∈ ids) := by
  induction ids with
  | nil => rfl
  | cons id' ids ih =>
      rw [List.map_cons, List.any_cons, ih]
      by_cases h : id' = id
      · simp [Json.isNumber, h]
      · simp [Json.isNumber, h, Ne.symm h]

theorem onMap_addToList (id : Int) :
    (addToList id sessionId).onMap (missing (CartKey.name userId)) (st.toMap base)
      = (.ok (), (st.addToList id).toMap base) := by
  have hcart : st.toMap base .cart = st.items.map (Json.idList "items") := rfl
  unfold addToList CartState.addToList ids
  cases hitems : st.items with
  | none =>
      have hnew : Json.null.setField "items" (.array []) = some (.object [("items", .array [])]) :=
        rfl
      have hfirst : (Json.object [("items", .array [])]).appendAt "items" 0 (.number id)
          = some (Json.idList "items" [id]) := by
        simp [Json.appendAt, Json.field, Json.setElement, Json.setIndex, Json.setField,
          Json.setEntry, Json.idList, Json.listOf]
      simp [hcart, hitems, missing, hnew, hfirst]
  | some ids =>
      have hany := any_isNumber ids id
      simp only [Program.onMap_bind, Program.onMap_attempt, onMap_get, hcart, hitems,
        Option.map_some, Option.elim_some, Program.after_ok, onMap_json, Json.elements_idList, hany]
      by_cases hmem : id ∈ ids
      · simp [hmem]
      · simp [hmem, Json.count_idList _ items_ne_count, Json.appendAt_idList _ items_ne_count]

variable (miss : CartKey → StoreException String)

theorem onMap_getQuantity (id : Int) :
    (getQuantity id sessionId).onMap miss (st.toMap base)
      = (.ok (st.quantityOf id), st.toMap base) := by
  have hq : st.toMap base (.quantity id) = (st.quantity id).map quantityRecord := rfl
  unfold getQuantity quantityOf
  cases h : st.quantity id with
  | none => simp [hq, h]
  | some q =>
      have hread : ((quantityRecord q).field "value").bind Json.asInteger = some q := by
        simp [quantityRecord, Json.field, Json.asInteger]
      simp [hq, h, hread]

theorem onMap_setQuantity (id quantity : Int) :
    (setQuantity id quantity sessionId).onMap miss (st.toMap base)
      = (.ok (), (st.setQuantity id quantity).toMap base) := by
  have hval : Json.null.setField "value" (.number quantity) = some (quantityRecord quantity) := rfl
  simp [setQuantity, hval]

theorem onMap_addQuantity (id quantity : Int) :
    (addQuantity id quantity sessionId).onMap miss (st.toMap base)
      = (.ok (), (st.setQuantity id (st.quantityOf id + quantity)).toMap base) := by
  simp [addQuantity, onMap_getQuantity, onMap_setQuantity]

theorem quantityOf_addToList (id id' : Int) :
    (st.addToList id).quantityOf id' = st.quantityOf id' := by
  unfold CartState.addToList
  by_cases h : id ∈ st.ids
  · rw [if_pos h]
  · rw [if_neg h]; rfl

theorem onMap_addItems (i : Item) (quantity : Int) :
    (addItems i quantity sessionId).onMap (missing (CartKey.name userId)) (st.toMap base)
      = (.ok (), (st.add i.id quantity).toMap base) := by
  simp [addItems, onMap_addToList, onMap_addQuantity, quantityOf_addToList, CartState.add]

theorem onMap_changeQuantity (i : Item) (quantity : Int) :
    (changeQuantity i quantity sessionId).onMap miss (st.toMap base)
      = (.ok (), (st.change i.id quantity).toMap base) := by
  unfold changeQuantity CartState.change
  by_cases h : st.quantityOf i.id = 0
  · simp [onMap_getQuantity, h]
  · simp [onMap_getQuantity, onMap_setQuantity, h]

/-- The loop keeps the other items, and marks the item as removed if it was there. -/
theorem onMap_removeLoop (id : Int) (ids : List Int) :
    (removeLoop id sessionId (ids.map Json.number)).onMap miss (st.toMap base)
      = (.ok ((ids.filter fun i => i ≠ id).map Json.number),
          (if id ∈ ids then st.setQuantity id 0 else st).toMap base) := by
  induction ids generalizing st with
  | nil => simp [removeLoop]
  | cons id' ids ih =>
      by_cases h : id' = id
      · subst h
        have hmarked : (if id' ∈ ids then (st.setQuantity id' 0).setQuantity id' 0
            else st.setQuantity id' 0) = st.setQuantity id' 0 := by
          rw [setQuantity_self, ite_self]
        simp [removeLoop, Json.isNumber, onMap_setQuantity, ih, hmarked]
      · have hmem : (id ∈ id' :: ids) = (id ∈ ids) := by simp [Ne.symm h]
        simp [removeLoop, Json.isNumber, h, ih, hmem]

theorem onMap_removeItem (i : Item) :
    (removeItem i sessionId).onMap miss (st.toMap base)
      = (.ok (), (st.remove i.id).toMap base) := by
  have hcart : st.toMap base .cart = st.items.map (Json.idList "items") := rfl
  unfold removeItem CartState.remove
  cases hitems : st.items with
  | none => simp [hcart, hitems]
  | some ids =>
      have hlist := Json.setList_idList ids items_ne_count (ids.filter fun j => j ≠ i.id)
      have hlength : (((ids.filter fun j => j ≠ i.id).map Json.number).length : Int)
          = ((ids.filter fun j => j ≠ i.id).length : Int) := by rw [List.length_map]
      simp only [Program.onMap_bind, Program.onMap_attempt, onMap_get, hcart, hitems,
        Option.map_some, Option.elim_some, Program.after_ok, onMap_json, Json.elements_idList,
        onMap_removeLoop, hlength, hlist, onMap_put, update_cart]

/-- The loop of `get_cart_list` finds each item that is in the store, with its quantity. -/
theorem onMap_cartLoop (is : List Item) (his : ∀ i ∈ is, Present base i) :
    (cartLoop sessionId (is.map fun i => .number i.id)).onMap miss (st.toMap base)
      = (.ok (is.map fun i => (i, st.quantityOf i.id)), st.toMap base) := by
  induction is with
  | nil => rfl
  | cons i is ih =>
      obtain ⟨hname, hprice⟩ := his i List.mem_cons_self
      have hitem : (getItem i.id sessionId).onMap miss (st.toMap base)
          = (.ok i, st.toMap base) := by
        have hname' : st.toMap base (.itemName i.id) = some (.string i.name) := hname
        have hprice' : st.toMap base (.itemPrice i.id) = some (.double i.price) := hprice
        simp [getItem, hname', hprice', Json.asString, Json.asDouble]
      have hrest := ih fun j hj => his j (List.mem_cons_of_mem i hj)
      simp [cartLoop, Json.asInteger, onMap_getQuantity, hitem, hrest]

/-- `get_cart_list` on a cart whose items are in the store. -/
theorem onMap_getCartList (is : List Item) (his : ∀ i ∈ is, Present base i)
    (hids : st.ids = is.map Item.id) :
    (getCartList sessionId).onMap miss (st.toMap base)
      = (.ok (is.map fun i => (i, st.quantityOf i.id)), st.toMap base) := by
  have hcart : st.toMap base .cart = st.items.map (Json.idList "items") := rfl
  unfold CartState.ids at hids
  unfold getCartList
  cases hitems : st.items with
  | none =>
      rw [hitems] at hids
      rw [List.map_eq_nil_iff.mp hids.symm]
      simp [hcart, hitems]
  | some ids =>
      rw [hitems, Option.getD_some] at hids
      have hlist : ids.map Json.number = is.map fun i => .number i.id := by
        rw [hids, List.map_map]; rfl
      simp [hcart, hitems, Json.elements_idList, hlist,
        onMap_cartLoop base st sessionId miss is his]

/-- **A call on the map of a state leaves the map of the next state.** -/
theorem onMap_program (op : CartOp) :
    ((op.program sessionId).onMap (missing (CartKey.name userId)) (st.toMap base)).2
      = (st.step op).toMap base := by
  cases op with
  | addItem i =>
      have hsame : addItem i sessionId = addItems i 1 sessionId := rfl
      rw [CartOp.program, hsame, onMap_addItems]
      rfl
  | addItems i quantity => rw [CartOp.program, onMap_addItems]; rfl
  | changeQuantity i quantity => rw [CartOp.program, onMap_changeQuantity]; rfl
  | removeItem i => rw [CartOp.program, onMap_removeItem]; rfl

end ShoppingCart

end MockDB
