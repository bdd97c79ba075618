import MockDB.Applications.ShoppingCart
import Mathlib.Data.List.Nodup
import Mathlib.Logic.Function.Basic

/-!
# A cart

What a cart is for: the items that are in it, each with a quantity. An item that is added
again gets more of it, a change sets the quantity of an item that is in the cart, and what
is removed is gone with its quantity. `CartState` is what the store has instead, a list of
ids and quantities of their own, and what the code makes of it.
-/

namespace MockDB

/-- Items with their quantities, each item once, in the order they came in. -/
structure Cart where
  entries : List (Item × Int)
  nodup : (entries.map fun e => e.1.id).Nodup

namespace Cart

def empty : Cart := ⟨[], List.nodup_nil⟩

/-- The items in the cart. -/
def ids (cart : Cart) : List Int := cart.entries.map fun e => e.1.id

/-- The quantity of an item that is in the cart. -/
def quantity? (cart : Cart) (id : Int) : Option Int :=
  (cart.entries.find? fun e => e.1.id = id).map Prod.snd

/-- Another quantity for one item, if it is in the cart. -/
def update (cart : Cart) (id : Int) (f : Int → Int) : Cart where
  entries := cart.entries.map fun e => if e.1.id = id then (e.1, f e.2) else e
  nodup := by
    have hids : ((fun e : Item × Int => e.1.id) ∘ fun e => if e.1.id = id then (e.1, f e.2) else e)
        = fun e => e.1.id := by
      funext e
      by_cases h : e.1.id = id <;> simp [h]
    rw [List.map_map, hids]
    exact cart.nodup

/-- Puts a new item into the cart, or adds to the quantity of one that is in it. -/
def add (cart : Cart) (i : Item) (quantity : Int) : Cart :=
  if h : i.id ∈ cart.ids then cart.update i.id fun q => q + quantity
  else
    { entries := cart.entries ++ [(i, quantity)]
      nodup := by
        rw [List.map_append, List.map_singleton]
        exact List.nodup_append.mpr ⟨cart.nodup, List.nodup_singleton _,
          fun id hid id' hid' heq => h (List.mem_singleton.mp hid' ▸ heq ▸ hid)⟩ }

/-- Sets the quantity of an item that is in the cart. -/
def change (cart : Cart) (id quantity : Int) : Cart := cart.update id fun _ => quantity

/-- Takes an item out of the cart. -/
def remove (cart : Cart) (id : Int) : Cart where
  entries := cart.entries.filter fun e => e.1.id ≠ id
  nodup := (List.filter_sublist.map _).nodup cart.nodup

/-- One call. -/
def step (cart : Cart) : CartOp → Cart
  | .addItem i => cart.add i 1
  | .addItems i quantity => cart.add i quantity
  | .changeQuantity i quantity => cart.change i.id quantity
  | .removeItem i => cart.remove i.id

/-- Calls one after another. -/
def run (ops : List CartOp) : Cart := ops.foldl step empty

theorem run_concat (ops : List CartOp) (op : CartOp) : run (ops ++ [op]) = (run ops).step op := by
  simp [run]

end Cart

/-- What the store has of a cart: the list of its items, and each quantity stored so far. -/
structure CartState where
  items : Option (List Int)
  quantity : Int → Option Int

namespace CartState

/-- No cart. -/
def empty : CartState := ⟨none, fun _ => none⟩

/-- The items in the cart. -/
def ids (st : CartState) : List Int := st.items.getD []

/-- `_get_quantity`. -/
def quantityOf (st : CartState) (id : Int) : Int := (st.quantity id).getD 0

/-- `_change_quantity`. -/
def setQuantity (st : CartState) (id quantity : Int) : CartState :=
  { st with quantity := Function.update st.quantity id (some quantity) }

/-- `_add_item`. -/
def addToList (st : CartState) (id : Int) : CartState :=
  if id ∈ st.ids then st else { st with items := some (st.ids ++ [id]) }

/-- `add_item`. -/
def add (st : CartState) (id quantity : Int) : CartState :=
  (st.addToList id).setQuantity id (st.quantityOf id + quantity)

/-- `change_quantity`, which takes quantity 0 for the mark of an item that was removed. -/
def change (st : CartState) (id quantity : Int) : CartState :=
  if st.quantityOf id ≠ 0 then st.setQuantity id quantity else st

/-- `remove_item`. -/
def remove (st : CartState) (id : Int) : CartState :=
  match st.items with
  | none => st
  | some ids =>
      { (if id ∈ ids then st.setQuantity id 0 else st) with
        items := some (ids.filter fun i => i ≠ id) }

/-- One call. -/
def step (st : CartState) : CartOp → CartState
  | .addItem i => st.add i.id 1
  | .addItems i quantity => st.add i.id quantity
  | .changeQuantity i quantity => st.change i.id quantity
  | .removeItem i => st.remove i.id

/-- Calls one after another. -/
def run (ops : List CartOp) : CartState := ops.foldl step empty

theorem run_concat (ops : List CartOp) (op : CartOp) : run (ops ++ [op]) = (run ops).step op := by
  simp [run]

/-- The items that ids stand for. -/
def itemsOf (items : List Item) (ids : List Int) : List Item :=
  ids.filterMap fun id => items.find? fun i => i.id = id

/-- What a call of a thread returns and leaves, where the store has these items. -/
def serve (items : List Item) : CartRequest → CartState → CartReply × CartState
  | .change op, st => (.done, st.step op)
  | .getQuantity i, st => (.quantity (st.quantityOf i.id), st)
  | .getItem id, st => ((items.find? fun i => i.id = id).elim .done .item, st)
  | .getCartList, st =>
      (.cartList ((itemsOf items st.ids).map fun i => (i, st.quantityOf i.id)), st)

end CartState

end MockDB
