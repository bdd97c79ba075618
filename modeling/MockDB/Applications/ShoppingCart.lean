import MockDB.Applications.App

/-!
# Shopping cart

`shopping_cart.h`. A cart keeps which items are in it under one key, and the quantity of
each under a key of its own, where quantity 0 also marks an item that was removed. What an
item is called and costs is in the store already. `get_bill`, which only returns `0` so
far, is left out.
-/

namespace MockDB

/-- `item`. -/
@[ext] structure Item where
  name : String
  id : Int
  price : Float

inductive CartKey where
  | cart
  | quantity (id : Int)
  | itemName (id : Int)
  | itemPrice (id : Int)
  deriving DecidableEq

/-- The strings the keys of a user's cart are. -/
def CartKey.name (userId : Int) : CartKey → String
  | cart => "cart:" ++ toString userId
  | quantity id => "cart:" ++ toString userId ++ ":" ++ toString id ++ ":quantity"
  | itemName id => "item:" ++ toString id ++ ":name"
  | itemPrice id => "item:" ++ toString id ++ ":price"

namespace ShoppingCart

open App Json

def shoes : Item := ⟨"shoes", 1, 100.0⟩
def book : Item := ⟨"book", 2, 200.0⟩
def umbrella : Item := ⟨"umbrella", 3, 300.0⟩
def ball : Item := ⟨"ball", 4, 400.0⟩
def bat : Item := ⟨"bat", 5, 500.0⟩
def table : Item := ⟨"table", 6, 600.0⟩

/-- Puts items into the store, as the tests do before they use a cart. -/
def populate : List Item → App CartKey Unit
  | [] => pure ()
  | i :: rest => do
      put (.itemName i.id) (string i.name) defaultSession
      put (.itemPrice i.id) (double i.price) defaultSession
      populate rest

/-- `_add_item`. It catches no exception but the one of a missing key. -/
def addToList (id sessionId : Int) : App CartKey Unit := do
  match ← (get .cart sessionId).attempt with
  | .error (.store (.keyNotFound _)) =>
      -- no cart exists, create a new one and add item
      let cart ← json (Json.null.setField "items" (array []))
      let cart ← json (cart.appendAt "items" 0 (number id))
      put .cart cart sessionId
  | .error e => Program.raise e
  | .ok cart =>
      -- Check if already present
      let items ← json (cart.elements "items")
      if items.any fun it => it.isNumber id then pure ()
      else
        let itemCount ← json cart.count
        let cart ← json (cart.appendAt "items" itemCount (number id))
        put .cart cart sessionId

/-- `_get_quantity`, `0` if there is none that can be read. -/
def getQuantity (id sessionId : Int) : App CartKey Int := do
  let quantity ← (do
    let val ← get (.quantity id) sessionId
    json ((val.field "value").bind asInteger) : App CartKey Int).attempt
  match quantity with
  | .ok quantity => pure quantity
  | .error _ => pure 0

/-- `_change_quantity`. -/
def setQuantity (id quantity sessionId : Int) : App CartKey Unit := do
  let val ← json (Json.null.setField "value" (number quantity))
  put (.quantity id) val sessionId

/-- `_add_quantity`. The sum is taken to be an `int`. -/
def addQuantity (id quantity sessionId : Int) : App CartKey Unit := do
  let existingQuantity ← getQuantity id sessionId
  setQuantity id (existingQuantity + quantity) sessionId

/-- `add_item` with a quantity. -/
def addItems (i : Item) (quantity sessionId : Int) : App CartKey Unit := do
  addToList i.id sessionId
  addQuantity i.id quantity sessionId

/-- `add_item`. -/
def addItem (i : Item) (sessionId : Int) : App CartKey Unit := do
  addToList i.id sessionId
  addQuantity i.id 1 sessionId

/-- `change_quantity`. -/
def changeQuantity (i : Item) (quantity sessionId : Int) : App CartKey Unit := do
  let oldQuantity ← getQuantity i.id sessionId
  -- update quantity if item has not been deleted
  if oldQuantity ≠ 0 then setQuantity i.id quantity sessionId else pure ()

/-- The loop of `remove_item`, which returns the items it keeps. -/
def removeLoop (id sessionId : Int) : List Json → App CartKey (List Json)
  | [] => pure []
  | it :: rest =>
      if it.isNumber id then do
        -- Mark quantity as 0
        setQuantity id 0 sessionId
        removeLoop id sessionId rest
      else do
        let newItems ← removeLoop id sessionId rest
        pure (it :: newItems)

/-- `remove_item`. -/
def removeItem (i : Item) (sessionId : Int) : App CartKey Unit := do
  match ← (get .cart sessionId).attempt with
  | .error _ => pure ()
  | .ok cart =>
      let items ← json (cart.elements "items")
      let newItems ← removeLoop i.id sessionId items
      let cart ← json (cart.setList "items" newItems newItems.length)
      put .cart cart sessionId

/-- `get_item`. -/
def getItem (id sessionId : Int) : App CartKey Item := do
  let name ← get (.itemName id) sessionId
  let name ← json name.asString
  let price ← get (.itemPrice id) sessionId
  let price ← json price.asDouble
  pure { name, id, price }

/-- The loop of `get_cart_list`. -/
def cartLoop (sessionId : Int) : List Json → App CartKey (List (Item × Int))
  | [] => pure []
  | i :: rest => do
      let id ← json i.asInteger
      let quantity ← getQuantity id sessionId
      let item ← getItem id sessionId
      let cartList ← cartLoop sessionId rest
      pure ((item, quantity) :: cartList)

/-- `get_cart_list`. -/
def getCartList (sessionId : Int) : App CartKey (List (Item × Int)) := do
  match ← (get .cart sessionId).attempt with
  | .error _ => pure []
  | .ok cart =>
      let items ← json (cart.elements "items")
      cartLoop sessionId items

end ShoppingCart

/-- The calls that change a cart. -/
inductive CartOp where
  | addItem (i : Item)
  | addItems (i : Item) (quantity : Int)
  | changeQuantity (i : Item) (quantity : Int)
  | removeItem (i : Item)

/-- What a call runs. -/
def CartOp.program (sessionId : Int) : CartOp → App CartKey Unit
  | addItem i => ShoppingCart.addItem i sessionId
  | addItems i quantity => ShoppingCart.addItems i quantity sessionId
  | changeQuantity i quantity => ShoppingCart.changeQuantity i quantity sessionId
  | removeItem i => ShoppingCart.removeItem i sessionId

/-- The item a call is about. -/
def CartOp.item : CartOp → Item
  | addItem i => i
  | addItems i _ => i
  | changeQuantity i _ => i
  | removeItem i => i

/-- The calls of a thread, those included that only read. -/
inductive CartRequest where
  | change (op : CartOp)
  | getQuantity (i : Item)
  | getItem (itemId : Int)
  | getCartList

/-- What they return. -/
inductive CartReply where
  | done
  | quantity (quantity : Int)
  | item (i : Item)
  | cartList (cartList : List (Item × Int))

/-- What a call runs, with what it returns. -/
def CartRequest.reply (sessionId : Int) : CartRequest → App CartKey CartReply
  | change op => do
      op.program sessionId
      pure .done
  | getQuantity i => do
      let quantity ← ShoppingCart.getQuantity i.id sessionId
      pure (.quantity quantity)
  | getItem itemId => do
      let item ← ShoppingCart.getItem itemId sessionId
      pure (.item item)
  | getCartList => do
      let cartList ← ShoppingCart.getCartList sessionId
      pure (.cartList cartList)

/-- The item a call adds. -/
def CartRequest.itemAdded : CartRequest → Option Int
  | change (.addItem i) => some i.id
  | change (.addItems i _) => some i.id
  | _ => none

/-- A call, with the session that makes it and its random numbers. -/
structure CartCall where
  op : CartOp
  sessionId : Int
  draws : Nat → Draws

/-- The store after whole calls on a user's cart, one at a time. -/
def ShoppingCart.after (userId : Int) (w : World String Json) (calls : List CartCall) :
    World String Json :=
  App.runAll (CartKey.name userId) w
    (calls.map fun call => (call.op.program call.sessionId, call.draws))

end MockDB
