import MockDB.Proof.CartRun
import MockDB.Proof.Threads

/-!
# A cart, under any isolation

Whatever is read, each version of a cart's list has an item at most once, and only items that
some call added. What an item is called and costs never changes once it is in the store, and
every session reads it, since it has no other version. So a list of the cart shows real items,
each at most once, however calls interleave.
-/

namespace MockDB

namespace ShoppingCart

open App CartState

variable (items : List Item) (Added : Int → Prop)

/-- What every version under a key is. -/
def Fits : CartKey → Json → Prop
  | .cart, v => ∃ ids, v = Json.idList "items" ids ∧ ids.Nodup ∧ ∀ id ∈ ids, Added id
  | .quantity _, v => ∃ quantity, v = quantityRecord quantity
  | .itemName id, v => ∃ i ∈ items, i.id = id ∧ v = .string i.name
  | .itemPrice id, v => ∃ i ∈ items, i.id = id ∧ v = .double i.price

/-- The keys that have values once the items are in the store. -/
def Populated : CartKey → Prop
  | .itemName id => ∃ i ∈ items, i.id = id
  | .itemPrice id => ∃ i ∈ items, i.id = id
  | _ => False

variable {items Added} {userId : Int}

/-- Operations return, whatever versions they read. -/
abbrev Returns {α : Type} (items : List Item) (Added : Int → Prop) (userId : Int)
    (p : App CartKey α) (Q : α → Prop) : Prop :=
  Program.Returns (Fits items Added) (Populated items) (missing (CartKey.name userId)) p Q

/-! ## One lemma for each operation -/

theorem returns_addToList {id : Int} (hadded : Added id) (s : Int) :
    Returns items Added userId (addToList id s) fun _ => True := by
  refine attempt_get_then s ?_ fun v hv => ?_
  · have hnew : Json.null.setField "items" (.array []) = some (.object [("items", .array [])]) :=
      rfl
    have hfirst : (Json.object [("items", .array [])]).appendAt "items" 0 (.number id)
        = some (Json.idList "items" [id]) := by
      simp [Json.appendAt, Json.field, Json.setElement, Json.setIndex, Json.setField,
        Json.setEntry, Json.idList, Json.listOf]
    have hkey : Fits items Added .cart (Json.idList "items" [id]) :=
      ⟨[id], rfl, List.nodup_singleton id, fun id' hid' => List.mem_singleton.mp hid' ▸ hadded⟩
    exact json_then hnew (json_then hfirst (returns_put s hkey trivial))
  · obtain ⟨ids, rfl, hnodup, hids⟩ := hv
    refine json_then (Json.elements_idList ids) ?_
    rw [any_isNumber]
    by_cases hid : id ∈ ids
    · rw [if_pos (decide_eq_true hid)]
      exact Program.returns_pure trivial
    · rw [if_neg (by simpa using hid)]
      have hkey : Fits items Added .cart (Json.idList "items" (ids ++ [id])) := by
        refine ⟨_, rfl, ListOrder.nodup_concat.mpr ⟨hid, hnodup⟩, fun id' hid' => ?_⟩
        rcases List.mem_append.mp hid' with hold | hnew
        · exact hids id' hold
        · exact List.mem_singleton.mp hnew ▸ hadded
      exact json_then (Json.count_idList ids items_ne_count)
        (json_then (Json.appendAt_idList ids items_ne_count id) (returns_put s hkey trivial))

theorem returns_getQuantity (id s : Int) :
    Returns items Added userId (getQuantity id s) fun _ => True := by
  have hread : ∀ v, Fits items Added (.quantity id) v →
      ∃ q, (v.field "value").bind Json.asInteger = some q := by
    rintro _ ⟨q, rfl⟩
    exact ⟨q, by simp [quantityRecord, Json.field, Json.asInteger]⟩
  refine Program.Returns.bind (R := fun _ => True) (Program.Returns.attempt ?_) fun res _ => ?_
  · refine ⟨fun _ => trivial, fun v hv => ?_⟩
    obtain ⟨q, hq⟩ := hread v hv
    exact Program.among_mono (returns_json hq (Q := fun _ => True) trivial) fun _ _ => trivial
  · cases res with
    | ok q => exact Program.returns_pure trivial
    | error e => exact Program.returns_pure trivial

theorem returns_setQuantity (id quantity s : Int) :
    Returns items Added userId (setQuantity id quantity s) fun _ => True := by
  have hkey : Fits items Added (.quantity id) (quantityRecord quantity) := ⟨quantity, rfl⟩
  exact json_then (a := quantityRecord quantity) rfl (returns_put s hkey trivial)

theorem returns_addQuantity (id quantity s : Int) :
    Returns items Added userId (addQuantity id quantity s) fun _ => True :=
  (returns_getQuantity id s).bind fun _ _ => returns_setQuantity id _ s

theorem returns_changeQuantity (i : Item) (quantity s : Int) :
    Returns items Added userId (changeQuantity i quantity s) fun _ => True := by
  refine (returns_getQuantity i.id s).bind fun old _ => ?_
  by_cases hold : old ≠ 0
  · rw [if_pos hold]
    exact returns_setQuantity i.id quantity s
  · rw [if_neg hold]
    exact Program.returns_pure trivial

theorem returns_removeLoop (id s : Int) (ids : List Int) :
    Returns items Added userId (removeLoop id s (ids.map Json.number)) fun newItems =>
      newItems = (ids.filter fun i => i ≠ id).map Json.number := by
  induction ids with
  | nil => exact Program.returns_pure rfl
  | cons id' ids ih =>
      by_cases h : id' = id
      · subst h
        rw [List.map_cons, removeLoop, if_pos (by simp [Json.isNumber])]
        refine (returns_setQuantity id' 0 s).bind fun _ _ => ih.mono fun newItems hnew => ?_
        rw [hnew, List.filter_cons_of_neg (by simp)]
      · rw [List.map_cons, removeLoop, if_neg (by simpa [Json.isNumber] using h)]
        refine ih.bind fun newItems hnew => Program.returns_pure ?_
        rw [hnew, List.filter_cons_of_pos (by simpa using h), List.map_cons]

theorem returns_removeItem (i : Item) (s : Int) :
    Returns items Added userId (removeItem i s) fun _ => True := by
  refine attempt_get_then s (Program.returns_pure trivial) fun v hv => ?_
  obtain ⟨ids, rfl, hnodup, hids⟩ := hv
  refine json_then (Json.elements_idList ids) ?_
  refine (returns_removeLoop i.id s ids).bind fun newItems hnew => ?_
  subst hnew
  have hset := Json.setList_idList ids items_ne_count (ids.filter fun id => id ≠ i.id)
  have hkey : Fits items Added .cart (Json.idList "items" (ids.filter fun id => id ≠ i.id)) :=
    ⟨_, rfl, hnodup.filter _, fun id hid => hids id (List.mem_filter.mp hid).1⟩
  rw [List.length_map]
  exact json_then hset (returns_put s hkey trivial)

/-- An item is read as it was put into the store, the name and the price of one item. -/
theorem returns_getItem (hitems : (items.map (·.id)).Nodup) {id : Int}
    (hid : ∃ i ∈ items, i.id = id) (s : Int) :
    Returns items Added userId (getItem id s) fun i => i ∈ items ∧ i.id = id := by
  refine Program.Returns.bind (returns_get s hid
    (Q := fun v => ∃ i ∈ items, i.id = id ∧ v = .string i.name) fun _ hv => hv) fun v hv => ?_
  obtain ⟨i, hi, hiid, rfl⟩ := hv
  refine json_then (a := i.name) rfl (Program.Returns.bind (returns_get s hid
    (Q := fun v => ∃ i ∈ items, i.id = id ∧ v = .double i.price) fun _ hv => hv) fun v hv => ?_)
  obtain ⟨j, hj, hjid, rfl⟩ := hv
  refine json_then (a := j.price) rfl (Program.returns_pure ?_)
  have hij : i = j := List.inj_on_of_nodup_map hitems hi hj (hiid.trans hjid.symm)
  subst hij
  subst hiid
  exact ⟨hi, rfl⟩

theorem returns_cartLoop (hitems : (items.map (·.id)).Nodup)
    (hknown : ∀ id, Added id → ∃ i ∈ items, i.id = id) (s : Int) {ids : List Int}
    (hids : ∀ id ∈ ids, Added id) :
    Returns items Added userId (cartLoop s (ids.map Json.number)) fun cartList =>
      cartList.map (·.1.id) = ids ∧ ∀ entry ∈ cartList, entry.1 ∈ items := by
  induction ids with
  | nil => exact Program.returns_pure ⟨rfl, fun _ h => nomatch h⟩
  | cons id ids ih =>
      refine json_then (a := id) rfl ((returns_getQuantity id s).bind fun quantity _ => ?_)
      have hid := hknown id (hids id List.mem_cons_self)
      refine (returns_getItem hitems hid s).bind fun i hi => ?_
      obtain ⟨hmem, rfl⟩ := hi
      refine (ih fun id' hid' => hids id' (List.mem_cons_of_mem _ hid')).bind fun more hmore => ?_
      refine Program.returns_pure ⟨congrArg (i.id :: ·) hmore.1, fun entry hentry => ?_⟩
      rcases List.mem_cons.mp hentry with rfl | hrest
      · exact hmem
      · exact hmore.2 entry hrest

/-- A list of the cart: real items, each at most once, and each of them added by a call. -/
theorem returns_getCartList (hitems : (items.map (·.id)).Nodup)
    (hknown : ∀ id, Added id → ∃ i ∈ items, i.id = id) (s : Int) :
    Returns items Added userId (getCartList s) fun cartList =>
      (cartList.map (·.1.id)).Nodup ∧ ∀ entry ∈ cartList, entry.1 ∈ items ∧ Added entry.1.id := by
  refine attempt_get_then s (Program.returns_pure ⟨List.nodup_nil, fun _ h => nomatch h⟩)
    fun v hv => ?_
  obtain ⟨ids, rfl, hnodup, hids⟩ := hv
  refine json_then (Json.elements_idList ids) ?_
  refine (returns_cartLoop hitems hknown s hids).mono fun cartList h => ?_
  obtain ⟨rfl, hmem⟩ := h
  exact ⟨hnodup, fun entry hentry => ⟨hmem entry hentry, hids _ (List.mem_map_of_mem hentry)⟩⟩

/-- There is no name under an id that no item has. -/
theorem among_getItem_unknown {id : Int} (hid : ¬ ∃ i ∈ items, i.id = id) (s : Int) :
    (getItem id s).among (Fits items Added) (Populated items) (missing (CartKey.name userId))
      fun r => r = .error (.store (missing (CartKey.name userId) (.itemName id))) :=
  ⟨fun _ => rfl, fun _ hv => absurd (hv.imp fun _ hi => ⟨hi.1, hi.2.1⟩) hid⟩

/-! ## All calls -/

variable (items Added) in
/-- What a call may return. -/
def Answers : CartRequest → CartReply → Prop
  | .change _, .done => True
  | .getQuantity _, .quantity _ => True
  | .getItem id, .item i => i ∈ items ∧ i.id = id
  | .getCartList, .cartList cartList =>
      (cartList.map (·.1.id)).Nodup ∧ ∀ entry ∈ cartList, entry.1 ∈ items ∧ Added entry.1.id
  | _, _ => False

variable (items userId) in
/-- The only exception that leaves a call. -/
def Throws (request : CartRequest) (e : AppException) : Prop :=
  ∃ id, request = .getItem id ∧ (¬ ∃ i ∈ items, i.id = id)
    ∧ e = .store (missing (CartKey.name userId) (.itemName id))

theorem returns_change {op : CartOp}
    (hadded : ∀ id, (CartRequest.change op).itemAdded = some id → Added id) (s : Int) :
    Returns items Added userId (op.program s) fun _ => True := by
  cases op with
  | addItem i =>
      exact (returns_addToList (hadded i.id rfl) s).bind fun _ _ => returns_addQuantity i.id 1 s
  | addItems i quantity =>
      exact (returns_addToList (hadded i.id rfl) s).bind fun _ _ =>
        returns_addQuantity i.id quantity s
  | changeQuantity i quantity => exact returns_changeQuantity i quantity s
  | removeItem i => exact returns_removeItem i s

/-- What is asked of a call, whether it returns or throws. -/
def Ends (items : List Item) (Added : Int → Prop) (userId : Int) (request : CartRequest) :
    Except AppException CartReply → Prop
  | .ok reply => Answers items Added request reply
  | .error e => Throws items userId request e

theorem among_reply (hitems : (items.map (·.id)).Nodup)
    (hknown : ∀ id, Added id → ∃ i ∈ items, i.id = id) {request : CartRequest}
    (hadded : ∀ id, request.itemAdded = some id → Added id) (s : Int) :
    (request.reply s).among (Fits items Added) (Populated items) (missing (CartKey.name userId))
      (Ends items Added userId request) := by
  have hends : ∀ {p : App CartKey CartReply},
      Returns items Added userId p (Answers items Added request) →
      p.among (Fits items Added) (Populated items) (missing (CartKey.name userId))
        (Ends items Added userId request) := fun h =>
    Program.among_mono h fun _ ⟨_, heq, ha⟩ => heq ▸ ha
  cases request with
  | change op =>
      exact hends ((returns_change hadded s).bind fun _ _ => Program.returns_pure trivial)
  | getQuantity i =>
      exact hends ((returns_getQuantity i.id s).bind fun _ _ => Program.returns_pure trivial)
  | getCartList =>
      exact hends ((returns_getCartList hitems hknown s).bind fun _ h => Program.returns_pure h)
  | getItem id =>
      by_cases hid : ∃ i ∈ items, i.id = id
      · exact hends ((returns_getItem hitems hid s).bind fun _ h => Program.returns_pure h)
      · refine (Program.among_bind _ _ _).mpr
          (Program.among_mono (among_getItem_unknown hid s) fun r hr => ?_)
        subst hr
        exact ⟨id, rfl, hid, rfl⟩

/-- Items put into a store are there from then on. -/
theorem holds_populate {w : World String Json} {H : CartKey → Prop} {stock : List Item}
    (hstock : ∀ i ∈ stock, i ∈ items)
    (h : Holds (CartKey.name userId) (Fits items Added) H w) (draws : Nat → Draws) :
    Holds (CartKey.name userId) (Fits items Added) (fun key => H key ∨ Populated stock key)
      (run (CartKey.name userId) (populate stock) draws w).2 := by
  induction stock generalizing w H with
  | nil =>
      refine h.mono fun key hkey => hkey.resolve_right fun hno => ?_
      cases key with
      | itemName id => exact (hno.imp fun _ hi => hi.1).elim fun _ hi => nomatch hi
      | itemPrice id => exact (hno.imp fun _ hi => hi.1).elim fun _ hi => nomatch hi
      | cart => exact hno
      | quantity id => exact hno
  | cons i rest ih =>
      have hi : i ∈ items := hstock i List.mem_cons_self
      have hname : Fits items Added (.itemName i.id) (.string i.name) := ⟨i, hi, rfl, rfl⟩
      have hprice : Fits items Added (.itemPrice i.id) (.double i.price) := ⟨i, hi, rfl, rfl⟩
      have hinj := CartKey.name_injective userId
      have hstored := ih (fun j hj => hstock j (List.mem_cons_of_mem _ hj))
        ((h.put hinj hname defaultSession).put hinj hprice defaultSession)
      refine hstored.mono fun key hkey => ?_
      have hcons : ∀ id, (∃ j ∈ i :: rest, j.id = id) → i.id = id ∨ ∃ j ∈ rest, j.id = id := by
        rintro id ⟨j, hj, hid⟩
        rcases List.mem_cons.mp hj with rfl | hrest
        · exact Or.inl hid
        · exact Or.inr ⟨j, hrest, hid⟩
      cases key with
      | itemName id =>
          rcases hkey with hkey | hkey
          · exact Or.inl (Or.inl (Or.inl hkey))
          · rcases hcons id hkey with rfl | hrest
            · exact Or.inl (Or.inl (Or.inr rfl))
            · exact Or.inr hrest
      | itemPrice id =>
          rcases hkey with hkey | hkey
          · exact Or.inl (Or.inl (Or.inl hkey))
          · rcases hcons id hkey with rfl | hrest
            · exact Or.inl (Or.inr rfl)
            · exact Or.inr hrest
      | cart => exact Or.inl (Or.inl (Or.inl (hkey.resolve_right id)))
      | quantity id' => exact Or.inl (Or.inl (Or.inl (hkey.resolve_right id)))

/-- The items that the calls of all threads add. -/
def AddedBy (calls : Nat → List (Bool × CartRequest × Int)) (id : Int) : Prop :=
  ∃ i, ∃ call ∈ calls i, call.2.1.itemAdded = some id

/--
**A cart shows real items, each once**, on a store of any selector into which nothing but the items
was put, whatever threads there are, whichever of their calls stand between `tx_start` and
`tx_end`, and however they interleave. If only items of the store are added, no exception leaves a
thread but the one of a `get_item` of an unknown id. A list of the cart has an item at most once,
each as it is in the store, and only items that some call added.
-/
theorem threads_cart (sel : ReadResponseSelector) (userId : Int) {items : List Item}
    (hitems : (items.map (·.id)).Nodup) {calls : Nat → List (Bool × CartRequest × Int)}
    (hknown : ∀ id, AddedBy calls id → ∃ i ∈ items, i.id = id) (draws : Nat → Draws)
    (turns : List (Nat × Draws)) :
    let start := (run (CartKey.name userId) (populate items) draws (World.init sel)).2
    let pool := threads (CartKey.name userId) start
      (fun i => (calls i).map fun call => ⟨call.1, call.2.1.reply call.2.2⟩) turns
    (∀ (i n : Nat) (e : AppException), StoppedAt pool i n e →
        ∃ call, (calls i)[n]? = some call ∧ Throws items userId call.2.1 e)
      ∧ ∀ (i n : Nat) (reply : CartReply), (pool.parties i).results[n]? = some reply →
          ∃ call, (calls i)[n]? = some call ∧ Answers items (AddedBy calls) call.2.1 reply := by
  intro start pool
  have hstart : Holds (CartKey.name userId) (Fits items (AddedBy calls)) (Populated items)
      start :=
    (holds_populate (fun _ hi => hi) (holds_init sel) draws).mono fun _ => Or.inr
  exact calls_among (CartKey.name_injective userId) hstart
    (fun call : Bool × CartRequest × Int => ⟨call.1, call.2.1.reply call.2.2⟩)
    (fun i call hcall => among_reply hitems hknown (fun id hid => ⟨i, call, hcall, hid⟩) call.2.2)
    turns

/-- One thread adds what another one removes and lists. -/
theorem threads_cart_example :
    let shoes : Item := ⟨"shoes", 1, 100⟩
    let book : Item := ⟨"book", 2, 200⟩
    let calls : Nat → List (Bool × CartRequest × Int)
      | 0 => [(false, .change (.addItem shoes), 1), (false, .change (.addItems book 3), 1)]
      | 1 => [(false, .change (.removeItem book), 2), (true, .getCartList, 2)]
      | _ => []
    let turns := (List.range 40).map fun n => (n % 2, zeroDraws)
    let start := (run (CartKey.name 1) (populate [shoes, book]) (fun _ => zeroDraws)
      (World.init .causal)).2
    let pool := threads (CartKey.name 1) start
      (fun i => (calls i).map fun call => ⟨call.1, call.2.1.reply call.2.2⟩) turns
    (∀ (i n : Nat) (e : AppException), StoppedAt pool i n e →
        ∃ call, (calls i)[n]? = some call ∧ Throws [shoes, book] 1 call.2.1 e)
      ∧ ∀ (i n : Nat) (reply : CartReply), (pool.parties i).results[n]? = some reply →
          ∃ call, (calls i)[n]? = some call
            ∧ Answers [shoes, book] (AddedBy calls) call.2.1 reply := by
  intro shoes book calls turns
  refine threads_cart .causal 1 (by decide) ?_ (fun _ => zeroDraws) turns
  rintro id ⟨i, call, hcall, hid⟩
  match i, hcall with
  | 0, hcall =>
      simp only [calls, List.mem_cons, List.not_mem_nil, or_false] at hcall
      rcases hcall with rfl | rfl
      · exact ⟨shoes, by simp, Option.some.inj hid⟩
      · exact ⟨book, by simp, Option.some.inj hid⟩
  | 1, hcall =>
      simp only [calls, List.mem_cons, List.not_mem_nil, or_false] at hcall
      rcases hcall with rfl | rfl <;> cases hid
  | n + 2, hcall => exact absurd hcall List.not_mem_nil

end ShoppingCart

end MockDB
