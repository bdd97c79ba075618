import MockDB.Lib.ListOrder
import MockDB.Proof.CartRun

/-!
# The stored cart and the cart

The list of items and the quantities stored beside it make up a cart: an item that is not
on the list has quantity 0, so the guard of `change_quantity` never touches one that was
removed. But an item on the list can have quantity 0 as well, and then the guard takes it
for removed. So the store follows the cart until such an item is to get a quantity again.
-/

namespace MockDB

namespace Cart

/-- The ids in a cart with their quantities. -/
def pairs (cart : Cart) : List (Int × Int) := cart.entries.map fun e => (e.1.id, e.2)

theorem pairs_ids (cart : Cart) : cart.pairs.map Prod.fst = cart.ids := List.map_map

theorem pairs_update (cart : Cart) (id : Int) (f : Int → Int) :
    (cart.update id f).pairs = cart.pairs.map fun p => if p.1 = id then (p.1, f p.2) else p := by
  unfold pairs update
  rw [List.map_map, List.map_map]
  refine List.map_congr_left fun e _ => ?_
  show (fun e : Item × Int => (e.1.id, e.2)) (if e.1.id = id then (e.1, f e.2) else e) = _
  by_cases h : e.1.id = id <;> simp [h]

theorem pairs_remove (cart : Cart) (id : Int) :
    (cart.remove id).pairs = cart.pairs.filter fun p => p.1 ≠ id := by
  unfold pairs remove
  rw [List.filter_map]
  rfl

theorem quantity?_eq (cart : Cart) (id : Int) :
    cart.quantity? id = (cart.pairs.find? fun p => p.1 = id).map Prod.snd := by
  unfold quantity? pairs
  rw [List.find?_map, Option.map_map]
  rfl

/-- The next call gives no quantity to an item that is in the cart with quantity 0. -/
def Settable (cart : Cart) : CartOp → Prop
  | .changeQuantity i quantity => cart.quantity? i.id = some 0 → quantity = 0
  | _ => True

end Cart

namespace CartState

section Step

variable {st : CartState} {cart : Cart}

theorem ids_setQuantity (id quantity : Int) : (st.setQuantity id quantity).ids = st.ids := rfl

theorem quantityOf_setQuantity_self (id quantity : Int) :
    (st.setQuantity id quantity).quantityOf id = quantity := by
  simp [setQuantity, quantityOf]

theorem quantityOf_setQuantity_ne {id id' : Int} (h : id' ≠ id) (quantity : Int) :
    (st.setQuantity id quantity).quantityOf id' = st.quantityOf id' := by
  simp [setQuantity, quantityOf, h]

theorem ids_addToList (id : Int) :
    (st.addToList id).ids = if id ∈ st.ids then st.ids else st.ids ++ [id] := by
  unfold addToList
  by_cases h : id ∈ st.ids
  · rw [if_pos h, if_pos h]
  · rw [if_neg h, if_neg h]; rfl

theorem ids_remove (id : Int) : (st.remove id).ids = st.ids.filter fun i => i ≠ id := by
  unfold remove ids
  cases h : st.items with
  | none => rw [h]; rfl
  | some ids => rfl

/-- What is the same about a stored cart in any run. -/
structure Clean (st : CartState) : Prop where
  nodup : st.ids.Nodup
  /-- What is not in the cart has quantity 0. -/
  absent : ∀ id, id ∉ st.ids → st.quantityOf id = 0

theorem clean_empty : empty.Clean := ⟨List.nodup_nil, fun _ _ => rfl⟩

/-- An item that was removed has quantity 0, and no other quantity has changed. -/
theorem Clean.quantityOf_remove (h : st.Clean) (id id' : Int) :
    (st.remove id).quantityOf id' = if id' = id then 0 else st.quantityOf id' := by
  have habsent := h.absent id
  unfold remove
  unfold ids at habsent
  cases hitems : st.items with
  | none =>
      rw [hitems] at habsent
      by_cases heq : id' = id
      · subst heq; rw [if_pos rfl]; exact habsent List.not_mem_nil
      · rw [if_neg heq]
  | some ids =>
      rw [hitems, Option.getD_some] at habsent
      show (if id ∈ ids then st.setQuantity id 0 else st).quantityOf id' = _
      by_cases heq : id' = id
      · subst heq
        rw [if_pos rfl]
        by_cases hmem : id' ∈ ids
        · rw [if_pos hmem, quantityOf_setQuantity_self]
        · rw [if_neg hmem, habsent hmem]
      · rw [if_neg heq]
        by_cases hmem : id ∈ ids
        · rw [if_pos hmem, quantityOf_setQuantity_ne heq]
        · rw [if_neg hmem]

theorem Clean.add (h : st.Clean) (id quantity : Int) : (st.add id quantity).Clean := by
  unfold CartState.add
  constructor
  · rw [ids_setQuantity, ids_addToList]
    by_cases hmem : id ∈ st.ids
    · rw [if_pos hmem]; exact h.nodup
    · rw [if_neg hmem]
      exact ListOrder.nodup_concat.mpr ⟨hmem, h.nodup⟩
  · intro id' hid'
    rw [ids_setQuantity, ids_addToList] at hid'
    have hne : id' ≠ id := by
      rintro rfl
      by_cases hmem : id' ∈ st.ids
      · rw [if_pos hmem] at hid'; exact hid' hmem
      · rw [if_neg hmem] at hid'; exact hid' (List.mem_append_right _ List.mem_cons_self)
    rw [quantityOf_setQuantity_ne hne, ShoppingCart.quantityOf_addToList]
    refine h.absent id' fun hmem' => hid' ?_
    by_cases hmem : id ∈ st.ids
    · rw [if_pos hmem]; exact hmem'
    · rw [if_neg hmem]; exact List.mem_append_left _ hmem'

theorem Clean.change (h : st.Clean) (id quantity : Int) : (st.change id quantity).Clean := by
  unfold CartState.change
  by_cases hq : st.quantityOf id ≠ 0
  · rw [if_pos hq]
    refine ⟨h.nodup, fun id' hid' => ?_⟩
    have hne : id' ≠ id := fun heq => hq (h.absent id (heq ▸ hid'))
    rw [quantityOf_setQuantity_ne hne]
    exact h.absent id' hid'
  · rw [if_neg hq]; exact h

theorem Clean.remove (h : st.Clean) (id : Int) : (st.remove id).Clean := by
  constructor
  · rw [ids_remove]; exact h.nodup.filter _
  · intro id' hid'
    rw [ids_remove] at hid'
    rw [h.quantityOf_remove]
    by_cases heq : id' = id
    · rw [if_pos heq]
    · rw [if_neg heq]
      exact h.absent id' fun hmem => hid' (List.mem_filter.mpr ⟨hmem, decide_eq_true heq⟩)

theorem Clean.step (h : st.Clean) (op : CartOp) : (st.step op).Clean := by
  cases op with
  | addItem i => exact h.add i.id 1
  | addItems i quantity => exact h.add i.id quantity
  | changeQuantity i quantity => exact h.change i.id quantity
  | removeItem i => exact h.remove i.id

theorem clean_run (ops : List CartOp) : (run ops).Clean := by
  induction ops using List.reverseRecOn with
  | nil => exact clean_empty
  | append_singleton ops op ih => rw [run_concat]; exact ih.step op

/-! ## What the store has, and the cart -/

/-- The store has this cart. -/
def Agrees (st : CartState) (cart : Cart) : Prop :=
  cart.pairs = st.ids.map fun id => (id, st.quantityOf id)

theorem Agrees.ids (h : st.Agrees cart) : cart.ids = st.ids := by
  rw [← cart.pairs_ids, h, List.map_map]
  exact List.map_id st.ids

theorem find?_pairs (ids : List Int) (f : Int → Int) (id : Int) :
    (ids.map fun id => (id, f id)).find? (fun p => p.1 = id)
      = if id ∈ ids then some (id, f id) else none := by
  induction ids with
  | nil => rfl
  | cons id' ids ih =>
      rw [List.map_cons]
      by_cases h : id' = id
      · subst h; simp
      · rw [List.find?_cons_of_neg (by simpa using h), ih]
        simp [Ne.symm h]

/-- The quantity an item has in the cart is the one that is stored. -/
theorem Agrees.quantity? (h : st.Agrees cart) (id : Int) :
    cart.quantity? id = if id ∈ st.ids then some (st.quantityOf id) else none := by
  rw [cart.quantity?_eq, h, find?_pairs]
  by_cases hmem : id ∈ st.ids
  · rw [if_pos hmem, if_pos hmem]; rfl
  · rw [if_neg hmem, if_neg hmem]; rfl

/-- A quantity that is stored changes in the cart. -/
theorem Agrees.setQuantity (h : st.Agrees cart) (id : Int) (f : Int → Int) :
    (st.setQuantity id (f (st.quantityOf id))).Agrees (cart.update id f) := by
  unfold Agrees
  rw [cart.pairs_update, h, ids_setQuantity, List.map_map]
  refine List.map_congr_left fun id' _ => ?_
  by_cases heq : id' = id
  · subst heq
    simp [quantityOf_setQuantity_self]
  · simp [heq, quantityOf_setQuantity_ne heq]

theorem Agrees.add (h : st.Agrees cart) (hc : st.Clean) (i : Item) (quantity : Int) :
    (st.add i.id quantity).Agrees (cart.add i quantity) := by
  have hids := h.ids
  unfold CartState.add CartState.addToList Cart.add
  by_cases hmem : i.id ∈ st.ids
  · rw [if_pos hmem, dif_pos (hids ▸ hmem)]
    exact h.setQuantity i.id fun q => q + quantity
  · rw [if_neg hmem, dif_neg (hids ▸ hmem)]
    have hzero := hc.absent i.id hmem
    show (cart.entries ++ [(i, quantity)]).map (fun e => (e.1.id, e.2))
      = (st.ids ++ [i.id]).map fun id => (id, (CartState.setQuantity _ _ _).quantityOf id)
    rw [List.map_append, List.map_append, List.map_singleton, List.map_singleton,
      quantityOf_setQuantity_self, hzero, Int.zero_add]
    congr 1
    refine Eq.trans h (List.map_congr_left fun id hid => ?_)
    have hne : id ≠ i.id := fun heq => hmem (heq ▸ hid)
    rw [quantityOf_setQuantity_ne hne]
    rfl

/-- `change_quantity` follows the cart just if it gives no quantity to an item with none. -/
theorem Agrees.change (h : st.Agrees cart) (hc : st.Clean) (id quantity : Int) :
    (st.change id quantity).Agrees (cart.change id quantity)
      ↔ (cart.quantity? id = some 0 → quantity = 0) := by
  unfold CartState.change Cart.change
  by_cases hq : st.quantityOf id = 0
  · rw [if_neg (not_not.mpr hq), h.quantity?]
    by_cases hmem : id ∈ st.ids
    · rw [if_pos hmem, hq]
      unfold Agrees
      rw [cart.pairs_update, h, List.map_map]
      constructor
      · intro heq _
        have hat := List.map_inj_left.mp heq id hmem
        simpa [hq] using hat
      · intro hzero
        refine List.map_congr_left fun id' _ => ?_
        by_cases heq : id' = id
        · subst heq; simp [hq, hzero rfl]
        · simp [heq]
    · rw [if_neg hmem]
      refine iff_of_true ?_ fun hnone => nomatch hnone
      unfold Agrees
      rw [cart.pairs_update, h, List.map_map]
      refine List.map_congr_left fun id' hid' => ?_
      have hne : id' ≠ id := fun heq => hmem (heq ▸ hid')
      simp [hne]
  · rw [if_pos hq, h.quantity?]
    refine iff_of_true (h.setQuantity id fun _ => quantity) fun hsome => ?_
    by_cases hmem : id ∈ st.ids
    · rw [if_pos hmem] at hsome
      exact (hq (Option.some.inj hsome)).elim
    · exact (hq (hc.absent id hmem)).elim

theorem Agrees.remove (h : st.Agrees cart) (hc : st.Clean) (id : Int) :
    (st.remove id).Agrees (cart.remove id) := by
  unfold Agrees
  rw [cart.pairs_remove, h, ids_remove, List.filter_map]
  refine List.map_congr_left fun id' hid' => ?_
  have hne : id' ≠ id := of_decide_eq_true (List.mem_filter.mp hid').2
  rw [hc.quantityOf_remove, if_neg hne]

/-- **A call on the stored cart follows the cart just if it gives no quantity to an item that
is in it with quantity 0.** -/
theorem agrees_step (h : st.Agrees cart) (hc : st.Clean) (op : CartOp) :
    (st.step op).Agrees (cart.step op) ↔ cart.Settable op := by
  cases op with
  | addItem i => exact iff_of_true (h.add hc i 1) trivial
  | addItems i quantity => exact iff_of_true (h.add hc i quantity) trivial
  | changeQuantity i quantity => exact h.change hc i.id quantity
  | removeItem i => exact iff_of_true (h.remove hc i.id) trivial

end Step

end CartState

namespace ShoppingCart

open App

/-! ## A store with the items -/

/-- A linearizable store without a cart of the user's. -/
structure NoCart (userId : Int) (w : World String Json) : Prop where
  strong : Strong w
  cart : contents (CartKey.name userId) w .cart = none
  quantity : ∀ id, contents (CartKey.name userId) w (.quantity id) = none

/-- The keys that `populate` writes to. -/
def StockKey (items : List Item) (key : CartKey) : Prop :=
  ∃ i ∈ items, key = .itemName i.id ∨ key = .itemPrice i.id

theorem writes_populate (items : List Item) : (populate items).Writes (StockKey items) := by
  have key : ∀ part : List Item, (∀ i ∈ part, i ∈ items) →
      (populate part).Writes (StockKey items) := by
    intro part
    induction part with
    | nil => intro _; trivial
    | cons i part ih =>
        intro hpart
        have hi := hpart i List.mem_cons_self
        refine Program.Writes.bind (writes_put ⟨i, hi, Or.inl rfl⟩ _ _) fun _ => ?_
        refine Program.Writes.bind (writes_put ⟨i, hi, Or.inr rfl⟩ _ _) fun _ => ?_
        exact ih fun j hj => hpart j (List.mem_cons_of_mem i hj)
  exact key items fun _ hi => hi

/-- After `populate` its items are in the store. -/
theorem present_populate (miss : CartKey → StoreException String) {items : List Item}
    (hnodup : (items.map Item.id).Nodup) (m : CartKey → Option Json) :
    ∀ i ∈ items, Present ((populate items).onMap miss m).2 i := by
  induction items generalizing m with
  | nil => exact fun i hi => (List.not_mem_nil hi).elim
  | cons i items ih =>
      rw [List.map_cons, List.nodup_cons] at hnodup
      intro j hj
      simp only [populate, Program.onMap_bind, onMap_put, Program.after_ok]
      rcases List.mem_cons.mp hj with rfl | hold
      · -- the others have other ids
        have hkeys : ∀ key, StockKey items key → key ≠ .itemName j.id ∧ key ≠ .itemPrice j.id := by
          rintro key ⟨i, hi, rfl | rfl⟩
          · refine ⟨fun heq => hnodup.1 ?_, nofun⟩
            exact CartKey.itemName.inj heq ▸ List.mem_map_of_mem hi
          · refine ⟨nofun, fun heq => hnodup.1 ?_⟩
            exact CartKey.itemPrice.inj heq ▸ List.mem_map_of_mem hi
        have hne : CartKey.itemName j.id ≠ CartKey.itemPrice j.id := nofun
        constructor
        · rw [(writes_populate items).onMap miss _ fun h => (hkeys _ h).1 rfl,
            Function.update_of_ne hne, Function.update_self]
        · rw [(writes_populate items).onMap miss _ fun h => (hkeys _ h).2 rfl, Function.update_self]
      · exact ih hnodup.2 _ j hold

/-- A new store with some items. -/
def stocked (userId : Int) (items : List Item) (draws : Nat → Draws) : World String Json :=
  (App.run (CartKey.name userId) (populate items) draws (World.init .linearizable)).2

theorem contents_stocked (userId : Int) (items : List Item) (draws : Nat → Draws) :
    contents (CartKey.name userId) (stocked userId items draws)
      = ((populate items).onMap (missing (CartKey.name userId)) fun _ => none).2 :=
  (run_onMap (CartKey.name_injective userId) (populate items) draws strong_init).2.1

theorem noCart_stocked (userId : Int) (items : List Item) (draws : Nat → Draws) :
    NoCart userId (stocked userId items draws) := by
  refine ⟨(run_onMap (CartKey.name_injective userId) _ draws strong_init).2.2, ?_, fun id => ?_⟩
  · rw [contents_stocked, (writes_populate items).onMap]
    rintro ⟨i, -, heq | heq⟩ <;> cases heq
  · rw [contents_stocked, (writes_populate items).onMap]
    rintro ⟨i, -, heq | heq⟩ <;> cases heq

/-! ## Whole calls, one at a time -/

/-- The state that calls lead to. -/
def state (calls : List CartCall) : CartState := CartState.run (calls.map CartCall.op)

/-- The cart that calls lead to. -/
def cart (calls : List CartCall) : Cart := Cart.run (calls.map CartCall.op)

theorem state_concat (calls : List CartCall) (call : CartCall) :
    state (calls ++ [call]) = (state calls).step call.op := by
  rw [state, List.map_append, List.map_singleton, CartState.run_concat, state]

theorem cart_concat (calls : List CartCall) (call : CartCall) :
    cart (calls ++ [call]) = (cart calls).step call.op := by
  rw [cart, List.map_append, List.map_singleton, Cart.run_concat, cart]

section After

variable {userId : Int} {w : World String Json}

/-- **The store holds the state that the calls lead to.** -/
theorem contents_after (h : NoCart userId w) (calls : List CartCall) :
    Strong (after userId w calls) ∧ contents (CartKey.name userId) (after userId w calls)
      = (state calls).toMap (contents (CartKey.name userId) w) := by
  have hinit : contents (CartKey.name userId) w
      = CartState.empty.toMap (contents (CartKey.name userId) w) := by
    funext key
    cases key with
    | cart => exact h.cart
    | quantity id => exact h.quantity id
    | itemName id => rfl
    | itemPrice id => rfl
  rw [state, CartState.run, List.foldl_map]
  exact runAll_simulates (CartKey.name_injective userId)
    (fun st call => onMap_program userId _ st call.sessionId call.op) CartCall.draws calls
    h.strong hinit

end After

/-! ## The items in the store -/

section Present

variable {base : CartKey → Option Json} {calls : List CartCall}

/-- An entry of the next cart is about an item of this one, or of the call. -/
theorem item_step {cart : Cart} {op : CartOp} {e : Item × Int} (he : e ∈ (cart.step op).entries) :
    e.1 = op.item ∨ ∃ e' ∈ cart.entries, e'.1 = e.1 := by
  have update : ∀ {id : Int} {f : Int → Int}, e ∈ (cart.update id f).entries →
      ∃ e' ∈ cart.entries, e'.1 = e.1 := by
    intro id f hmem
    obtain ⟨e', he', rfl⟩ := List.mem_map.mp hmem
    refine ⟨e', he', ?_⟩
    by_cases h : e'.1.id = id <;> simp [h]
  have add : ∀ {i : Item} {q : Int}, e ∈ (cart.add i q).entries →
      e.1 = i ∨ ∃ e' ∈ cart.entries, e'.1 = e.1 := by
    intro i q hmem
    unfold Cart.add at hmem
    by_cases h : i.id ∈ cart.ids
    · rw [dif_pos h] at hmem
      exact Or.inr (update hmem)
    · rw [dif_neg h] at hmem
      rcases List.mem_append.mp hmem with hold | hnew
      · exact Or.inr ⟨e, hold, rfl⟩
      · left; rw [List.mem_singleton.mp hnew]
  cases op with
  | addItem i => exact add he
  | addItems i q => exact add he
  | changeQuantity i q => exact Or.inr (update he)
  | removeItem i => exact Or.inr ⟨e, (List.mem_filter.mp he).1, rfl⟩

/-- An id on the next list is on this one, or the call's. -/
theorem id_step {st : CartState} {op : CartOp} {id : Int} (hid : id ∈ (st.step op).ids) :
    id = op.item.id ∨ id ∈ st.ids := by
  have add : ∀ {id' q : Int}, id ∈ (st.add id' q).ids → id = id' ∨ id ∈ st.ids := by
    intro id' q hmem
    have hids : (st.add id' q).ids = (st.addToList id').ids := rfl
    rw [hids, CartState.ids_addToList] at hmem
    by_cases h : id' ∈ st.ids
    · rw [if_pos h] at hmem; exact Or.inr hmem
    · rw [if_neg h] at hmem
      exact (List.mem_append.mp hmem).symm.imp_left List.mem_singleton.mp
  cases op with
  | addItem i => exact add hid
  | addItems i q => exact add hid
  | changeQuantity i q =>
      have hids : (st.change i.id q).ids = st.ids := by
        unfold CartState.change
        by_cases h : st.quantityOf i.id ≠ 0
        · rw [if_pos h]; rfl
        · rw [if_neg h]
      exact Or.inr (hids ▸ hid)
  | removeItem i =>
      have hmem : id ∈ (st.remove i.id).ids := hid
      rw [CartState.ids_remove] at hmem
      exact Or.inr (List.mem_filter.mp hmem).1

/-- Calls about items in the store lead to carts of such items. -/
theorem present_cart (hpresent : ∀ call ∈ calls, Present base call.op.item) :
    (∀ e ∈ (cart calls).entries, Present base e.1)
      ∧ ∀ id ∈ (state calls).ids, ∃ i, Present base i ∧ i.id = id := by
  induction calls using List.reverseRecOn with
  | nil => exact ⟨fun e he => (List.not_mem_nil he).elim, fun id hid => (List.not_mem_nil hid).elim⟩
  | append_singleton calls call ih =>
      obtain ⟨hcart, hstate⟩ := ih fun c hc => hpresent c (List.mem_append_left _ hc)
      have hcall := hpresent call (List.mem_append_right _ List.mem_cons_self)
      rw [cart_concat, state_concat]
      constructor
      · intro e he
        rcases item_step he with heq | ⟨e', he', heq⟩
        · exact heq ▸ hcall
        · exact heq ▸ hcart e' he'
      · intro id hid
        rcases id_step hid with heq | hold
        · exact ⟨call.op.item, hcall, heq.symm⟩
        · exact hstate id hold

/-- The items that ids stand for. -/
theorem exists_items {ids : List Int} (h : ∀ id ∈ ids, ∃ i, Present base i ∧ i.id = id) :
    ∃ is : List Item, (∀ i ∈ is, Present base i) ∧ ids = is.map Item.id := by
  induction ids with
  | nil => exact ⟨[], fun i hi => (List.not_mem_nil hi).elim, rfl⟩
  | cons id ids ih =>
      obtain ⟨is, his, heq⟩ := ih fun id' hid' => h id' (List.mem_cons_of_mem id hid')
      obtain ⟨i, hi, hid⟩ := h id List.mem_cons_self
      refine ⟨i :: is, fun j hj => ?_, by rw [List.map_cons, hid, heq]⟩
      rcases List.mem_cons.mp hj with rfl | hold
      · exact hi
      · exact his j hold

end Present

/-! ## What the store has -/

/-- The list of items, if there is one, has no duplicates and as many items as it counts, and
`get_cart_list` returns the cart, whoever asks. -/
def HasCart (userId : Int) (w : World String Json) (cart : Cart) : Prop :=
  (∀ value, contents (CartKey.name userId) w .cart = some value →
      ∃ ids : List Int, value.elements "items" = some (ids.map .number) ∧ ids.Nodup
        ∧ value.count = some (ids.length : Int))
    ∧ ∀ sessionId draws,
      (App.run (CartKey.name userId) (getCartList sessionId) draws w).1 = .ok cart.entries

/-- The store has the cart just if the state agrees with it. -/
theorem hasCart_after {userId : Int} {w : World String Json} (h : NoCart userId w)
    {calls : List CartCall}
    (hpresent : ∀ call ∈ calls, Present (contents (CartKey.name userId) w) call.op.item) :
    HasCart userId (after userId w calls) (cart calls) ↔ (state calls).Agrees (cart calls) := by
  obtain ⟨hstrong, hcontents⟩ := contents_after h calls
  obtain ⟨hentries, hids⟩ := present_cart hpresent
  have hclean := CartState.clean_run (calls.map CartCall.op)
  have hresult : ∀ is : List Item, (∀ i ∈ is, Present (contents (CartKey.name userId) w) i) →
      (state calls).ids = is.map Item.id → ∀ sessionId draws,
        (App.run (CartKey.name userId) (getCartList sessionId) draws (after userId w calls)).1
          = .ok (is.map fun i => (i, (state calls).quantityOf i.id)) := by
    intro is his heq sessionId draws
    rw [(run_onMap (CartKey.name_injective userId) _ draws hstrong).1, hcontents,
      onMap_getCartList _ _ _ _ is his heq]
  constructor
  · rintro ⟨-, hlist⟩
    obtain ⟨is, his, heq⟩ := exists_items hids
    have hreturned := (hresult is his heq 0 fun _ => zeroDraws).symm.trans
      (hlist 0 fun _ => zeroDraws)
    unfold CartState.Agrees Cart.pairs
    rw [← Except.ok.inj hreturned, heq, List.map_map, List.map_map]
    rfl
  · intro hagrees
    refine ⟨fun value hvalue => ?_, fun sessionId draws => ?_⟩
    · rw [hcontents] at hvalue
      obtain ⟨ids, hitems, rfl⟩ := Option.map_eq_some_iff.mp hvalue
      have hnodup : (state calls).ids.Nodup := hclean.nodup
      unfold CartState.ids at hnodup
      rw [hitems] at hnodup
      exact ⟨ids, Json.elements_idList ids, hnodup, Json.count_idList ids items_ne_count⟩
    · have heq : (state calls).ids = ((cart calls).entries.map Prod.fst).map Item.id := by
        rw [← hagrees.ids, List.map_map]
        rfl
      rw [hresult _ (fun i hi => ?_) heq sessionId draws, List.map_map]
      · refine congrArg Except.ok ((List.map_congr_left fun e he => ?_).trans (List.map_id _))
        have hmem : (e.1.id, e.2) ∈ (cart calls).pairs :=
          List.mem_map_of_mem (f := fun e : Item × Int => (e.1.id, e.2)) he
        rw [hagrees] at hmem
        obtain ⟨id, -, hpair⟩ := List.mem_map.mp hmem
        obtain ⟨rfl, hq⟩ := Prod.mk.inj hpair
        exact Prod.ext rfl hq
      · obtain ⟨e, he, rfl⟩ := List.mem_map.mp hi
        exact hentries e he

/-- **The store has the cart after each call just if no call gives a quantity to an item that
is in the cart with quantity 0.** -/
theorem hasCart_iff (userId : Int) {w : World String Json} (h : NoCart userId w)
    (calls : List CartCall)
    (hpresent : ∀ call ∈ calls, Present (contents (CartKey.name userId) w) call.op.item) :
    (∀ done, done <+: calls → HasCart userId (after userId w done) (cart done))
      ↔ ∀ done call, done ++ [call] <+: calls → (cart done).Settable call.op := by
  have hiff : (∀ done, done <+: calls → HasCart userId (after userId w done) (cart done))
      ↔ ∀ done, done <+: calls → (state done).Agrees (cart done) :=
    forall_congr' fun done => imp_congr_right fun hpre =>
      hasCart_after h fun call hcall => hpresent call (hpre.subset hcall)
  rw [hiff]
  refine ListOrder.forall_prefix_iff rfl fun done call _ hdone => ?_
  rw [state_concat, cart_concat]
  exact CartState.agrees_step hdone (CartState.clean_run _) call.op

/-- Shoes are added to the cart, their quantity is set to 0, and then to 2. -/
def zeroThenTwo : List CartCall :=
  [.addItem shoes, .changeQuantity shoes 0, .changeQuantity shoes 2].map
    fun op => ⟨op, 1, fun _ => zeroDraws⟩

/-- A store that has the shoes. -/
def shoeStore : World String Json := stocked 1 [shoes] fun _ => zeroDraws

theorem noCart_shoeStore : NoCart 1 shoeStore := noCart_stocked 1 [shoes] fun _ => zeroDraws

theorem present_zeroThenTwo :
    ∀ call ∈ zeroThenTwo, Present (contents (CartKey.name 1) shoeStore) call.op.item := by
  have hnodup : ([shoes].map Item.id).Nodup := List.nodup_singleton shoes.id
  have hshoes : Present (contents (CartKey.name 1) shoeStore) shoes := by
    rw [shoeStore, contents_stocked]
    exact present_populate _ hnodup _ shoes List.mem_cons_self
  intro call hcall
  obtain ⟨op, hop, rfl⟩ := List.mem_map.mp hcall
  fin_cases hop <;> exact hshoes

/-- The cart has two pairs of shoes, the store has none. -/
theorem hasCart_violated :
    NoCart 1 shoeStore
      ∧ (∀ call ∈ zeroThenTwo, Present (contents (CartKey.name 1) shoeStore) call.op.item)
      ∧ ¬ HasCart 1 (after 1 shoeStore zeroThenTwo) (cart zeroThenTwo) := by
  refine ⟨noCart_shoeStore, present_zeroThenTwo, ?_⟩
  rw [hasCart_after noCart_shoeStore present_zeroThenTwo]
  intro hagrees
  have hpairs : (cart zeroThenTwo).pairs = [(1, 2)] := rfl
  have hstored : (state zeroThenTwo).ids.map (fun id => (id, (state zeroThenTwo).quantityOf id))
      = [(1, 0)] := rfl
  have heq := hpairs.symm.trans (hagrees.trans hstored)
  exact absurd heq (by decide)

theorem hasCart_iff_zeroThenTwo :
    (∀ done, done <+: zeroThenTwo → HasCart 1 (after 1 shoeStore done) (cart done))
      ↔ ∀ done call, done ++ [call] <+: zeroThenTwo → (cart done).Settable call.op :=
  hasCart_iff 1 noCart_shoeStore zeroThenTwo present_zeroThenTwo

end ShoppingCart

end MockDB
