import MockDB.Proof.AtomicThreads
import MockDB.Proof.CartRefine
import MockDB.Proof.OneSession

/-!
# Carts served one call at a time

What a call of the cart returns and leaves is what `CartState.serve` says, on the map of a state.
So threads are served by it wherever operations run on a map: on a linearizable store, and
on one of any selector that nobody but one session uses.
-/

namespace MockDB

open App Interleaving

namespace ShoppingCart

variable {userId : Int} {base : CartKey → Option Json} {items : List Item} {st : CartState}

/-- Every id on the list is one of an item in the store. -/
def Stocked (items : List Item) (st : CartState) : Prop := ∀ id ∈ st.ids, ∃ i ∈ items, i.id = id

theorem find?_item {id : Int} (h : ∃ i ∈ items, i.id = id) :
    ∃ i, (items.find? fun i => i.id = id) = some i ∧ i ∈ items ∧ i.id = id := by
  cases hfind : items.find? fun i => i.id = id with
  | none =>
      obtain ⟨i, hi, hid⟩ := h
      exact absurd (decide_eq_true hid) (List.find?_eq_none.mp hfind i hi)
  | some i => exact ⟨i, rfl, List.mem_of_find?_eq_some hfind, by simpa using List.find?_some hfind⟩

theorem map_id_itemsOf {ids : List Int} (h : ∀ id ∈ ids, ∃ i ∈ items, i.id = id) :
    (CartState.itemsOf items ids).map Item.id = ids := by
  induction ids with
  | nil => rfl
  | cons id ids ih =>
      obtain ⟨i, hfind, -, rfl⟩ := find?_item (h id List.mem_cons_self)
      have hrest := ih fun id' hid' => h id' (List.mem_cons_of_mem _ hid')
      have hcons : CartState.itemsOf items (i.id :: ids) = i :: CartState.itemsOf items ids :=
        List.filterMap_cons_some hfind
      rw [hcons, List.map_cons, hrest]

/-- A call on the map of a state, with what it returns. -/
theorem onMap_reply (hitems : ∀ i ∈ items, Present base i) (hst : Stocked items st)
    {request : CartRequest}
    (hknown : ∀ id, request = .getItem id → ∃ i ∈ items, i.id = id) (sessionId : Int) :
    (request.reply sessionId).onMap (missing (CartKey.name userId)) (st.toMap base)
      = (.ok (st.serve items request).1, (st.serve items request).2.toMap base) := by
  cases request with
  | change op =>
      cases op with
      | addItem i =>
          have hsame : addItem i sessionId = addItems i 1 sessionId := rfl
          simp [CartRequest.reply, CartOp.program, hsame, onMap_addItems, CartState.serve,
            CartState.step]
      | addItems i quantity =>
          simp [CartRequest.reply, CartOp.program, onMap_addItems, CartState.serve, CartState.step]
      | changeQuantity i quantity =>
          simp [CartRequest.reply, CartOp.program, onMap_changeQuantity, CartState.serve,
            CartState.step]
      | removeItem i =>
          simp [CartRequest.reply, CartOp.program, onMap_removeItem, CartState.serve,
            CartState.step]
  | getQuantity i =>
      simp [CartRequest.reply, onMap_getQuantity, CartState.serve]
  | getItem id =>
      obtain ⟨i, hfind, hi, rfl⟩ := find?_item (hknown id rfl)
      obtain ⟨hname, hprice⟩ := hitems i hi
      have hname' : st.toMap base (.itemName i.id) = some (.string i.name) := hname
      have hprice' : st.toMap base (.itemPrice i.id) = some (.double i.price) := hprice
      simp [CartRequest.reply, getItem, hname', hprice', Json.asString, Json.asDouble,
        CartState.serve, hfind]
  | getCartList =>
      have hpresent : ∀ i ∈ CartState.itemsOf items st.ids, Present base i := fun i hi =>
        hitems i (by
          obtain ⟨id, -, hfind⟩ := List.mem_filterMap.mp hi
          exact List.mem_of_find?_eq_some hfind)
      simp [CartRequest.reply, CartState.serve,
        onMap_getCartList base st sessionId _ _ hpresent (map_id_itemsOf hst).symm]

/-- A call about an item of the store keeps the list to such items. -/
theorem Stocked.serve (h : Stocked items st) {request : CartRequest}
    (hknown : ∀ op, request = .change op → ∃ i ∈ items, i.id = op.item.id) :
    Stocked items (st.serve items request).2 := by
  cases request with
  | change op =>
      intro id hid
      rcases id_step hid with heq | hold
      · exact heq ▸ hknown op rfl
      · exact h id hold
  | getQuantity i => exact h
  | getItem id => exact h
  | getCartList => exact h

/-- The items a call is about are in the store. -/
def Knows (items : List Item) (request : CartRequest) : Prop :=
  (∀ op, request = .change op → ∃ i ∈ items, i.id = op.item.id)
    ∧ ∀ id, request = .getItem id → ∃ i ∈ items, i.id = id

/-! ## A linearizable store -/

theorem stocked_run {ops : List CartOp} (hops : ∀ op ∈ ops, ∃ i ∈ items, i.id = op.item.id) :
    Stocked items (CartState.run ops) := by
  induction ops using List.reverseRecOn with
  | nil => exact fun id hid => absurd hid List.not_mem_nil
  | append_singleton ops op ih =>
      rw [CartState.run_concat]
      have hold := ih fun op' h => hops op' (List.mem_append_left _ h)
      show Stocked items ((CartState.run ops).serve items (.change op)).2
      refine hold.serve fun op' heq => ?_
      obtain rfl : op = op' := by injection heq
      exact hops op (List.mem_append_right _ List.mem_cons_self)

/--
**The threads of a cart are served by one cart**, as long as the sums of quantities stay within
`int`. On a linearizable store with items, after any calls one at a time and then in any
interleaving of threads whose calls stand between `tx_start` and `tx_end`, all about items of the
store: whenever nobody holds the mutex, every thread has been returned what its calls return in
some sequence of the calls that have returned, which keeps the order of each thread, and the store
holds the cart that the sequence leads to.
-/
theorem cart_served (userId : Int) {items : List Item} (hitems : (items.map Item.id).Nodup)
    (draws : Nat → Draws) {before : List CartCall}
    (hbefore : ∀ call ∈ before, ∃ i ∈ items, i.id = call.op.item.id)
    {calls : Nat → List (CartRequest × Int)} (hknown : ∀ i, ∀ call ∈ calls i, Knows items call.1)
    (turns : List (Nat × Draws)) :
    let start := stocked userId items draws
    let pool := threads (CartKey.name userId) (after userId start before)
      (allInTx fun i => (calls i).map fun call => call.1.reply call.2) turns
    pool.holder = none → ∃ order : List (Nat × (CartRequest × Int)),
      Interleaves (made pool calls) order
      ∧ (∀ i, (pool.parties i).results = ofParty (serveAll
          (fun call => CartState.serve items call.1) order (state before)).1 i)
      ∧ contents (CartKey.name userId) pool.shared = (serveAll
          (fun call => CartState.serve items call.1) order (state before)).2.toMap
            (contents (CartKey.name userId) start) := by
  intro start pool hfree
  obtain ⟨hstrong, hmap⟩ := contents_after (noCart_stocked userId items draws) before
  have hpresent : ∀ i ∈ items, Present (contents (CartKey.name userId) start) i := by
    rw [contents_stocked]
    exact present_populate _ hitems _
  have hstocked : Stocked items (state before) := stocked_run fun op hop => by
    obtain ⟨call, hcall, rfl⟩ := List.mem_map.mp hop
    exact hbefore call hcall
  exact (runsOnMap_strong (CartKey.name_injective userId)).served_ok hstrong hstocked hmap
    (fun _ _ _ => trivial)
    (fun i call hcall st hst => ⟨hst.serve (hknown i call hcall).1,
      onMap_reply hpresent hst (hknown i call hcall).2 call.2⟩) hfree

/-- One thread adds shoes while another one lists the cart. -/
def shoesListed : Nat → List CartRequest
  | 0 => [.change (.addItem shoes)]
  | 1 => [.getCartList, .getQuantity shoes]
  | _ => []

theorem nodup_shoes : ([shoes].map Item.id).Nodup := List.nodup_singleton shoes.id

theorem knows_shoesListed : ∀ i, ∀ request ∈ shoesListed i, Knows [shoes] request
  | 0, request, h => by
      obtain rfl := List.mem_singleton.mp h
      exact ⟨fun op hop => by cases hop; exact ⟨shoes, List.mem_cons_self, rfl⟩, nofun⟩
  | 1, request, h => by
      rcases List.mem_cons.mp h with rfl | h
      · exact ⟨nofun, nofun⟩
      · obtain rfl := List.mem_singleton.mp h
        exact ⟨nofun, nofun⟩
  | _ + 2, _, h => absurd h List.not_mem_nil

theorem cart_served_shoesListed :
    let start := stocked 1 [shoes] fun _ => zeroDraws
    let before : List CartCall := [⟨.addItem shoes, 1, fun _ => zeroDraws⟩]
    let calls : Nat → List (CartRequest × Int) := fun i => (shoesListed i).map fun r => (r, i)
    let pool := threads (CartKey.name 1) (after 1 start before)
      (allInTx fun i => (calls i).map fun call => call.1.reply call.2)
      (List.replicate 4 (0, zeroDraws) ++ List.replicate 24 (1, zeroDraws)
        ++ List.replicate 4 (0, zeroDraws))
    ∃ order : List (Nat × (CartRequest × Int)), Interleaves (made pool calls) order
      ∧ (∀ i, (pool.parties i).results = ofParty (serveAll
          (fun call => CartState.serve [shoes] call.1) order (state before)).1 i)
      ∧ contents (CartKey.name 1) pool.shared = (serveAll
          (fun call => CartState.serve [shoes] call.1) order (state before)).2.toMap
            (contents (CartKey.name 1) start) := by
  refine cart_served 1 nodup_shoes (fun _ => zeroDraws)
    (fun call hcall => ?_) (fun i call hcall => ?_) _ (by decide +kernel)
  · exact ⟨shoes, List.mem_cons_self, by rw [List.mem_singleton.mp hcall]; rfl⟩
  · obtain ⟨request, hrequest, rfl⟩ := List.mem_map.mp hcall
    exact knows_shoesListed i request hrequest

/-! ## One session -/

section OneSession

variable {s : Int}

theorem by_addToList (id : Int) : (addToList id s).By s := by
  refine by_attempt_get (fun e => ?_) fun cart => ?_
  · split
    · refine (by_json _).bind fun cart => (by_json _).bind fun cart => by_put _ _
    · trivial
    · trivial
  · refine (by_json _).bind fun items => ?_
    by_cases hmem : items.any fun it => it.isNumber id
    · rw [if_pos hmem]
      trivial
    · rw [if_neg hmem]
      exact (by_json _).bind fun count => (by_json _).bind fun cart => by_put _ _

theorem by_getQuantity (id : Int) : (getQuantity id s).By s := by
  refine Program.By.bind (Program.By.attempt ?_) fun quantity => ?_
  · exact (by_get _).bind fun val => by_json _
  · cases quantity <;> trivial

theorem by_setQuantity (id quantity : Int) : (setQuantity id quantity s).By s :=
  (by_json _).bind fun _ => by_put _ _

theorem by_removeLoop (id : Int) (list : List Json) : (removeLoop id s list).By s := by
  induction list with
  | nil => trivial
  | cons it rest ih =>
      unfold removeLoop
      split
      · exact (by_setQuantity id 0).bind fun _ => ih
      · exact ih.bind fun newItems => trivial

theorem by_getItem (id : Int) : (getItem id s).By s := by
  refine (by_get _).bind fun name => (by_json _).bind fun name => ?_
  exact (by_get _).bind fun price => (by_json _).bind fun price => trivial

theorem by_cartLoop (list : List Json) : (cartLoop s list).By s := by
  induction list with
  | nil => trivial
  | cons i rest ih =>
      refine (by_json _).bind fun id => (by_getQuantity id).bind fun quantity => ?_
      exact (by_getItem id).bind fun item => ih.bind fun cartList => trivial

/-- A call uses the store by its session. -/
theorem by_reply (request : CartRequest) : (request.reply s).By s := by
  have hadd : ∀ (i : Item) (quantity : Int), (addItems i quantity s).By s := fun i quantity =>
    (by_addToList i.id).bind fun _ =>
      (by_getQuantity i.id).bind fun existing => by_setQuantity i.id _
  cases request with
  | change op =>
      refine Program.By.bind ?_ fun _ => trivial
      cases op with
      | addItem i => exact hadd i 1
      | addItems i quantity => exact hadd i quantity
      | changeQuantity i quantity =>
          refine (by_getQuantity i.id).bind fun oldQuantity => ?_
          by_cases hold : oldQuantity ≠ 0
          · rw [if_pos hold]
            exact by_setQuantity i.id quantity
          · rw [if_neg hold]
            trivial
      | removeItem i =>
          refine by_attempt_get (fun _ => trivial) fun cart => ?_
          refine (by_json _).bind fun items => (by_removeLoop i.id items).bind fun newItems => ?_
          exact (by_json _).bind fun cart => by_put _ _
  | getQuantity i => exact (by_getQuantity i.id).bind fun _ => trivial
  | getItem id => exact (by_getItem id).bind fun _ => trivial
  | getCartList =>
      refine Program.By.bind (by_attempt_get (fun _ => trivial) fun cart => ?_) fun _ => trivial
      exact (by_json _).bind fun items => by_cartLoop items

/-- `populate` puts each of its keys once. -/
theorem wp_populate (miss : CartKey → StoreException String) {items : List Item}
    (hitems : (items.map Item.id).Nodup) {r : SessionRegister CartKey Json Int}
    (hnew : ∀ key, StockKey items key → r.versions key = [])
    (hone : ∀ key, (r.versions key).length ≤ 1) :
    (populate items).wp miss r fun _ r' => ∀ key, (r'.versions key).length ≤ 1 := by
  induction items generalizing r with
  | nil => exact hone
  | cons i items ih =>
      obtain ⟨hi, hrest⟩ := List.nodup_cons.mp hitems
      have hname := hnew _ ⟨i, List.mem_cons_self, Or.inl rfl⟩
      have hprice := hnew _ ⟨i, List.mem_cons_self, Or.inr rfl⟩
      have hwrites : ∀ key, (((r.write defaultSession (.itemName i.id) (.string i.name)).write
          defaultSession (.itemPrice i.id) (.double i.price)).versions key)
          = if key = .itemPrice i.id then [.double i.price]
            else if key = .itemName i.id then [.string i.name] else r.versions key := by
        intro key
        by_cases hkey : key = .itemPrice i.id
        · subst hkey
          rw [if_pos rfl, SessionRegister.write_versions_self,
            SessionRegister.write_versions_ne _ _ _ (by simp), hprice]
          rfl
        · rw [if_neg hkey, SessionRegister.write_versions_ne _ _ _ hkey]
          by_cases hkey' : key = .itemName i.id
          · subst hkey'
            rw [if_pos rfl, SessionRegister.write_versions_self, hname]
            rfl
          · rw [if_neg hkey', SessionRegister.write_versions_ne _ _ _ hkey']
      refine ih hrest (fun key hkey => ?_) fun key => ?_
      · rw [hwrites]
        obtain ⟨j, hj, hcase⟩ := hkey
        have hne : j.id ≠ i.id := fun heq => hi (heq ▸ List.mem_map_of_mem hj)
        have hold : r.versions key = [] := hnew key ⟨j, List.mem_cons_of_mem _ hj, hcase⟩
        rcases hcase with rfl | rfl <;> simp [hne, hold]
      · rw [hwrites]
        split
        · exact Nat.le_refl 1
        · split
          · exact Nat.le_refl 1
          · exact hone key

/-- On a new store with items no session has a choice, and nobody has a cart. -/
theorem alone_populate (sel : ReadResponseSelector) (userId : Int) {items : List Item}
    (hitems : (items.map Item.id).Nodup) (draws : Nat → Draws) (s : Int) :
    let w := (run (CartKey.name userId) (populate items) draws (World.init sel)).2
    Alone (CartKey.name userId) s w ∧ (∀ i ∈ items, Present (contents (CartKey.name userId) w) i)
      ∧ contents (CartKey.name userId) w
        = CartState.empty.toMap (contents (CartKey.name userId) w) := by
  intro w
  have hname := CartKey.name_injective userId
  obtain ⟨hone, hreach⟩ := run_wp hname (populate items) draws (.init sel)
    (wp_populate (missing (CartKey.name userId)) hitems (fun _ _ => rfl) fun _ => Nat.zero_le 1)
  have hby : (populate items).By defaultSession := by
    clear hitems hone hreach w
    induction items with
    | nil => trivial
    | cons i items ih => exact ⟨rfl, rfl, ih⟩
  have hcontents := (runsOnMap_alone hname defaultSession (populate items) hby draws
    (alone_init _ defaultSession sel)).2.1
  have hmap : contents (CartKey.name userId) (World.init sel) = fun _ => none := rfl
  rw [hmap] at hcontents
  refine ⟨⟨hreach, fun key => Nat.le_trans (hone key) (Nat.le_max_left 1 _)⟩, ?_, ?_⟩
  · rw [hcontents]
    exact present_populate _ hitems _
  · funext key
    have hnone : ¬ StockKey items key → contents (CartKey.name userId) w key = none := by
      intro hkey
      rw [hcontents, (writes_populate items).onMap _ _ hkey]
    cases key with
    | cart => exact hnone (by rintro ⟨i, -, heq | heq⟩ <;> cases heq)
    | quantity id => exact hnone (by rintro ⟨i, -, heq | heq⟩ <;> cases heq)
    | itemName id => rfl
    | itemPrice id => rfl

/--
**One session has its cart to itself**, on a store of any selector into which nothing but the items
was put, as long as the sums of quantities stay within `int`. If all threads make their calls by
the same session, between `tx_start` and `tx_end` and about items of the store, then in any
interleaving that has come to its end they have been served like one cart serves them, one call
at a time in an order that keeps that of each thread.
-/
theorem one_session_cart (sel : ReadResponseSelector) (userId : Int) {items : List Item}
    (hitems : (items.map Item.id).Nodup) (draws : Nat → Draws) (s : Int)
    {calls : Nat → List CartRequest} (hknown : ∀ i, ∀ request ∈ calls i, Knows items request)
    (turns : List (Nat × Draws)) :
    let start := (run (CartKey.name userId) (populate items) draws (World.init sel)).2
    let pool := threads (CartKey.name userId) start
      (allInTx fun i => (calls i).map fun request => request.reply s) turns
    Finished pool calls → ∃ order : List (Nat × CartRequest), Interleaves calls order
      ∧ ∀ i, (pool.parties i).results
        = ofParty (serveAll (CartState.serve items) order CartState.empty).1 i := by
  intro start pool hfinished
  obtain ⟨halone, hpresent, hmap⟩ := alone_populate sel userId hitems draws s
  have hstocked : Stocked items CartState.empty := fun id hid => absurd hid List.not_mem_nil
  exact
    (runsOnMap_alone (CartKey.name_injective userId) s).served_finished halone hstocked hmap
      (fun i request _ => by_reply request)
      (fun i request hrequest st hst => ⟨hst.serve (hknown i request hrequest).1,
        onMap_reply hpresent hst (hknown i request hrequest).2 s⟩) hfinished

theorem one_session_cart_shoesListed :
    let start := (run (CartKey.name 1) (populate [shoes]) (fun _ => zeroDraws)
      (World.init .causal)).2
    let pool := threads (CartKey.name 1) start
      (allInTx fun i => (shoesListed i).map fun request => request.reply 5)
      (List.replicate 4 (0, zeroDraws) ++ List.replicate 12 (1, zeroDraws)
        ++ List.replicate 4 (0, zeroDraws) ++ List.replicate 12 (1, zeroDraws))
    ∃ order : List (Nat × CartRequest), Interleaves shoesListed order
      ∧ ∀ i, (pool.parties i).results
        = ofParty (serveAll (CartState.serve [shoes]) order CartState.empty).1 i := by
  refine one_session_cart .causal 1 nodup_shoes (fun _ => zeroDraws) 5
    knows_shoesListed _ (finished_of [0, 1] (by decide) (fun i hi => ?_) (by decide +kernel))
  match i, hi with
  | n + 2, _ => rfl

end OneSession

end ShoppingCart

end MockDB
