import MockDB.Applications.Drivers
import MockDB.Proof.CartServed
import MockDB.Proof.RejectedPost

/-!
# The shopping cart's driver

On a linearizable store the threads of `do_op` get what some sequence of their calls gives, and
there are only twenty. Their results are those of `serial_results`. So a result of
`reappear_results`, which the driver counts as a violation, is never a false alarm.
-/

namespace MockDB

open App Interleaving

theorem App.Strong.put {w : World String Json} (h : Strong w) (key : String) (value : Json)
    (sessionId : Int) : Strong (w.put key value sessionId) :=
  ⟨h.reachable.put _ _ _, h.linearizable⟩

namespace RunShoppingCart

open ShoppingCart

/-- What is in the store before the threads start. -/
theorem contents_populated (draws : Nat → Draws) :
    Strong (populated .linearizable draws)
      ∧ ∃ base : CartKey → Option Json, (∀ i ∈ items, Present base i)
        ∧ contents (CartKey.name userId) (populated .linearizable draws)
          = (CartState.empty.add shoes.id 1).toMap base := by
  have hno := noCart_stocked userId items fun _ => zeroDraws
  have huser : ∀ key, CartKey.name userId key ≠ "user:1:name" := by
    intro key heq
    have hhead := congrArg (fun s => s.toList.head?) heq
    cases key <;> simp [CartKey.name] at hhead
  have hw := hno.strong.put "user:1:name" (.string "dip") defaultSession
  have hsame : contents (CartKey.name userId) ((stocked userId items fun _ => zeroDraws).put
        "user:1:name" (.string "dip") defaultSession)
      = contents (CartKey.name userId) (stocked userId items fun _ => zeroDraws) := by
    unfold contents
    rw [latest_put hno.strong.reachable]
    funext key
    exact Function.update_of_ne (huser key) _ _
  have hmap : contents (CartKey.name userId) (stocked userId items fun _ => zeroDraws)
      = CartState.empty.toMap (contents (CartKey.name userId)
        (stocked userId items fun _ => zeroDraws)) := by
    funext key
    cases key with
    | cart => exact hno.cart
    | quantity id => exact hno.quantity id
    | itemName id => rfl
    | itemPrice id => rfl
  obtain ⟨-, hcontents, hstrong⟩ := run_onMap (CartKey.name_injective userId)
    (addItem shoes defaultSession) draws hw
  refine ⟨hstrong, contents (CartKey.name userId) (stocked userId items fun _ => zeroDraws), ?_, ?_⟩
  · rw [contents_stocked]
    exact present_populate _ (by decide) _
  · refine hcontents.trans ?_
    have hadd : addItem shoes defaultSession = addItems shoes 1 defaultSession := rfl
    rw [hsame, hmap, hadd, onMap_addItems]
    rfl

/-- All there is to `do_op`: twenty sequences. -/
theorem results_serveAll : ∀ order ∈ interleavings ((List.range 3).map doOp),
    results (fun i n => (ofParty (serveAll (fun call => CartState.serve items call.1) order
      (CartState.empty.add shoes.id 1)).1 i)[n]?) ∈ serialResults := by
  decide

theorem doOp_eq_nil (i : Nat) (hi : i ∉ [1, 2]) : doOp i = [] := by
  match i, hi with
  | 0, _ => rfl
  | n + 3, _ => rfl

theorem doOp_results {draws : Nat → Draws} {turns : List (Nat × Draws)}
    (hfinished : Finished (iteration .linearizable draws turns) doOp) :
    results (replyOf (iteration .linearizable draws turns)) ∈ serialResults := by
  obtain ⟨hw, base, hitems, hmap⟩ := contents_populated draws
  have hstocked : Stocked items (CartState.empty.add shoes.id 1) := by unfold Stocked; decide
  have hcalls : ∀ i, ∀ call ∈ doOp i, (∀ id, call.1 ≠ .getItem id)
      ∧ ∀ op, call.1 = .change op → op.item = shoes := by
    intro i call hcall
    match i, hcall with
    | 1, hcall =>
        simp only [doOp, List.mem_cons, List.not_mem_nil, or_false] at hcall
        rcases hcall with rfl | rfl | rfl <;> simp [CartOp.item]
    | 2, hcall =>
        simp only [doOp, List.mem_cons, List.not_mem_nil, or_false] at hcall
        rcases hcall with rfl | rfl | rfl <;> simp [CartOp.item]
    | 0, hcall => exact absurd hcall List.not_mem_nil
    | n + 3, hcall => exact absurd hcall List.not_mem_nil
  have hstep : ∀ i, ∀ call ∈ doOp i, ∀ st, Stocked items st →
      Stocked items (st.serve items call.1).2
        ∧ (call.1.reply call.2).onMap (missing (CartKey.name userId)) (st.toMap base)
          = (.ok (st.serve items call.1).1, (st.serve items call.1).2.toMap base) := by
    intro i call hcall st hst
    obtain ⟨hget, hchange⟩ := hcalls i call hcall
    refine ⟨hst.serve fun op hop => ⟨shoes, by simp [items], ?_⟩, ?_⟩
    · rw [hchange op hop]
    · exact onMap_reply hitems hst (fun id hid => absurd hid (hget id)) call.2
  obtain ⟨order, -, horder, hreplies⟩ := (runsOnMap_strong (CartKey.name_injective
    userId)).exists_served hw hstocked hmap (fun _ _ _ => trivial) hstep hfinished 3 fun i hi =>
    doOp_eq_nil i (by simp; omega)
  exact hreplies ▸ results_serveAll order horder

/-- Of three versions the middle one, and else the oldest. -/
def middleDraws : Draws := fun n => ⟨n / 2, by omega⟩

/-- Thread 1 removes the shoes, which thread 2 has not seen when it adds to their quantity. Thread
1 lists the cart before it sees what thread 2 did, and after it. -/
def reappearing : List (Nat × Draws) :=
  List.replicate 5 (1, zeroDraws) ++ (2, zeroDraws) :: (2, newestDraws)
    :: List.replicate 4 (2, zeroDraws) ++ List.replicate 3 (1, middleDraws)
    ++ List.replicate 6 (1, newestDraws) ++ List.replicate 12 (2, newestDraws)

/-- Thread 1 is over before thread 2 starts. -/
def oneAfterOther : List (Nat × Draws) :=
  List.replicate 12 (1, zeroDraws) ++ List.replicate 20 (2, zeroDraws)

/--
**The driver's counter of violations.** On a linearizable store, in any interleaving of the
threads of `do_op` that has come to its end, the results are one of `serial_results`, so they
are none of `reappear_results` and nothing is counted. On a causal store something may be.
-/
theorem doOp_oracle :
    (∀ (draws : Nat → Draws) (turns : List (Nat × Draws)),
        Finished (iteration .linearizable draws turns) doOp →
        results (replyOf (iteration .linearizable draws turns)) ∈ serialResults
          ∧ results (replyOf (iteration .linearizable draws turns)) ∉ reappearResults)
      ∧ ∃ (draws : Nat → Draws) (turns : List (Nat × Draws)),
        Finished (iteration .causal draws turns) doOp
          ∧ results (replyOf (iteration .causal draws turns)) ∈ reappearResults := by
  constructor
  · intro draws turns hfinished
    have hserial := doOp_results hfinished
    have hnone : ∀ r ∈ serialResults, r ∉ reappearResults := by decide
    exact ⟨hserial, hnone _ hserial⟩
  · refine ⟨fun _ => zeroDraws, reappearing, ?_, by decide +kernel⟩
    exact finished_of [1, 2] (by decide) doOp_eq_nil (by decide +kernel)

theorem doOp_oracle_oneAfterOther :
    results (replyOf (iteration .linearizable (fun _ => zeroDraws) oneAfterOther))
        ∈ serialResults
      ∧ results (replyOf (iteration .linearizable (fun _ => zeroDraws) oneAfterOther))
        ∉ reappearResults :=
  doOp_oracle.1 (fun _ => zeroDraws) oneAfterOther
    (finished_of [1, 2] (by decide) doOp_eq_nil (by decide +kernel))

end RunShoppingCart

end MockDB
