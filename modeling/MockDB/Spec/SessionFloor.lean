import MockDB.Spec.History

/-!
# Session floors

What a session has already seen of a key, as one number: the highest version of the
key it has put itself or has been given by a GET, counting from one, and zero for a
key it never touched. `Proof/HighWater.lean` shows that the checker's scan of the
whole history computes a comparison with this number.
-/

namespace MockDB

variable {K V : Type} [DecidableEq K]

/-- The version of `key`, counted from one, that a committed transaction wrote or read. -/
def touched (h : List (Transaction K V)) (key : K) (tx : Transaction K V) : Nat :=
  match tx.op with
  | .put params _ =>
      if params.key = key then ((versionsOf key h).map Prod.snd).idxOf tx.txId + 1 else 0
  | .get params (some r) => if params.key = key then r.versionNumber else 0
  | .get _ none => 0

/-- The highest version of `key` that session `s` has put or been given in `h`. -/
def sessionFloor (h : List (Transaction K V)) (s : Int) (key : K) : Nat :=
  ((h.filter (fun tx => tx.sessionId = s)).map (touched h key)).foldr max 0

/-- The floor is below a bound iff everything the session touched is. -/
theorem sessionFloor_le {h : List (Transaction K V)} {s : Int} {key : K} {m : Nat} :
    sessionFloor h s key ≤ m ↔ ∀ tx ∈ h, tx.sessionId = s → touched h key tx ≤ m := by
  have hfold : ∀ l : List Nat, l.foldr max 0 ≤ m ↔ ∀ x ∈ l, x ≤ m := by
    intro l
    induction l with
    | nil => simp
    | cons x l ih => simp [ih]
  unfold sessionFloor
  rw [hfold]
  simp only [List.mem_map, List.mem_filter, decide_eq_true_eq]
  constructor
  · intro hm tx htx hs
    exact hm _ ⟨tx, ⟨htx, hs⟩, rfl⟩
  · rintro hm x ⟨tx, ⟨htx, hs⟩, rfl⟩
    exact hm tx htx hs

theorem touched_le_sessionFloor {h : List (Transaction K V)} (key : K) {tx : Transaction K V}
    (htx : tx ∈ h) : touched h key tx ≤ sessionFloor h tx.sessionId key :=
  sessionFloor_le.mp (Nat.le_refl _) tx htx rfl

/-- A floor above zero is the version of some transaction. -/
theorem exists_touched_eq {h : List (Transaction K V)} {s : Int} {key : K}
    (hpos : 0 < sessionFloor h s key) :
    ∃ tx ∈ h, tx.sessionId = s ∧ touched h key tx = sessionFloor h s key := by
  by_contra hno
  -- otherwise every version touched is below it, and so is the floor itself
  have hbelow : sessionFloor h s key ≤ sessionFloor h s key - 1 := by
    rw [sessionFloor_le]
    intro tx htx hs
    have hle : touched h key tx ≤ sessionFloor h s key := hs ▸ touched_le_sessionFloor key htx
    have hne : touched h key tx ≠ sessionFloor h s key := fun he => hno ⟨tx, htx, hs, he⟩
    omega
  omega

end MockDB
