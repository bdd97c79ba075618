import MockDB.Spec.History
import MockDB.Proof.Selection

/-!
# What the two critical sections do

One equation for `putLocked`, and for `getLocked` an inversion (`getLocked_cases`)
with its converse (`getLocked_reach`). Nothing later unfolds either of them.
-/

namespace MockDB

variable {K V : Type}

/-! ## The version-number loop -/

theorem setVersionNumber_of_ne :
    ∀ {l : List (GetResponse K V)} {n : Nat} {op : GetResponse K V},
      (∀ c ∈ l, c.addr ≠ op.addr) → setVersionNumber n l op = op := by
  intro l
  induction l with
  | nil => intro n op _; rfl
  | cons c rest ih =>
      intro n op h
      rw [setVersionNumber, if_pos (h c List.mem_cons_self)]
      exact ih (fun c' hc' => h c' (List.mem_cons_of_mem _ hc'))

/-- The loop writes the one-based position of the object it is looking for. -/
theorem setVersionNumber_eq :
    ∀ {l : List (GetResponse K V)} {a n i : Nat} {op : GetResponse K V},
      (∀ j, ∀ hj : j < l.length, l[j].addr = a + j) → i < l.length → op.addr = a + i →
      setVersionNumber n l op = { op with versionNumber := n + i } := by
  intro l
  induction l with
  | nil => intro a n i op _ hi; exact absurd hi (Nat.not_lt_zero i)
  | cons c rest ih =>
      intro a n i op haddr hi hop
      have hc : c.addr = a := haddr 0 (by simp)
      have hrest : ∀ j, ∀ hj : j < rest.length, rest[j].addr = (a + 1) + j := by
        intro j hj
        have := haddr (j + 1) (by simp only [List.length_cons]; omega)
        rw [List.getElem_cons_succ] at this
        omega
      cases i with
      | zero =>
          rw [setVersionNumber, if_neg (by omega)]
          refine setVersionNumber_of_ne (fun c' hc' => ?_)
          obtain ⟨j, hj, rfl⟩ := List.mem_iff_getElem.mp hc'
          have := hrest j hj
          show rest[j].addr ≠ op.addr
          omega
      | succ i =>
          rw [setVersionNumber, if_pos (by omega),
            ih hrest (by simpa using hi) (by omega)]
          congr 1
          omega

theorem length_newCandidates (key : K) (versions : List (V × Nat)) :
    (newCandidates key versions).length = versions.length := by
  simp [newCandidates]

theorem getElem?_newCandidates (key : K) (versions : List (V × Nat)) (i : Nat) :
    (newCandidates key versions)[i]?
      = versions[i]?.map (fun c => { chosen key i c with versionNumber := 0 }) := by
  simp [newCandidates, chosen]

theorem mem_newCandidates {key : K} {versions : List (V × Nat)} {r : GetResponse K V} :
    r ∈ newCandidates key versions ↔
      ∃ i c, versions[i]? = some c ∧ r = { chosen key i c with versionNumber := 0 } := by
  rw [List.mem_iff_getElem?]
  simp only [getElem?_newCandidates, Option.map_eq_some_iff]
  constructor
  · rintro ⟨i, c, hc, rfl⟩; exact ⟨i, c, hc, rfl⟩
  · rintro ⟨i, c, hc, rfl⟩; exact ⟨i, c, hc, rfl⟩

theorem setVersionNumber_newCandidates {key : K} {versions : List (V × Nat)} {i : Nat}
    {c : V × Nat} (h : versions[i]? = some c) :
    setVersionNumber 1 (newCandidates key versions) { chosen key i c with versionNumber := 0 }
      = chosen key i c := by
  have hi : i < versions.length := (List.getElem?_eq_some_iff.mp h).1
  rw [setVersionNumber_eq (a := 0) (i := i) ?_ (by rw [length_newCandidates]; exact hi)
    (Nat.zero_add i).symm]
  · simp [chosen, Nat.add_comm]
  · intro j hj
    simp [newCandidates]

namespace KvStore

variable [DecidableEq K] {σ : KvStore K V} {tx : Transaction K V} {key : K}

/-- The checker does not look at the version number. -/
theorem isConsistent_versionNumber (σ : KvStore K V) (tx : Transaction K V) (key : K)
    (r : GetResponse K V) (n : Nat) :
    σ.isConsistent (tx.setResponse key { r with versionNumber := n })
      = σ.isConsistent (tx.setResponse key r) := rfl

/-! ## `put` -/

@[simp] theorem putLocked_history (σ : KvStore K V) (tx : Transaction K V) (key : K) (v : V) :
    (σ.putLocked tx key v).history = σ.history ++ [tx.setPutResponse key v] := rfl

@[simp] theorem putLocked_readSelector (σ : KvStore K V) (tx : Transaction K V) (key : K)
    (v : V) : (σ.putLocked tx key v).readSelector = σ.readSelector := rfl

theorem putLocked_getSessionHistory (σ : KvStore K V) (tx : Transaction K V) (key : K) (v : V)
    (s : Int) :
    (σ.putLocked tx key v).getSessionHistory s
      = if s = tx.sessionId then σ.getSessionHistory s ++ [tx.setPutResponse key v]
        else σ.getSessionHistory s := by
  unfold putLocked
  rw [commitTx_getSessionHistory]
  by_cases h : s = tx.sessionId
  · subst h; rw [if_pos rfl, if_pos rfl]; rfl
  · rw [if_neg h, if_neg h]; rfl

theorem putLocked_lookup (σ : KvStore K V) (tx : Transaction K V) (key : K) (v : V) (k : K) :
    (σ.putLocked tx key v).kvMap.lookup k
      = if k = key then some ((σ.kvMap.lookup key).getD [] ++ [(v, tx.txId)])
        else σ.kvMap.lookup k := by
  unfold putLocked
  rw [commitTx_kvMap]
  by_cases h : k = key
  · subst h; cases σ.kvMap.lookup k <;> simp
  · cases σ.kvMap.lookup key <;> simp [h, AList.lookup_insert_ne h]

/-! ## `_get` -/

theorem getLocked_none {draws : Draws} (h : σ.kvMap.lookup key = none) :
    σ.getLocked tx key draws = (.error (.keyNotFound key), σ) := by
  unfold getLocked; rw [h]

/-- On an existing key `_get` does what its selector's choice makes it do. -/
theorem getLocked_some {versions : List (V × Nat)} {draws : Draws}
    (h : σ.kvMap.lookup key = some versions) :
    σ.getLocked tx key draws
      = match (if σ.readSelector.isWeak then
            σ.causalSelect tx key (newCandidates key versions) draws
          else linearizableSelect tx (newCandidates key versions)) with
        | .error _ =>
            (.error (.consistency "GET" (some key) tx.txId),
              σ.setGenNextTx σ.readSelector.next)
        | .ok r =>
            (.ok (setVersionNumber 1 (newCandidates key versions) r),
              (σ.setGenNextTx σ.readSelector.next).commitTx
                (tx.setResponse key (setVersionNumber 1 (newCandidates key versions) r))
                tx.sessionId) := by
  have hsel := ReadResponseSelector.selectReadResponse_eq σ.readSelector σ tx key
    (newCandidates key versions) draws
  generalize (if σ.readSelector.isWeak then
      σ.causalSelect tx key (newCandidates key versions) draws
    else linearizableSelect tx (newCandidates key versions)) = selected at hsel ⊢
  unfold getLocked
  rw [h]
  cases selected with
  | error e => simp only [hsel]
  | ok r => simp only [hsel]

/-- The state a successful `_get` leaves behind. -/
def afterGet (σ : KvStore K V) (tx : Transaction K V) (key : K) (i : Nat) (c : V × Nat) :
    KvStore K V :=
  (σ.setGenNextTx σ.readSelector.next).commitTx (tx.setResponse key (chosen key i c)) tx.sessionId

omit [DecidableEq K] in
@[simp] theorem afterGet_kvMap (σ : KvStore K V) (tx : Transaction K V) (key : K) (i : Nat)
    (c : V × Nat) : (σ.afterGet tx key i c).kvMap = σ.kvMap := rfl

omit [DecidableEq K] in
@[simp] theorem afterGet_history (σ : KvStore K V) (tx : Transaction K V) (key : K) (i : Nat)
    (c : V × Nat) :
    (σ.afterGet tx key i c).history = σ.history ++ [tx.setResponse key (chosen key i c)] := rfl

omit [DecidableEq K] in
@[simp] theorem afterGet_readSelector (σ : KvStore K V) (tx : Transaction K V) (key : K) (i : Nat)
    (c : V × Nat) : (σ.afterGet tx key i c).readSelector = σ.readSelector.next := rfl

omit [DecidableEq K] in
theorem afterGet_getSessionHistory (σ : KvStore K V) (tx : Transaction K V) (key : K) (i : Nat)
    (c : V × Nat) (s : Int) :
    (σ.afterGet tx key i c).getSessionHistory s
      = if s = tx.sessionId then
          σ.getSessionHistory s ++ [tx.setResponse key (chosen key i c)]
        else σ.getSessionHistory s := by
  unfold afterGet
  rw [commitTx_getSessionHistory]
  by_cases h : s = tx.sessionId
  · subst h; rw [if_pos rfl, if_pos rfl]; rfl
  · rw [if_neg h, if_neg h]; rfl

/-- Which versions the selector may settle on: those the checker accepts when the
selection is weak, the last one when it is not. -/
def Selectable (σ : KvStore K V) (tx : Transaction K V) (key : K) (versions : List (V × Nat))
    (i : Nat) (c : V × Nat) : Prop :=
  versions[i]? = some c
    ∧ (σ.readSelector.isWeak = true →
        σ.isConsistent (tx.setResponse key (chosen key i c)) = true)
    ∧ (σ.readSelector.isWeak = false → i + 1 = versions.length)

/-- **All `_get` can do on an existing key**: commit a selectable version, or throw
because there is none. -/
theorem getLocked_cases (tx : Transaction K V) (draws : Draws) {versions : List (V × Nat)}
    (h : σ.kvMap.lookup key = some versions) :
    (∃ i c, σ.Selectable tx key versions i c
        ∧ σ.getLocked tx key draws = (.ok (chosen key i c), σ.afterGet tx key i c))
      ∨ ((∀ i c, ¬ σ.Selectable tx key versions i c)
        ∧ σ.getLocked tx key draws
          = (.error (.consistency "GET" (some key) tx.txId),
              σ.setGenNextTx σ.readSelector.next)) := by
  rw [getLocked_some h]
  by_cases hw : σ.readSelector.isWeak = true
  · rw [if_pos hw]
    cases hsel : σ.causalSelect tx key (newCandidates key versions) draws with
    | ok r =>
        obtain ⟨hok, hmem⟩ := causalSelect_ok hsel
        obtain ⟨i, c, hic, rfl⟩ := mem_newCandidates.mp hmem
        refine Or.inl ⟨i, c, ⟨hic, fun _ => ?_, fun hn => absurd hw (by simp [hn])⟩, ?_⟩
        · rwa [isConsistent_versionNumber] at hok
        · dsimp only
          rw [setVersionNumber_newCandidates hic]
          rfl
    | error e =>
        refine Or.inr ⟨?_, rfl⟩
        rintro i c ⟨hic, hcons, -⟩
        have := causalSelect_error hsel _ (mem_newCandidates.mpr ⟨i, c, hic, rfl⟩)
        rw [isConsistent_versionNumber, hcons hw] at this
        exact Bool.noConfusion this
  · rw [if_neg hw]
    have hw' : σ.readSelector.isWeak = false := by simpa using hw
    unfold linearizableSelect
    cases hlast : (newCandidates key versions).getLast? with
    | none =>
        refine Or.inr ⟨?_, rfl⟩
        rintro i c ⟨hic, -, -⟩
        have hnil := List.getLast?_eq_none_iff.mp hlast
        have := length_newCandidates key versions
        rw [hnil] at this
        have := (List.getElem?_eq_some_iff.mp hic).1
        simp at *
        omega
    | some r =>
        rw [List.getLast?_eq_getElem?, length_newCandidates, getElem?_newCandidates,
          Option.map_eq_some_iff] at hlast
        obtain ⟨c, hic, rfl⟩ := hlast
        have hlt := (List.getElem?_eq_some_iff.mp hic).1
        refine Or.inl ⟨versions.length - 1, c, ⟨hic, fun hn => absurd hn hw, fun _ => by omega⟩, ?_⟩
        dsimp only
        rw [setVersionNumber_newCandidates hic]
        rfl

/-- Every selectable version is returned for suitable draws. -/
theorem getLocked_reach {versions : List (V × Nat)} {i : Nat} {c : V × Nat}
    (h : σ.kvMap.lookup key = some versions) (hs : σ.Selectable tx key versions i c) :
    ∃ draws, σ.getLocked tx key draws = (.ok (chosen key i c), σ.afterGet tx key i c) := by
  obtain ⟨hic, hweak, hstrong⟩ := hs
  by_cases hw : σ.readSelector.isWeak = true
  · obtain ⟨draws, hd⟩ := causalSelect_reach
      (mem_newCandidates.mpr ⟨i, c, hic, rfl⟩)
      ((isConsistent_versionNumber σ tx key (chosen key i c) 0).trans (hweak hw))
    refine ⟨draws, ?_⟩
    rw [getLocked_some h, if_pos hw, hd]
    dsimp only
    rw [setVersionNumber_newCandidates hic]
    rfl
  · have hw' : σ.readSelector.isWeak = false := by simpa using hw
    refine ⟨zeroDraws, ?_⟩
    rcases getLocked_cases tx zeroDraws h with ⟨i', c', hs', heq⟩ | ⟨hno, -⟩
    · have hi : i' = i := by
        have h1 := hs'.2.2 hw'
        have h2 := hstrong hw'
        omega
      subst hi
      have hc : c' = c := Option.some.inj (hs'.1.symm.trans hic)
      subst hc
      exact heq
    · exact absurd ⟨hic, hweak, hstrong⟩ (hno i c)

end KvStore

end MockDB
