import MockDB.Lib.ListOrder
import MockDB.KvStore.KvStore

/-!
# What a history says

The history is the record of what the store did. `versionsOf` reads a key's versions
off it, and `Answered` says when a transaction is one that the store could have added
after a given history. Neither mentions the store's other structures, so `WellFormed`
can say that those agree with the history.
-/

namespace MockDB

variable {K V : Type}

/-- The response `_get` stores when it settles on version `i`. -/
def chosen (key : K) (i : Nat) (c : V × Nat) : GetResponse K V where
  addr := i
  key := key
  value := c.1
  writtenByTxId := c.2
  versionNumber := i + 1
  success := true

variable [DecidableEq K]

/-- The version of `key` a transaction wrote, if it wrote one. -/
def putOn (key : K) (tx : Transaction K V) : Option (V × Nat) :=
  match tx.op with
  | .put params _ => if params.key = key then some (params.value, tx.txId) else none
  | .get _ _ => none

/-- The versions of `key`, in the order their PUTs were committed. -/
def versionsOf (key : K) (h : List (Transaction K V)) : List (V × Nat) :=
  h.filterMap (putOn key)

/-- `tx` is a committed transaction that may follow the history `h`: a PUT has
succeeded, and a GET carries version `i` of the key it asked for as of `h`. -/
def Answered (h : List (Transaction K V)) (tx : Transaction K V) : Prop :=
  match tx.op with
  | .put _ response => response = some ⟨true⟩
  | .get params response =>
      ∃ i c, (versionsOf params.key h)[i]? = some c ∧ response = some (chosen params.key i c)

theorem putOn_eq_some {key : K} {tx : Transaction K V} {c : V × Nat} :
    putOn key tx = some c ↔
      ∃ r, tx.op = .put ⟨key, c.1⟩ r ∧ tx.txId = c.2 := by
  unfold putOn
  cases hop : tx.op with
  | get p r => simp
  | put p r =>
      obtain ⟨k, v⟩ := p
      obtain ⟨v', id⟩ := c
      by_cases hk : k = key
      · subst hk; simp
      · simp [hk]

@[simp] theorem putOn_setResponse (key k : K) (tx : Transaction K V) (r : GetResponse K V) :
    putOn k (tx.setResponse key r) = none := rfl

theorem putOn_setPutResponse (key k : K) (tx : Transaction K V) (v : V) :
    putOn k (tx.setPutResponse key v) = if key = k then some (v, tx.txId) else none := rfl

@[simp] theorem versionsOf_nil (key : K) : versionsOf key ([] : List (Transaction K V)) = [] := rfl

theorem versionsOf_append (key : K) (h h' : List (Transaction K V)) :
    versionsOf key (h ++ h') = versionsOf key h ++ versionsOf key h' := List.filterMap_append

/-- A GET adds no version. -/
@[simp] theorem versionsOf_concat_get (k key : K) (h : List (Transaction K V))
    (tx : Transaction K V) (r : GetResponse K V) :
    versionsOf k (h ++ [tx.setResponse key r]) = versionsOf k h := by
  rw [versionsOf_append]
  simp [versionsOf]

/-- A PUT adds one version to its own key. -/
theorem versionsOf_concat_put (k key : K) (h : List (Transaction K V)) (tx : Transaction K V)
    (v : V) :
    versionsOf k (h ++ [tx.setPutResponse key v])
      = if k = key then versionsOf k h ++ [(v, tx.txId)] else versionsOf k h := by
  rw [versionsOf_append]
  by_cases hk : k = key
  · subst hk; simp [versionsOf, putOn_setPutResponse]
  · have hk' : ¬ key = k := fun he => hk he.symm
    simp [versionsOf, putOn_setPutResponse, hk, hk']

/-- Version `i` of a key is the `i`-th PUT on it. -/
theorem versionsOf_getElem? {key : K} {h : List (Transaction K V)} {i : Nat} {c : V × Nat} :
    (versionsOf key h)[i]? = some c ↔
      ∃ n tx r, h[n]? = some tx ∧ tx.op = .put ⟨key, c.1⟩ r ∧ tx.txId = c.2
        ∧ (versionsOf key (h.take n)).length = i := by
  unfold versionsOf
  rw [ListOrder.getElem?_filterMap]
  simp only [putOn_eq_some]
  constructor
  · rintro ⟨n, tx, hn, ⟨r, hop, hid⟩, hi⟩; exact ⟨n, tx, r, hn, hop, hid, hi⟩
  · rintro ⟨n, tx, r, hn, hop, hid, hi⟩; exact ⟨n, tx, hn, ⟨r, hop, hid⟩, hi⟩

theorem mem_versionsOf {key : K} {h : List (Transaction K V)} {c : V × Nat} :
    c ∈ versionsOf key h ↔ ∃ tx ∈ h, ∃ r, tx.op = .put ⟨key, c.1⟩ r ∧ tx.txId = c.2 := by
  unfold versionsOf
  rw [List.mem_filterMap]
  simp only [putOn_eq_some]

/-- A PUT on `key` is in the history. -/
def WasPut (key : K) (h : List (Transaction K V)) : Prop :=
  ∃ tx ∈ h, tx.op.isPut = true ∧ tx.op.key = key

theorem putOn_of_write {tx : Transaction K V} {x : K} (hput : tx.op.isPut = true)
    (hkey : tx.op.key = x) : ∃ v, putOn x tx = some (v, tx.txId) := by
  cases hop : tx.op with
  | get p r => rw [hop] at hput; exact absurd hput (by simp)
  | put p r =>
      rw [hop, Operation.key_put] at hkey
      exact ⟨p.value, putOn_eq_some.mpr ⟨r, by rw [hop, ← hkey], rfl⟩⟩

theorem wasPut_iff {key : K} {h : List (Transaction K V)} :
    WasPut key h ↔ versionsOf key h ≠ [] := by
  constructor
  · rintro ⟨tx, htx, hput, hkey⟩
    obtain ⟨v, hv⟩ := putOn_of_write hput hkey
    exact List.ne_nil_of_mem (List.mem_filterMap.mpr ⟨tx, htx, hv⟩)
  · intro hne
    obtain ⟨c, hc⟩ := List.exists_mem_of_ne_nil _ hne
    obtain ⟨tx, htx, r, hop, -⟩ := mem_versionsOf.mp hc
    exact ⟨tx, htx, by rw [hop]; rfl, by rw [hop]; rfl⟩

/-- The ids of a key's versions are ids of the history, in history order. -/
theorem versionsOf_ids_sublist (key : K) (h : List (Transaction K V)) :
    ((versionsOf key h).map Prod.snd).Sublist (h.map (·.txId)) := by
  induction h with
  | nil => exact List.Sublist.refl _
  | cons tx h ih =>
      cases hp : putOn key tx with
      | none =>
          have hv : versionsOf key (tx :: h) = versionsOf key h := List.filterMap_cons_none hp
          rw [hv, List.map_cons]
          exact ih.cons _
      | some c =>
          have hv : versionsOf key (tx :: h) = c :: versionsOf key h :=
            List.filterMap_cons_some hp
          obtain ⟨r, -, hid⟩ := putOn_eq_some.mp hp
          rw [hv, List.map_cons, List.map_cons, hid]
          exact ih.cons_cons _

theorem answered_put {h : List (Transaction K V)} (tx : Transaction K V) (key : K) (v : V) :
    Answered h (tx.setPutResponse key v) := rfl

theorem answered_get {h : List (Transaction K V)} {tx : Transaction K V} {key : K} {i : Nat}
    {c : V × Nat} (hc : (versionsOf key h)[i]? = some c) :
    Answered h (tx.setResponse key (chosen key i c)) := ⟨i, c, hc, rfl⟩

end MockDB
