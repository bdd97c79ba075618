import Mathlib.Data.List.Basic
import Mathlib.Logic.Function.Basic

/-!
# Multi-version registers with session floors

What the weakly isolated store is for, without ids, histories or checkers. Each key
holds the list of values ever written to it; each session has a floor under each key,
below which it may no longer read. A write appends and lifts the writer's floor to the
new version, a read takes any version at or above the reader's floor and lifts the
floor to it.
-/

/-- A versioned register for each key, and each session's floor under it. -/
structure SessionRegister (Key Val Session : Type*) where
  versions : Key → List Val
  floor : Session → Key → Nat

namespace SessionRegister

variable {Key Val Session : Type*}

/-- Nothing written, nothing seen. -/
def empty : SessionRegister Key Val Session := ⟨fun _ => [], fun _ _ => 0⟩

/-- `s` may read version `i` (from zero) of `k`, and finds `v` there. -/
def MayRead (r : SessionRegister Key Val Session) (s : Session) (k : Key) (i : Nat) (v : Val) :
    Prop :=
  (r.versions k)[i]? = some v ∧ r.floor s k ≤ i + 1

/-- No floor is above the versions there are. -/
def Bounded (r : SessionRegister Key Val Session) : Prop :=
  ∀ s k, r.floor s k ≤ (r.versions k).length

/-- The last version, read, is the last value written. -/
theorem MayRead.eq_last_of_index {r : SessionRegister Key Val Session} {s : Session} {k : Key}
    {i : Nat} {v : Val} (h : r.MayRead s k i v) (hi : i + 1 = (r.versions k).length) :
    (r.versions k).getLast? = some v := by
  rw [List.getLast?_eq_getElem?, show (r.versions k).length - 1 = i by omega]
  exact h.1

/-- A session that knows the last version, or finds just one, reads no other. -/
theorem MayRead.eq_last {r : SessionRegister Key Val Session} {s : Session} {k : Key} {i : Nat}
    {v : Val} (h : r.MayRead s k i v)
    (hfloor : (r.versions k).length ≤ max 1 (r.floor s k)) :
    i + 1 = (r.versions k).length ∧ (r.versions k).getLast? = some v := by
  have hlt := (List.getElem?_eq_some_iff.mp h.1).1
  have hle := h.2
  have heq : i + 1 = (r.versions k).length := by omega
  exact ⟨heq, h.eq_last_of_index heq⟩

variable [DecidableEq Key] [DecidableEq Session]

/-- `s` writes `v` under `k`. -/
def write (r : SessionRegister Key Val Session) (s : Session) (k : Key) (v : Val) :
    SessionRegister Key Val Session where
  versions k' := if k' = k then r.versions k ++ [v] else r.versions k'
  floor s' k' := if s' = s ∧ k' = k then (r.versions k).length + 1 else r.floor s' k'

/-- `s` has read version `i` of `k`. -/
def read (r : SessionRegister Key Val Session) (s : Session) (k : Key) (i : Nat) :
    SessionRegister Key Val Session where
  versions := r.versions
  floor s' k' := if s' = s ∧ k' = k then i + 1 else r.floor s' k'

@[simp] theorem write_versions_self (r : SessionRegister Key Val Session) (s : Session) (k : Key)
    (v : Val) : (r.write s k v).versions k = r.versions k ++ [v] := if_pos rfl

@[simp] theorem write_floor_self (r : SessionRegister Key Val Session) (s : Session) (k : Key)
    (v : Val) : (r.write s k v).floor s k = (r.versions k).length + 1 := if_pos ⟨rfl, rfl⟩

@[simp] theorem read_versions (r : SessionRegister Key Val Session) (s : Session) (k : Key)
    (i : Nat) : (r.read s k i).versions = r.versions := rfl

@[simp] theorem read_floor_self (r : SessionRegister Key Val Session) (s : Session) (k : Key)
    (i : Nat) : (r.read s k i).floor s k = i + 1 := if_pos ⟨rfl, rfl⟩

theorem write_versions_ne (r : SessionRegister Key Val Session) (s : Session) {k k' : Key}
    (v : Val) (h : k' ≠ k) : (r.write s k v).versions k' = r.versions k' := if_neg h

theorem write_floor_ne (r : SessionRegister Key Val Session) (s s' : Session) {k k' : Key}
    (v : Val) (h : k' ≠ k) : (r.write s k v).floor s' k' = r.floor s' k' :=
  if_neg (fun hh => h hh.2)

theorem write_floor_other (r : SessionRegister Key Val Session) {s s' : Session} (k k' : Key)
    (v : Val) (h : s' ≠ s) : (r.write s k v).floor s' k' = r.floor s' k' :=
  if_neg (fun hh => h hh.1)

theorem read_floor_ne (r : SessionRegister Key Val Session) (s s' : Session) {k k' : Key}
    (i : Nat) (h : k' ≠ k) : (r.read s k i).floor s' k' = r.floor s' k' :=
  if_neg (fun hh => h hh.2)

theorem read_floor_other (r : SessionRegister Key Val Session) {s s' : Session} (k k' : Key)
    (i : Nat) (h : s' ≠ s) : (r.read s k i).floor s' k' = r.floor s' k' :=
  if_neg (fun hh => h hh.1)

/-- **What a read takes away**: the versions before the one read, from its own session and
under its own key. -/
theorem mayRead_read_iff {r : SessionRegister Key Val Session} {s : Session} {k : Key} {i : Nat}
    {v : Val} (h : r.MayRead s k i v) (s' : Session) (k' : Key) (j : Nat) (v' : Val) :
    (r.read s k i).MayRead s' k' j v'
      ↔ r.MayRead s' k' j v' ∧ (s' = s → k' = k → i ≤ j) := by
  unfold MayRead
  rw [read_versions]
  by_cases hsk : s' = s ∧ k' = k
  · obtain ⟨rfl, rfl⟩ := hsk
    rw [read_floor_self]
    have hfloor := h.2
    constructor
    · rintro ⟨hv, hle⟩
      exact ⟨⟨hv, by omega⟩, fun _ _ => by omega⟩
    · rintro ⟨⟨hv, -⟩, hle⟩
      exact ⟨hv, Nat.succ_le_succ (hle rfl rfl)⟩
  · have hfloor : (r.read s k i).floor s' k' = r.floor s' k' := if_neg hsk
    rw [hfloor]
    exact (and_iff_left fun hs hk => (hsk ⟨hs, hk⟩).elim).symm

/-! ## Floors stay bounded -/

theorem Bounded.read {r : SessionRegister Key Val Session} (h : r.Bounded) {s : Session} {k : Key}
    {i : Nat} {v : Val} (hread : r.MayRead s k i v) : (r.read s k i).Bounded := by
  intro s' k'
  by_cases hsk : s' = s ∧ k' = k
  · rw [hsk.1, hsk.2, read_floor_self]
    exact (List.getElem?_eq_some_iff.mp hread.1).1
  · exact Nat.le_trans (Nat.le_of_eq (if_neg hsk)) (h s' k')

theorem Bounded.write {r : SessionRegister Key Val Session} (h : r.Bounded) (s : Session) (k : Key)
    (v : Val) : (r.write s k v).Bounded := by
  intro s' k'
  by_cases hk : k' = k
  · subst hk
    rw [write_versions_self, List.length_append, List.length_singleton]
    by_cases hs : s' = s
    · subst hs
      exact Nat.le_of_eq (write_floor_self r s' k' v)
    · rw [write_floor_other _ _ _ _ hs]
      exact Nat.le_succ_of_le (h s' k')
  · rw [write_floor_ne _ _ _ _ hk, write_versions_ne _ _ _ hk]
    exact h s' k'

/-! ## A session with no choice -/

omit [DecidableEq Key] [DecidableEq Session] in
/-- The value last written under a key. -/
def latest (r : SessionRegister Key Val Session) (k : Key) : Option Val :=
  (r.versions k).getLast?

omit [DecidableEq Key] [DecidableEq Session] in
/-- Under every key `s` knows the last version, or there is no other. -/
def Settled (r : SessionRegister Key Val Session) (s : Session) : Prop :=
  ∀ k, (r.versions k).length ≤ max 1 (r.floor s k)

theorem latest_read (r : SessionRegister Key Val Session) (s : Session) (k : Key) (i : Nat) :
    (r.read s k i).latest = r.latest := rfl

theorem latest_write (r : SessionRegister Key Val Session) (s : Session) (k : Key) (v : Val) :
    (r.write s k v).latest = Function.update r.latest k (some v) := by
  funext k'
  unfold latest
  by_cases h : k' = k
  · subst h
    rw [write_versions_self, List.getLast?_concat, Function.update_self]
  · rw [write_versions_ne _ _ _ h, Function.update_of_ne h]

/-- A settled session that reads stays settled. -/
theorem Settled.read {r : SessionRegister Key Val Session} {s : Session} (h : r.Settled s)
    {k : Key} {i : Nat} {v : Val} (hread : r.MayRead s k i v) : (r.read s k i).Settled s := by
  intro k'
  by_cases hk : k' = k
  · subst hk
    have hlast := (hread.eq_last (h k')).1
    rw [read_versions, read_floor_self, hlast]
    exact Nat.le_max_right _ _
  · rw [read_versions, read_floor_ne _ _ _ _ hk]
    exact h k'

/-- And so does one that writes. -/
theorem Settled.write {r : SessionRegister Key Val Session} {s : Session} (h : r.Settled s)
    (k : Key) (v : Val) : (r.write s k v).Settled s := by
  intro k'
  by_cases hk : k' = k
  · subst hk
    rw [write_versions_self, write_floor_self, List.length_append]
    exact Nat.le_max_right _ _
  · rw [write_versions_ne _ _ _ hk, write_floor_ne _ _ _ _ hk]
    exact h k'

/-! ## Steps that commute -/

/-- Writes to different keys. -/
theorem write_write_comm (r : SessionRegister Key Val Session) (s s' : Session) {k k' : Key}
    (v v' : Val) (h : k ≠ k') :
    (r.write s k v).write s' k' v' = (r.write s' k' v').write s k v := by
  unfold write
  congr 1
  · funext k''
    by_cases hk : k'' = k
    · subst hk; simp [h]
    · by_cases hk' : k'' = k'
      · subst hk'; simp [hk]
      · simp [hk, hk']
  · funext s'' k''
    by_cases hk : k'' = k
    · subst hk; simp [h]
    · by_cases hk' : k'' = k'
      · subst hk'; simp [hk]
      · simp [hk, hk']

/-- A write and a read of another key. -/
theorem write_read_comm (r : SessionRegister Key Val Session) (s s' : Session) {k k' : Key}
    (v : Val) (i : Nat) (h : k ≠ k') :
    (r.write s k v).read s' k' i = (r.read s' k' i).write s k v := by
  unfold write read
  congr 1
  funext s'' k''
  by_cases hk : k'' = k
  · subst hk; simp [h]
  · simp [hk]

/-- Reads by different sessions. -/
theorem read_read_comm (r : SessionRegister Key Val Session) {s s' : Session} (k k' : Key)
    (i j : Nat) (h : s ≠ s') : (r.read s k i).read s' k' j = (r.read s' k' j).read s k i := by
  unfold read
  congr 1
  funext s'' k''
  by_cases hs : s'' = s
  · subst hs; simp [h]
  · simp [hs]

/-! ## Renamed keys -/

variable {Name : Type*} [DecidableEq Name]

omit [DecidableEq Key] [DecidableEq Session] [DecidableEq Name] in
/-- The registers under the names that keys have. -/
def comap (name : Key → Name) (r : SessionRegister Name Val Session) :
    SessionRegister Key Val Session where
  versions k := r.versions (name k)
  floor s k := r.floor s (name k)

theorem comap_write {name : Key → Name} (hname : Function.Injective name)
    (r : SessionRegister Name Val Session) (s : Session) (k : Key) (v : Val) :
    (r.write s (name k) v).comap name = (r.comap name).write s k v := by
  unfold comap write
  simp only [hname.eq_iff]

theorem comap_read {name : Key → Name} (hname : Function.Injective name)
    (r : SessionRegister Name Val Session) (s : Session) (k : Key) (i : Nat) :
    (r.read s (name k) i).comap name = (r.comap name).read s k i := by
  unfold comap read
  simp only [hname.eq_iff]

end SessionRegister
