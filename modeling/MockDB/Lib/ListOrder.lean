import Mathlib.Data.List.Nodup
import Mathlib.Data.List.Basic
import Mathlib.Data.List.Induction
import Mathlib.Data.List.Perm.Basic

/-!
# Positions in a log

A log only grows at its end, and a view of it is a `filterMap`. These are the facts
about positions such arguments keep using: where an element of a view sits in the
log, what an append does to a prefix, and when one element precedes another.
-/

namespace ListOrder

variable {α β : Type*}

/-! ## Prefixes of a log that grew -/

/-- An entry of a grown log is an old entry or the new one. -/
theorem getElem?_concat {l : List α} {a b : α} {n : Nat} (h : (l ++ [a])[n]? = some b) :
    (n < l.length ∧ l[n]? = some b) ∨ (n = l.length ∧ b = a) := by
  rcases Nat.lt_trichotomy n l.length with hlt | heq | hgt
  · rw [List.getElem?_append_left hlt] at h
    exact Or.inl ⟨hlt, h⟩
  · subst heq
    rw [List.getElem?_concat_length] at h
    exact Or.inr ⟨rfl, (Option.some.inj h).symm⟩
  · rw [List.getElem?_eq_none (by simp; omega)] at h
    exact absurd h (by simp)

theorem take_concat {l : List α} {a : α} {n : Nat} (h : n ≤ l.length) :
    (l ++ [a]).take n = l.take n := List.take_append_of_le_length h

theorem nodup_concat {l : List α} {a : α} : (l ++ [a]).Nodup ↔ a ∉ l ∧ l.Nodup := by
  rw [← List.concat_eq_append, List.nodup_concat]

/-! ## Views -/

/-- An element of a view, found at its position in the log. -/
theorem getElem?_filterMap {f : α → Option β} {l : List α} {i : Nat} {b : β} :
    (l.filterMap f)[i]? = some b ↔
      ∃ n a, l[n]? = some a ∧ f a = some b ∧ ((l.take n).filterMap f).length = i := by
  induction l generalizing i with
  | nil => simp
  | cons x l ih =>
      cases hx : f x with
      | none =>
          rw [List.filterMap_cons_none hx, ih]
          constructor
          · rintro ⟨n, a, hn, ha, hi⟩
            exact ⟨n + 1, a, hn, ha, by rw [List.take_succ_cons, List.filterMap_cons_none hx, hi]⟩
          · rintro ⟨n, a, hn, ha, hi⟩
            cases n with
            | zero =>
                have : x = a := by simpa using hn
                subst this
                rw [hx] at ha; exact absurd ha (by simp)
            | succ n =>
                rw [List.take_succ_cons, List.filterMap_cons_none hx] at hi
                exact ⟨n, a, by simpa using hn, ha, hi⟩
      | some y =>
          rw [List.filterMap_cons_some hx]
          cases i with
          | zero =>
              constructor
              · intro h
                have : y = b := by simpa using h
                subst this
                exact ⟨0, x, rfl, hx, rfl⟩
              · rintro ⟨n, a, hn, ha, hi⟩
                cases n with
                | zero =>
                    have : x = a := by simpa using hn
                    subst this
                    rw [hx] at ha; simpa using ha
                | succ n =>
                    rw [List.take_succ_cons, List.filterMap_cons_some hx] at hi
                    exact absurd hi (by simp)
          | succ i =>
              rw [List.getElem?_cons_succ, ih]
              constructor
              · rintro ⟨n, a, hn, ha, hi⟩
                refine ⟨n + 1, a, hn, ha, ?_⟩
                rw [List.take_succ_cons, List.filterMap_cons_some hx, List.length_cons, hi]
              · rintro ⟨n, a, hn, ha, hi⟩
                cases n with
                | zero => exact absurd hi (by simp)
                | succ n =>
                    rw [List.take_succ_cons, List.filterMap_cons_some hx] at hi
                    exact ⟨n, a, by simpa using hn, ha, by simpa using hi⟩

/-- Views of longer prefixes are longer. -/
theorem length_filterMap_take_mono {f : α → Option β} {l : List α} {m n : Nat} (h : m ≤ n) :
    ((l.take m).filterMap f).length ≤ ((l.take n).filterMap f).length := by
  have hpre : l.take m <+: l.take n := List.take_prefix_take_left h
  exact (hpre.filterMap f).length_le

/-- An element in view moves the view's length past it. -/
theorem length_filterMap_take_succ {f : α → Option β} {l : List α} {n : Nat} {a : α} {b : β}
    (hn : l[n]? = some a) (ha : f a = some b) :
    ((l.take (n + 1)).filterMap f).length = ((l.take n).filterMap f).length + 1 := by
  rw [List.take_add_one, hn]
  simp [ha]

/-- A view that shows less is a part of the view. -/
theorem filterMap_sublist {f g : α → Option β} (h : ∀ a b, f a = some b → g a = some b)
    (l : List α) : (l.filterMap f).Sublist (l.filterMap g) := by
  induction l with
  | nil => exact List.Sublist.refl _
  | cons a l ih =>
      cases hf : f a with
      | none =>
          rw [List.filterMap_cons_none hf]
          exact ih.trans ((List.sublist_cons_self a l).filterMap g)
      | some b =>
          rw [List.filterMap_cons_some hf, List.filterMap_cons_some (h a b hf)]
          exact ih.cons_cons b

/-- One key of those without duplicates shows what any of them shows. -/
theorem flatMap_keys {κ : Type*} [DecidableEq κ] {keys : List κ} (h : keys.Nodup)
    (entry : Option (κ × β)) :
    (keys.flatMap fun k => ((entry.filter fun p => p.1 = k).map Prod.snd).toList)
      = ((entry.filter fun p => p.1 ∈ keys).map Prod.snd).toList := by
  cases entry with
  | none => simp
  | some p =>
      induction keys with
      | nil => simp
      | cons k keys ih =>
          obtain ⟨hk, hkeys⟩ := List.nodup_cons.mp h
          rw [List.flatMap_cons, ih hkeys]
          by_cases hp : p.1 = k
          · subst hp
            simp [Option.filter, hk]
          · simp [Option.filter, hp]

/-- **The views by each of some keys, one after another, are the view by any of them**, but
for the order. -/
theorem flatMap_view_perm {κ : Type*} [DecidableEq κ] {keys : List κ} (h : keys.Nodup)
    (f : α → Option (κ × β)) (l : List α) :
    (keys.flatMap fun k => l.filterMap fun a => ((f a).filter fun p => p.1 = k).map Prod.snd).Perm
      (l.filterMap fun a => ((f a).filter fun p => p.1 ∈ keys).map Prod.snd) := by
  simp only [List.filterMap_eq_flatMap_toList]
  induction l with
  | nil => simp
  | cons a l ih =>
      simp only [List.flatMap_cons]
      have hfirst := flatMap_keys h (f a)
      rw [← hfirst]
      exact (List.flatMap_append_perm keys _ _).symm.trans (ih.append_left _)

/-! ## Along a log -/

/-- What each step along a log keeps, every prefix of it has. -/
theorem prefix_induction {I : List α → Prop} {l : List α} (hnil : I [])
    (hstep : ∀ p a, p ++ [a] <+: l → I p → I (p ++ [a])) {p : List α} (hp : p <+: l) : I p := by
  induction p using List.reverseRecOn with
  | nil => exact hnil
  | append_singleton p a ih => exact hstep p a hp (ih ((List.prefix_append p [a]).trans hp))

/-- **What every step keeps under a condition, and only then, every prefix of a log has
just if every step of it meets the condition.** -/
theorem forall_prefix_iff {I : List α → Prop} {H : List α → α → Prop} {l : List α} (hnil : I [])
    (hstep : ∀ p a, p ++ [a] <+: l → I p → (I (p ++ [a]) ↔ H p a)) :
    (∀ p, p <+: l → I p) ↔ ∀ p a, p ++ [a] <+: l → H p a := by
  constructor
  · intro h p a hp
    exact (hstep p a hp (h p ((List.prefix_append p [a]).trans hp))).mp (h _ hp)
  · intro h p hp
    exact prefix_induction hnil (fun q a hq hI => (hstep q a hq hI).mpr (h q a hq)) hp

/-- What holds of each step of a log holds of each step but the last, and of the last. -/
theorem forall_step_concat {H : List α → α → Prop} {l : List α} {b : α} :
    (∀ p a, p ++ [a] <+: l ++ [b] → H p a) ↔ (∀ p a, p ++ [a] <+: l → H p a) ∧ H l b := by
  constructor
  · intro h
    exact ⟨fun p a hp => h p a (hp.trans (List.prefix_append l [b])), h l b List.prefix_rfl⟩
  · rintro ⟨h, hlast⟩ p a hp
    rcases List.prefix_concat_iff.mp hp with heq | hold
    · obtain ⟨rfl, ha⟩ := List.append_inj' heq rfl
      rw [List.singleton_inj.mp ha]
      exact hlast
    · exact h p a hold

/-- In a log whose view has no duplicates, the next entry shows what no entry before it does. -/
theorem not_mem_of_nodup_filterMap {f : α → Option β} {l p : List α} {a : α} {b : β}
    (h : (l.filterMap f).Nodup) (hp : p ++ [a] <+: l) (ha : f a = some b) :
    b ∉ p.filterMap f := by
  have hsub := (hp.sublist.filterMap f).nodup h
  rw [List.filterMap_append, List.filterMap_cons_some ha, List.filterMap_nil] at hsub
  exact (nodup_concat.mp hsub).1

/-- In a log whose view has no duplicates, one entry shows one thing. -/
theorem eq_of_nodup_filterMap {f : α → Option β} {l : List α} {a a' : α} {b : β}
    (h : (l.filterMap f).Nodup) (ha : a ∈ l) (ha' : a' ∈ l) (hb : f a = some b)
    (hb' : f a' = some b) : a = a' := by
  induction l with
  | nil => exact (List.not_mem_nil ha).elim
  | cons x l ih =>
      have hrest : (l.filterMap f).Nodup :=
        ((List.sublist_cons_self x l).filterMap f).nodup h
      have hnone : ∀ y ∈ l, f x = some b → f y ≠ some b := by
        intro y hy hx hyb
        rw [List.filterMap_cons_some hx] at h
        exact (List.nodup_cons.mp h).1 (List.mem_filterMap.mpr ⟨y, hy, hyb⟩)
      rcases List.mem_cons.mp ha with rfl | hal
      · rcases List.mem_cons.mp ha' with rfl | hal'
        · rfl
        · exact (hnone a' hal' hb hb').elim
      · rcases List.mem_cons.mp ha' with rfl | hal'
        · exact (hnone a hal hb' hb).elim
        · exact ih hrest hal hal'

/-- What is in a log once is at one position. -/
theorem eq_of_count_le_one [DecidableEq α] {l : List α} {a : α} (h : l.count a ≤ 1) {i j : Nat}
    (hi : l[i]? = some a) (hj : l[j]? = some a) : i = j := by
  induction l generalizing i j with
  | nil => cases hi
  | cons b l ih =>
      rw [List.count_cons] at h
      -- at the first place, and so at no later one
      have hfirst : b = a → ∀ k : Nat, l[k]? ≠ some a := by
        intro hb k hk
        have hpos := List.count_pos_iff.mpr (List.mem_of_getElem? hk)
        rw [if_pos (beq_iff_eq.mpr hb)] at h
        omega
      cases i with
      | zero =>
          cases j with
          | zero => rfl
          | succ j => exact absurd hj (hfirst (Option.some.inj hi) j)
      | succ i =>
          cases j with
          | zero => exact absurd hi (hfirst (Option.some.inj hj) i)
          | succ j => rw [ih (Nat.le_trans (Nat.le_add_right _ _) h) hi hj]

end ListOrder
