import MockDB.Lib.SessionRegister

/-!
# Programs over a store

A program is what one client does: it returns, raises an exception, or asks the store for
a value or to take one, and goes on from the answer. It means different things over
different stores, each with a rule for every way of putting programs together.

* `onMap` runs it alone on a map, where a read finds the value last written.
* `wp` is what it guarantees when it runs alone on session registers, where a read may
  find any version that its session may still read.
* `Keeps` is what it guarantees of its writes as long as each value it reads satisfies a
  predicate of its key, whatever others do to the store meanwhile.
* `among` is what it guarantees of its result too, exceptions included, where some keys are
  known to have values.
* `Writes` bounds the keys it writes to, so all else stays as it was.
* `By` names the one session that it reads and writes by. On registers on which that session
  has no choice, it does what it does on a map.
-/

/-- `Miss` is what a failing read answers, `Exn` what a program raises. -/
inductive Program (Key Val Session Miss Exn α : Type) : Type where
  | ret (a : α)
  | raise (e : Exn)
  | get (key : Key) (session : Session)
      (next : Except Miss Val → Program Key Val Session Miss Exn α)
  | put (key : Key) (val : Val) (session : Session)
      (next : Program Key Val Session Miss Exn α)

namespace Program

variable {Key Val Session Miss Exn α β : Type}

/-- One program after another, unless the first one raises. -/
def bind (f : α → Program Key Val Session Miss Exn β) :
    Program Key Val Session Miss Exn α → Program Key Val Session Miss Exn β
  | ret a => f a
  | raise e => raise e
  | get key s next => get key s fun r => (next r).bind f
  | put key val s next => put key val s (next.bind f)

instance : Monad (Program Key Val Session Miss Exn) where
  pure := ret
  bind x f := x.bind f

/-- `try` and `catch` at once: what the program returned or raised. -/
def attempt : Program Key Val Session Miss Exn α → Program Key Val Session Miss Exn (Except Exn α)
  | ret a => ret (.ok a)
  | raise e => ret (.error e)
  | get key s next => get key s fun r => (next r).attempt
  | put key val s next => put key val s next.attempt

/-- A computation that may raise `e`. -/
def ofOption (e : Exn) : Option α → Program Key Val Session Miss Exn α
  | some a => ret a
  | none => raise e

/-! ## Alone on a map -/

section OnMap

variable [DecidableEq Key] (miss : Key → Miss)

/-- What the program returns or raises, and the map it leaves. -/
def onMap : Program Key Val Session Miss Exn α → (Key → Option Val) →
    Except Exn α × (Key → Option Val)
  | ret a, m => (.ok a, m)
  | raise e, m => (.error e, m)
  | get key _ next, m => (next ((m key).elim (.error (miss key)) .ok)).onMap m
  | put key val _ next, m => next.onMap (Function.update m key (some val))

/-- Goes on from what an earlier program returned, or raises what it raised. -/
def after {S : Type} (f : α → S → Except Exn β × S) : Except Exn α × S → Except Exn β × S
  | (.ok a, m) => f a m
  | (.error e, m) => (.error e, m)

@[simp] theorem after_ok {S : Type} (f : α → S → Except Exn β × S) (a : α) (m : S) :
    after f (.ok a, m) = f a m := rfl

@[simp] theorem after_error {S : Type} (f : α → S → Except Exn β × S) (e : Exn) (m : S) :
    after f (.error e, m) = (.error e, m) := rfl

@[simp] theorem onMap_pure (a : α) (m : Key → Option Val) :
    (pure a : Program Key Val Session Miss Exn α).onMap miss m = (.ok a, m) := rfl

@[simp] theorem onMap_raise (e : Exn) (m : Key → Option Val) :
    (raise e : Program Key Val Session Miss Exn α).onMap miss m = (.error e, m) := rfl

@[simp] theorem onMap_bind (x : Program Key Val Session Miss Exn α)
    (f : α → Program Key Val Session Miss Exn β) (m : Key → Option Val) :
    (x >>= f).onMap miss m = after (fun a m => (f a).onMap miss m) (x.onMap miss m) := by
  show (x.bind f).onMap miss m = _
  induction x generalizing m with
  | ret a => rfl
  | raise e => rfl
  | get key s next ih => exact ih _ m
  | put key val s next ih => exact ih _

@[simp] theorem onMap_attempt (x : Program Key Val Session Miss Exn α) (m : Key → Option Val) :
    x.attempt.onMap miss m = (.ok (x.onMap miss m).1, (x.onMap miss m).2) := by
  induction x generalizing m with
  | ret a => rfl
  | raise e => rfl
  | get key s next ih => exact ih _ m
  | put key val s next ih => exact ih _

end OnMap

/-! ## Alone on session registers -/

section Wp

variable [DecidableEq Key] [DecidableEq Session] (miss : Key → Miss)

/-- Every run from `r` ends with a result and registers that `Q` holds of. -/
def wp : Program Key Val Session Miss Exn α → SessionRegister Key Val Session →
    (Except Exn α → SessionRegister Key Val Session → Prop) → Prop
  | ret a, r, Q => Q (.ok a) r
  | raise e, r, Q => Q (.error e) r
  | get key s next, r, Q =>
      (r.versions key = [] → (next (.error (miss key))).wp r Q)
        ∧ ∀ i v, r.MayRead s key i v → (next (.ok v)).wp (r.read s key i) Q
  | put key val s next, r, Q => next.wp (r.write s key val) Q

/-- What is asked of the first of two programs. -/
def andThen {S : Type} (Q : Except Exn β → S → Prop) (f : α → S → Prop) :
    Except Exn α → S → Prop
  | .ok a, r => f a r
  | .error e, r => Q (.error e) r

@[simp] theorem andThen_ok {S : Type} (Q : Except Exn β → S → Prop) (f : α → S → Prop) (a : α)
    (r : S) : andThen Q f (.ok a) r = f a r := rfl

theorem wp_mono {x : Program Key Val Session Miss Exn α} {r : SessionRegister Key Val Session}
    {Q Q' : Except Exn α → SessionRegister Key Val Session → Prop} (h : x.wp miss r Q)
    (hQ : ∀ res r', Q res r' → Q' res r') : x.wp miss r Q' := by
  induction x generalizing r with
  | ret a => exact hQ _ _ h
  | raise e => exact hQ _ _ h
  | get key s next ih =>
      exact ⟨fun hno => ih _ (h.1 hno), fun i v hread => ih _ (h.2 i v hread)⟩
  | put key val s next ih => exact ih h

theorem wp_bind (x : Program Key Val Session Miss Exn α)
    (f : α → Program Key Val Session Miss Exn β) (r : SessionRegister Key Val Session)
    (Q : Except Exn β → SessionRegister Key Val Session → Prop) :
    (x >>= f).wp miss r Q ↔ x.wp miss r (andThen Q fun a r => (f a).wp miss r Q) := by
  show (x.bind f).wp miss r Q ↔ _
  induction x generalizing r with
  | ret a => exact Iff.rfl
  | raise e => exact Iff.rfl
  | get key s next ih =>
      exact and_congr (imp_congr_right fun _ => ih _ _)
        (forall_congr' fun i => forall_congr' fun v => imp_congr_right fun _ => ih _ _)
  | put key val s next ih => exact ih _

theorem wp_attempt (x : Program Key Val Session Miss Exn α)
    (r : SessionRegister Key Val Session)
    (Q : Except Exn (Except Exn α) → SessionRegister Key Val Session → Prop) :
    x.attempt.wp miss r Q ↔ x.wp miss r fun res r => Q (.ok res) r := by
  induction x generalizing r with
  | ret a => exact Iff.rfl
  | raise e => exact Iff.rfl
  | get key s next ih =>
      exact and_congr (imp_congr_right fun _ => ih _ _)
        (forall_congr' fun i => forall_congr' fun v => imp_congr_right fun _ => ih _ _)
  | put key val s next ih => exact ih _

end Wp

/-! ## Among others -/

section Keeps

variable {P : Key → Val → Prop}

/-- If every value read satisfies `P`, so does every value written, and `Q` holds of what is
returned, if anything is. -/
def Keeps (P : Key → Val → Prop) : Program Key Val Session Miss Exn α → (α → Prop) → Prop
  | ret a, Q => Q a
  | raise _, _ => True
  | get key _ next, Q =>
      (∀ e, (next (.error e)).Keeps P Q) ∧ ∀ v, P key v → (next (.ok v)).Keeps P Q
  | put key val _ next, Q => P key val ∧ next.Keeps P Q

theorem Keeps.mono {x : Program Key Val Session Miss Exn α} {Q Q' : α → Prop}
    (h : x.Keeps P Q) (hQ : ∀ a, Q a → Q' a) : x.Keeps P Q' := by
  induction x with
  | ret a => exact hQ a h
  | raise e => trivial
  | get key s next ih => exact ⟨fun e => ih _ (h.1 e), fun v hv => ih _ (h.2 v hv)⟩
  | put key val s next ih => exact ⟨h.1, ih h.2⟩

theorem Keeps.bind {x : Program Key Val Session Miss Exn α}
    {f : α → Program Key Val Session Miss Exn β} {R : α → Prop} {Q : β → Prop}
    (hx : x.Keeps P R) (hf : ∀ a, R a → (f a).Keeps P Q) : (x >>= f).Keeps P Q := by
  show (x.bind f).Keeps P Q
  induction x with
  | ret a => exact hf a hx
  | raise e => trivial
  | get key s next ih => exact ⟨fun e => ih _ (hx.1 e), fun v hv => ih _ (hx.2 v hv)⟩
  | put key val s next ih => exact ⟨hx.1, ih hx.2⟩

/-- One program after another whatever it returned. -/
theorem Keeps.andThen {x : Program Key Val Session Miss Exn α}
    {f : α → Program Key Val Session Miss Exn β} {Q : β → Prop}
    (hx : x.Keeps P fun _ => True) (hf : ∀ a, (f a).Keeps P Q) : (x >>= f).Keeps P Q :=
  hx.bind fun a _ => hf a

theorem Keeps.attempt {x : Program Key Val Session Miss Exn α} {Q : Except Exn α → Prop}
    (h : x.Keeps P fun a => Q (.ok a)) (he : ∀ e, Q (.error e)) : x.attempt.Keeps P Q := by
  induction x with
  | ret a => exact h
  | raise e => exact he e
  | get key s next ih => exact ⟨fun e => ih _ (h.1 e), fun v hv => ih _ (h.2 v hv)⟩
  | put key val s next ih => exact ⟨h.1, ih h.2⟩

theorem keeps_ofOption {e : Exn} {o : Option α} {Q : α → Prop} (h : ∀ a, o = some a → Q a) :
    (ofOption e o : Program Key Val Session Miss Exn α).Keeps P Q := by
  cases o with
  | none => trivial
  | some a => exact h a rfl

end Keeps

section Among

variable {P : Key → Val → Prop} {H : Key → Prop} {miss : Key → Miss}

/-- If every value read satisfies `P` and no key of `H` is missing, every value written
satisfies `P`, and the program ends with a result that `Q` holds of. -/
def among (P : Key → Val → Prop) (H : Key → Prop) (miss : Key → Miss) :
    Program Key Val Session Miss Exn α → (Except Exn α → Prop) → Prop
  | ret a, Q => Q (.ok a)
  | raise e, Q => Q (.error e)
  | get key _ next, Q =>
      (¬ H key → (next (.error (miss key))).among P H miss Q)
        ∧ ∀ v, P key v → (next (.ok v)).among P H miss Q
  | put key val _ next, Q => P key val ∧ next.among P H miss Q

/-- What is asked of the first of two programs. -/
def orElse (Q : Except Exn β → Prop) (f : α → Prop) : Except Exn α → Prop
  | .ok a => f a
  | .error e => Q (.error e)

theorem among_mono {x : Program Key Val Session Miss Exn α} {Q Q' : Except Exn α → Prop}
    (h : x.among P H miss Q) (hQ : ∀ r, Q r → Q' r) : x.among P H miss Q' := by
  induction x with
  | ret a => exact hQ _ h
  | raise e => exact hQ _ h
  | get key s next ih => exact ⟨fun hno => ih _ (h.1 hno), fun v hv => ih _ (h.2 v hv)⟩
  | put key val s next ih => exact ⟨h.1, ih h.2⟩

theorem among_bind (x : Program Key Val Session Miss Exn α)
    (f : α → Program Key Val Session Miss Exn β) (Q : Except Exn β → Prop) :
    (x >>= f).among P H miss Q
      ↔ x.among P H miss (orElse Q fun a => (f a).among P H miss Q) := by
  show (x.bind f).among P H miss Q ↔ _
  induction x with
  | ret a => exact Iff.rfl
  | raise e => exact Iff.rfl
  | get key s next ih =>
      exact and_congr (imp_congr_right fun _ => ih _)
        (forall_congr' fun v => imp_congr_right fun _ => ih _)
  | put key val s next ih => exact and_congr_right fun _ => ih

theorem among_attempt (x : Program Key Val Session Miss Exn α)
    (Q : Except Exn (Except Exn α) → Prop) :
    x.attempt.among P H miss Q ↔ x.among P H miss fun r => Q (.ok r) := by
  induction x with
  | ret a => exact Iff.rfl
  | raise e => exact Iff.rfl
  | get key s next ih =>
      exact and_congr (imp_congr_right fun _ => ih _)
        (forall_congr' fun v => imp_congr_right fun _ => ih _)
  | put key val s next ih => exact and_congr_right fun _ => ih

/-- The program does not raise, and `Q` holds of what it returns. -/
def Returns (P : Key → Val → Prop) (H : Key → Prop) (miss : Key → Miss)
    (x : Program Key Val Session Miss Exn α) (Q : α → Prop) : Prop :=
  x.among P H miss fun r => ∃ a, r = .ok a ∧ Q a

theorem Returns.mono {x : Program Key Val Session Miss Exn α} {Q Q' : α → Prop}
    (h : x.Returns P H miss Q) (hQ : ∀ a, Q a → Q' a) : x.Returns P H miss Q' :=
  among_mono h fun _ ⟨a, heq, ha⟩ => ⟨a, heq, hQ a ha⟩

theorem returns_pure {a : α} {Q : α → Prop} (h : Q a) :
    (pure a : Program Key Val Session Miss Exn α).Returns P H miss Q := ⟨a, rfl, h⟩

/-- One program after another, of which the second one may raise. -/
theorem Returns.then {x : Program Key Val Session Miss Exn α}
    {f : α → Program Key Val Session Miss Exn β} {R : α → Prop} {Q : Except Exn β → Prop}
    (hx : x.Returns P H miss R) (hf : ∀ a, R a → (f a).among P H miss Q) :
    (x >>= f).among P H miss Q := by
  refine (among_bind x f Q).mpr (among_mono hx fun r hr => ?_)
  obtain ⟨a, rfl, ha⟩ := hr
  exact hf a ha

theorem Returns.bind {x : Program Key Val Session Miss Exn α}
    {f : α → Program Key Val Session Miss Exn β} {R : α → Prop} {Q : β → Prop}
    (hx : x.Returns P H miss R) (hf : ∀ a, R a → (f a).Returns P H miss Q) :
    (x >>= f).Returns P H miss Q := hx.then hf

theorem Returns.attempt {x : Program Key Val Session Miss Exn α} {Q : Except Exn α → Prop}
    (h : x.among P H miss Q) : x.attempt.Returns P H miss Q :=
  (among_attempt x _).mpr (among_mono h fun r hr => ⟨r, rfl, hr⟩)

theorem returns_ofOption {e : Exn} {a : α} {o : Option α} {Q : α → Prop} (ho : o = some a)
    (h : Q a) : (ofOption e o : Program Key Val Session Miss Exn α).Returns P H miss Q := by
  rw [ho]
  exact ⟨a, rfl, h⟩

end Among

/-! ## What a program writes to -/

section Writes

variable {S : Key → Prop}

/-- The program writes to keys of `S` only, whatever it reads. -/
def Writes (S : Key → Prop) : Program Key Val Session Miss Exn α → Prop
  | ret _ => True
  | raise _ => True
  | get _ _ next => ∀ r, (next r).Writes S
  | put key _ _ next => S key ∧ next.Writes S

theorem Writes.bind {x : Program Key Val Session Miss Exn α}
    {f : α → Program Key Val Session Miss Exn β} (hx : x.Writes S) (hf : ∀ a, (f a).Writes S) :
    (x >>= f).Writes S := by
  show (x.bind f).Writes S
  induction x with
  | ret a => exact hf a
  | raise e => trivial
  | get key s next ih => exact fun r => ih r (hx r)
  | put key val s next ih => exact ⟨hx.1, ih hx.2⟩

theorem Writes.attempt {x : Program Key Val Session Miss Exn α} (hx : x.Writes S) :
    x.attempt.Writes S := by
  induction x with
  | ret a => trivial
  | raise e => trivial
  | get key s next ih => exact fun r => ih r (hx r)
  | put key val s next ih => exact ⟨hx.1, ih hx.2⟩

theorem writes_ofOption (e : Exn) (o : Option α) :
    (ofOption e o : Program Key Val Session Miss Exn α).Writes S := by
  cases o <;> trivial

theorem writes_univ (x : Program Key Val Session Miss Exn α) : x.Writes fun _ => True := by
  induction x with
  | ret a => trivial
  | raise e => trivial
  | get key s next ih => exact ih
  | put key val s next ih => exact ⟨trivial, ih⟩

/-- Nothing else of a map changes. -/
theorem Writes.onMap [DecidableEq Key] {x : Program Key Val Session Miss Exn α}
    (hx : x.Writes S) (miss : Key → Miss) (m : Key → Option Val) {key : Key} (hkey : ¬ S key) :
    (x.onMap miss m).2 key = m key := by
  induction x generalizing m with
  | ret a => rfl
  | raise e => rfl
  | get k s next ih => exact ih _ (hx _) m
  | put k val s next ih =>
      have hne : key ≠ k := fun heq => hkey (heq ▸ hx.1)
      exact (ih hx.2 _).trans (Function.update_of_ne hne _ m)

/-- Registers after `r`, with the versions as they were but under keys of `S`. -/
structure Grown [DecidableEq Key] [DecidableEq Session] (S : Key → Prop)
    (r r' : SessionRegister Key Val Session) : Prop where
  bounded : r'.Bounded
  /-- No floor has sunk. -/
  floor : ∀ s k, r.floor s k ≤ r'.floor s k
  versions : ∀ k, ¬ S k → r'.versions k = r.versions k

variable [DecidableEq Key] [DecidableEq Session]

theorem Grown.refl {r : SessionRegister Key Val Session} (h : r.Bounded) : Grown S r r :=
  ⟨h, fun _ _ => Nat.le_refl _, fun _ _ => rfl⟩

theorem Grown.trans {r r' r'' : SessionRegister Key Val Session} (h : Grown S r r')
    (h' : Grown S r' r'') : Grown S r r'' :=
  ⟨h'.bounded, fun s k => Nat.le_trans (h.floor s k) (h'.floor s k),
    fun k hk => (h'.versions k hk).trans (h.versions k hk)⟩

theorem Grown.mono {S' : Key → Prop} {r r' : SessionRegister Key Val Session} (h : Grown S r r')
    (hS : ∀ k, S k → S' k) : Grown S' r r' :=
  ⟨h.bounded, h.floor, fun k hk => h.versions k fun hSk => hk (hS k hSk)⟩

/-- A floor at a key's last version stays there while the key gets no other. -/
theorem Grown.floor_eq {r r' : SessionRegister Key Val Session} (h : Grown S r r') {s : Session}
    {k : Key} (hk : ¬ S k) (hlast : r.floor s k = (r.versions k).length) :
    r'.floor s k = (r'.versions k).length := by
  refine Nat.le_antisymm (h.bounded s k) ?_
  rw [h.versions k hk, ← hlast]
  exact h.floor s k

theorem grown_read {r : SessionRegister Key Val Session} (h : r.Bounded) {s : Session} {k : Key}
    {i : Nat} {v : Val} (hread : r.MayRead s k i v) : Grown S r (r.read s k i) where
  bounded := h.read hread
  floor s' k' := by
    by_cases hsk : s' = s ∧ k' = k
    · rw [hsk.1, hsk.2, SessionRegister.read_floor_self]; exact hread.2
    · exact Nat.le_of_eq (if_neg hsk).symm
  versions _ _ := rfl

theorem grown_write {r : SessionRegister Key Val Session} (h : r.Bounded) (s : Session) {k : Key}
    (hk : S k) (v : Val) : Grown S r (r.write s k v) where
  bounded := h.write s k v
  floor s' k' := by
    by_cases hsk : s' = s ∧ k' = k
    · rw [hsk.1, hsk.2, SessionRegister.write_floor_self]
      exact Nat.le_succ_of_le (h s k)
    · exact Nat.le_of_eq (if_neg hsk).symm
  versions k' hk' := SessionRegister.write_versions_ne r s v fun heq => hk' (heq ▸ hk)

/-- Nothing else of the registers changes. -/
theorem Writes.wp {x : Program Key Val Session Miss Exn α} (hx : x.Writes S)
    (miss : Key → Miss) {r : SessionRegister Key Val Session} (hr : r.Bounded) :
    x.wp miss r fun _ r' => Grown S r r' := by
  induction x generalizing r with
  | ret a => exact .refl hr
  | raise e => exact .refl hr
  | get key s next ih =>
      refine ⟨fun _ => ih _ (hx _) hr, fun i v hread => ?_⟩
      have hgrown : Grown S r (r.read s key i) := grown_read hr hread
      exact wp_mono miss (ih _ (hx _) hgrown.bounded) fun _ _ h => hgrown.trans h
  | put key val s next ih =>
      have hgrown := grown_write hr s hx.1 val
      exact wp_mono miss (ih hx.2 hgrown.bounded) fun _ _ h => hgrown.trans h

end Writes

/-! ## One session -/

section By

variable {s : Session}

/-- All reads and writes are by session `s`. -/
def By (s : Session) : Program Key Val Session Miss Exn α → Prop
  | ret _ => True
  | raise _ => True
  | get _ s' next => s' = s ∧ ∀ r, (next r).By s
  | put _ _ s' next => s' = s ∧ next.By s

theorem By.bind {x : Program Key Val Session Miss Exn α}
    {f : α → Program Key Val Session Miss Exn β} (hx : x.By s) (hf : ∀ a, (f a).By s) :
    (x >>= f).By s := by
  show (x.bind f).By s
  induction x with
  | ret a => exact hf a
  | raise e => trivial
  | get key s' next ih => exact ⟨hx.1, fun r => ih r (hx.2 r)⟩
  | put key val s' next ih => exact ⟨hx.1, ih hx.2⟩

theorem By.attempt {x : Program Key Val Session Miss Exn α} (hx : x.By s) : x.attempt.By s := by
  induction x with
  | ret a => trivial
  | raise e => trivial
  | get key s' next ih => exact ⟨hx.1, fun r => ih r (hx.2 r)⟩
  | put key val s' next ih => exact ⟨hx.1, ih hx.2⟩

theorem by_ofOption (e : Exn) (o : Option α) :
    (ofOption e o : Program Key Val Session Miss Exn α).By s := by
  cases o <;> trivial

variable [DecidableEq Key] [DecidableEq Session]

/-- **A settled session finds a map.** -/
theorem By.wp {x : Program Key Val Session Miss Exn α} (hx : x.By s) (miss : Key → Miss)
    {r : SessionRegister Key Val Session} (hr : r.Settled s) :
    x.wp miss r fun res r' => res = (x.onMap miss r.latest).1
      ∧ r'.latest = (x.onMap miss r.latest).2 ∧ r'.Settled s := by
  induction x generalizing r with
  | ret a => exact ⟨rfl, rfl, hr⟩
  | raise e => exact ⟨rfl, rfl, hr⟩
  | get key s' next ih =>
      obtain ⟨rfl, hnext⟩ := hx
      constructor
      · intro hno
        have hmissing : r.latest key = none := by
          unfold SessionRegister.latest
          rw [hno]
          rfl
        have hrest := ih (.error (miss key)) (hnext _) hr
        rw [onMap, hmissing]
        exact hrest
      · intro i v hread
        have hlast : r.latest key = some v := (hread.eq_last (hr key)).2
        have hrest := ih (.ok v) (hnext _) (hr.read hread)
        rw [SessionRegister.latest_read] at hrest
        rw [onMap, hlast]
        exact hrest
  | put key val s' next ih =>
      obtain ⟨rfl, hnext⟩ := hx
      have hrest := ih hnext (hr.write key val)
      rw [SessionRegister.latest_write] at hrest
      exact hrest

end By

end Program
