import Mathlib.Logic.Relation
import Mathlib.Order.Lattice

/-!
# Causal consistency

An execution is a set of transactions, each a read or a write of one key, with a session
order and a reads-from relation. It is causally consistent when the writes can be put in
one total order, extending causality, such that no read skips a causally earlier write of
its key in favour of a write ordered before it.

Executions recorded in the order they ran come with a candidate for that order, the
order of the record, and `CommitOrder.of_record` says what remains to be checked then.
-/

namespace Causal

/-- Reads and writes of keys, the session order, and who reads from whom. -/
structure Execution (T Key : Type*) where
  write : T → Key → Prop
  read : T → Key → Prop
  so : T → T → Prop
  wr : T → T → Prop

namespace Execution

variable {T Key : Type*} (E : Execution T Key)

/-- One step of causality. -/
def Base (a b : T) : Prop := E.so a b ∨ E.wr a b

/-- Causality: the transitive closure of session order and reads-from. -/
def hb : T → T → Prop := Relation.TransGen E.Base

/-- `co` explains every read: a write of the key read that is causally before the read is
the write read or ordered before it. -/
def Explains (co : T → T → Prop) : Prop :=
  ∀ r x w w', E.read r x → E.wr w r → E.write w' x → E.hb w' r → w' = w ∨ co w' w

/-- `co` totally orders the writes, extends causality, and explains every read. -/
structure CommitOrder (co : T → T → Prop) : Prop where
  irrefl : ∀ a, ¬ co a a
  trans : ∀ a b c, co a b → co b c → co a c
  total : ∀ a b x y, E.write a x → E.write b y → a ≠ b → co a b ∨ co b a
  causal : ∀ a b x y, E.write a x → E.write b y → E.hb a b → co a b
  reads : E.Explains co

/-- Some order of the writes explains the execution. -/
def CausallyConsistent : Prop := ∃ co, E.CommitOrder co

variable {E}

theorem hb_so {a b : T} (h : E.so a b) : E.hb a b := .single (.inl h)

theorem hb_wr {a b : T} (h : E.wr a b) : E.hb a b := .single (.inr h)

theorem hb_trans {a b c : T} (h : E.hb a b) (h' : E.hb b c) : E.hb a c := h.trans h'

/-- What is causally before `b` is so through some last step. -/
theorem hb_last {a b : T} (h : E.hb a b) : ∃ c, E.Base c b ∧ (a = c ∨ E.hb a c) := by
  cases h with
  | single h => exact ⟨a, h, Or.inl rfl⟩
  | tail h h' => exact ⟨_, h', Or.inr h⟩

/-- Causality follows the order of a record whose steps all do. -/
theorem hb_lt [Preorder T] (hbase : ∀ a b, E.Base a b → a < b) {a b : T} (h : E.hb a b) :
    a < b := by
  induction h with
  | single h => exact hbase _ _ h
  | tail _ h ih => exact lt_trans ih (hbase _ _ h)

/-- **The record's own order is a commit order** once no read skips a causally earlier
write recorded after the one it read. -/
theorem CommitOrder.of_record [LinearOrder T] (hbase : ∀ a b, E.Base a b → a < b)
    (hreads : E.Explains (· < ·)) : E.CommitOrder (· < ·) where
  irrefl := lt_irrefl
  trans := fun _ _ _ => lt_trans
  total := fun _ _ _ _ _ _ hne => lt_or_gt_of_ne hne
  causal := fun _ _ _ _ _ _ h => hb_lt hbase h
  reads := hreads

/-- **Two reads that disagree** on which of two writes came last rule out every order:
each saw both writes and read the other one. -/
theorem not_causallyConsistent {x : Key} {w w' r r' : T} (hne : w' ≠ w)
    (hw : E.write w x) (hw' : E.write w' x)
    (hr : E.read r x) (hwr : E.wr w r) (hpast : E.hb w' r)
    (hr' : E.read r' x) (hwr' : E.wr w' r') (hpast' : E.hb w r') : ¬ E.CausallyConsistent := by
  rintro ⟨co, hco⟩
  have h1 : co w' w := (hco.reads r x w w' hr hwr hw' hpast).resolve_left hne
  have h2 : co w w' := (hco.reads r' x w' w hr' hwr' hw hpast').resolve_left (Ne.symm hne)
  exact hco.irrefl _ (hco.trans _ _ _ h1 h2)

/-- **A read of an overwritten value** rules out every order as well: the write it skipped
was causally after the one it returned. -/
theorem not_causallyConsistent_of_overwritten (x : Key) (w w' r : T) (hw : E.write w x)
    (hw' : E.write w' x) (hr : E.read r x) (hwr : E.wr w r) (hover : E.hb w w')
    (hpast : E.hb w' r) : ¬ E.CausallyConsistent := by
  rintro ⟨co, hco⟩
  have h2 : co w w' := hco.causal w w' x x hw hw' hover
  rcases hco.reads r x w w' hr hwr hw' hpast with rfl | h1
  · exact hco.irrefl _ h2
  · exact hco.irrefl _ (hco.trans _ _ _ h1 h2)

end Execution

end Causal
