import Mathlib.Data.List.Basic

/-!
# Percent-encoding and segments

A percent-encoding writes a character as it is, or as its bytes in UTF-8, each of them a `%`
and two hexadecimal digits. Only ASCII other than `%` may stand as it is, so a text encodes
at most one string, and decoding finds it.

A path is cut into segments at a separator, and the empty ones are dropped. So it is one
segment just if it has nothing but separators around it.
-/

namespace PercentEncoding

/-- What may stand in an encoding as it is. -/
def Plain (c : Char) : Prop := c.toNat ≤ 127 ∧ c ≠ '%'

instance (c : Char) : Decidable (Plain c) := inferInstanceAs (Decidable (_ ∧ _))

def hexDigit (n : Nat) : Char := Char.ofNat (if n < 10 then 48 + n else 55 + n)

def escapeByte (b : UInt8) : List Char := ['%', hexDigit (b.toNat / 16), hexDigit (b.toNat % 16)]

def escape (c : Char) : List Char := (String.utf8EncodeChar c).flatMap escapeByte

/-- `text` is a percent-encoding of `s`. -/
inductive Encodes : (text s : List Char) → Prop
  | nil : Encodes [] []
  | plain {c : Char} {text s : List Char} (hc : Plain c) (h : Encodes text s) :
      Encodes (c :: text) (c :: s)
  | escaped (c : Char) {text s : List Char} (h : Encodes text s) :
      Encodes (escape c ++ text) (c :: s)

theorem Encodes.append {text text' s s' : List Char} (h : Encodes text s)
    (h' : Encodes text' s') : Encodes (text ++ text') (s ++ s') := by
  induction h with
  | nil => exact h'
  | plain hc _ ih => exact .plain hc ih
  | escaped c _ ih => rw [List.append_assoc]; exact .escaped c ih

/-- Plain text encodes itself. -/
theorem encodes_self {s : List Char} (h : ∀ c ∈ s, Plain c) : Encodes s s := by
  induction s with
  | nil => exact .nil
  | cons c s ih =>
      exact .plain (h c List.mem_cons_self) (ih fun d hd => h d (List.mem_cons_of_mem c hd))

/-- An encoder, given by what it leaves as it is. -/
structure Encoder where
  keeps : Char → Bool
  plain : ∀ c, keeps c = true → Plain c

def Encoder.encode (e : Encoder) (s : List Char) : List Char :=
  s.flatMap fun c => if e.keeps c then [c] else escape c

theorem Encoder.encodes (e : Encoder) (s : List Char) : Encodes (e.encode s) s := by
  induction s with
  | nil => exact .nil
  | cons c s ih =>
      unfold encode at ih ⊢
      rw [List.flatMap_cons]
      by_cases hc : e.keeps c = true
      · rw [if_pos hc]
        exact .plain (e.plain c hc) ih
      · rw [if_neg hc]
        exact .escaped c ih

/-! ## Decoding -/

def hexValue (c : Char) : Nat :=
  if c.toNat < 58 then c.toNat - 48 else if c.toNat < 71 then c.toNat - 55 else c.toNat - 87

/-- The bytes that a text stands for. -/
def decodeBytes : List Char → List UInt8
  | '%' :: hi :: lo :: rest => .ofNat (16 * hexValue hi + hexValue lo) :: decodeBytes rest
  | c :: rest => .ofNat c.toNat :: decodeBytes rest
  | [] => []

/-- The string that a text encodes. A text that encodes none is of no interest. -/
def decode (text : String) : String :=
  (String.fromUTF8? (decodeBytes text.toList).toByteArray).getD ""

theorem hexValue_hexDigit : ∀ n < 16, hexValue (hexDigit n) = n := by decide

theorem decodeBytes_escapeByte (b : UInt8) (rest : List Char) :
    decodeBytes (escapeByte b ++ rest) = b :: decodeBytes rest := by
  have hb : b.toNat < 256 := b.toNat_lt
  have hhi := hexValue_hexDigit (b.toNat / 16) (by omega)
  have hlo := hexValue_hexDigit (b.toNat % 16) (by omega)
  have hbyte : 16 * (b.toNat / 16) + b.toNat % 16 = b.toNat := by omega
  show UInt8.ofNat (16 * hexValue (hexDigit (b.toNat / 16)) + hexValue (hexDigit (b.toNat % 16)))
    :: decodeBytes rest = _
  rw [hhi, hlo, hbyte, UInt8.ofNat_toNat]

theorem decodeBytes_escape (c : Char) (rest : List Char) :
    decodeBytes (escape c ++ rest) = String.utf8EncodeChar c ++ decodeBytes rest := by
  unfold escape
  induction String.utf8EncodeChar c with
  | nil => rfl
  | cons b bytes ih =>
      rw [List.flatMap_cons, List.append_assoc, decodeBytes_escapeByte, ih, List.cons_append]

theorem decodeBytes_plain {c : Char} (hc : Plain c) (rest : List Char) :
    decodeBytes (c :: rest) = String.utf8EncodeChar c ++ decodeBytes rest := by
  have hbyte : String.utf8EncodeChar c = [.ofNat c.toNat] := if_pos hc.1
  rw [hbyte, decodeBytes]
  · rfl
  · intro hi lo rest' heq _
    exact hc.2 heq

/-- The bytes of a text are those of the string it encodes. -/
theorem decodeBytes_of_encodes {text s : List Char} (h : Encodes text s) :
    decodeBytes text = s.flatMap String.utf8EncodeChar := by
  induction h with
  | nil => rfl
  | plain hc _ ih => rw [decodeBytes_plain hc, ih, List.flatMap_cons]
  | escaped c _ ih => rw [decodeBytes_escape, ih, List.flatMap_cons]

/-- **Decoding undoes every percent-encoding.** -/
theorem decode_of_encodes {text s : String} (h : Encodes text.toList s.toList) :
    decode text = s := by
  have hbytes : (decodeBytes text.toList).toByteArray = s.toByteArray := by
    rw [decodeBytes_of_encodes h]
    exact String.toByteArray_ofList.symm.trans (congrArg String.toByteArray String.ofList_toList)
  have hvalid : (decodeBytes text.toList).toByteArray.IsValidUTF8 := hbytes ▸ s.isValidUTF8
  rw [decode, String.fromUTF8?, dif_pos hvalid, Option.getD_some]
  exact String.toByteArray_inj.mp hbytes

/-! ## Segments -/

section Segments

variable {α : Type*} [DecidableEq α] {sep : α} {l s : List α}

/-- The parts between separators, but for the empty ones. -/
def segments (sep : α) (l : List α) : List (List α) := (l.splitOn sep).filter fun s => s ≠ []

/-- `l` is `s` with separators around it. -/
def Padded (sep : α) (s l : List α) : Prop :=
  ∃ m n, l = List.replicate m sep ++ s ++ List.replicate n sep

theorem segments_sep_cons : segments sep (sep :: l) = segments sep l := by
  unfold segments
  rw [show sep :: l = [] ++ sep :: l from rfl, List.splitOn_append_cons_self]
  simp

/-- A part in front of a separator is a segment. -/
theorem segments_append (hsep : sep ∉ s) (hs : s ≠ []) :
    segments sep (s ++ sep :: l) = s :: segments sep l := by
  unfold segments
  rw [List.splitOn_append_cons_self_of_not_mem hsep, List.filter_cons_of_pos (by simpa using hs)]

theorem segments_self (hsep : sep ∉ s) (hs : s ≠ []) : segments sep s = [s] := by
  unfold segments
  rw [List.splitOn_eq_singleton hsep, List.filter_cons_of_pos (by simpa using hs), List.filter_nil]

theorem segments_replicate (n : Nat) : segments sep (List.replicate n sep) = [] := by
  induction n with
  | zero => rfl
  | succ n ih => rw [List.replicate_succ, segments_sep_cons, ih]

/-- A list that has a separator has one that comes first. -/
theorem segments_cases (sep : α) (l : List α) :
    (sep ∉ l ∧ segments sep l = if l = [] then [] else [l])
      ∨ ∃ s rest, l = s ++ sep :: rest ∧ sep ∉ s
        ∧ segments sep l = if s = [] then segments sep rest else s :: segments sep rest := by
  by_cases hmem : sep ∈ l
  · right
    obtain ⟨s, rest, rfl, hs⟩ := List.eq_append_cons_of_mem hmem
    refine ⟨s, rest, rfl, hs, ?_⟩
    split
    · next hnil => rw [hnil]; exact segments_sep_cons
    · next hne => exact segments_append hs hne
  · left
    refine ⟨hmem, ?_⟩
    split
    · next hnil => rw [hnil]; rfl
    · next hne => exact segments_self hmem hne

theorem eq_replicate_of_segments_nil (h : segments sep l = []) :
    ∃ n, l = List.replicate n sep := by
  induction hn : l.length using Nat.strongRecOn generalizing l with
  | ind n ih =>
      rcases segments_cases sep l with ⟨-, heq⟩ | ⟨s, rest, rfl, -, heq⟩
      · rw [h] at heq
        split at heq
        · next hnil => exact ⟨0, hnil⟩
        · cases heq
      · rw [h] at heq
        split at heq
        · next hnil =>
            subst hnil
            obtain ⟨m, hm⟩ := ih rest.length (by simp [← hn]) heq.symm rfl
            exact ⟨m + 1, by rw [hm]; rfl⟩
        · cases heq

/-- **One segment** is what has only separators around it. -/
theorem segments_eq_singleton_iff :
    segments sep l = [s] ↔ s ≠ [] ∧ sep ∉ s ∧ Padded sep s l := by
  constructor
  · intro h
    induction hn : l.length using Nat.strongRecOn generalizing l with
    | ind n ih =>
        rcases segments_cases sep l with ⟨hmem, heq⟩ | ⟨t, rest, rfl, ht, heq⟩
        · rw [h] at heq
          split at heq
          · cases heq
          · next hne =>
              obtain rfl := List.singleton_inj.mp heq
              exact ⟨hne, hmem, 0, 0, by simp⟩
        · rw [h] at heq
          split at heq
          · next hnil =>
              subst hnil
              obtain ⟨hs, hsep, m, k, hrest⟩ := ih rest.length (by simp [← hn]) heq.symm rfl
              exact ⟨hs, hsep, m + 1, k, by rw [hrest]; rfl⟩
          · next hne =>
              obtain ⟨rfl, hnil⟩ := List.cons_eq_cons.mp heq
              obtain ⟨k, rfl⟩ := eq_replicate_of_segments_nil hnil.symm
              exact ⟨hne, ht, 0, k + 1, rfl⟩
  · rintro ⟨hs, hsep, m, n, rfl⟩
    have hback : segments sep (s ++ List.replicate n sep) = [s] := by
      cases n with
      | zero => rw [List.replicate_zero, List.append_nil, segments_self hsep hs]
      | succ n => rw [List.replicate_succ, segments_append hsep hs, segments_replicate]
    rw [List.append_assoc]
    induction m with
    | zero => exact hback
    | succ m ih => rw [List.replicate_succ, List.cons_append, segments_sep_cons, ih]

end Segments

end PercentEncoding
