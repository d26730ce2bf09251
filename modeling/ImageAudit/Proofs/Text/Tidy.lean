import ImageAudit.Bytes.Hex
import Mathlib.Data.List.Basic

/-! Texts that keep a line of tab-separated fields in shape, because they hold none of the
characters that end a field or a line. Numbers are such texts however they are written. -/
namespace ImageAudit.Text

def separators : List Char := ['\t', '\r', '\n']

def Tidy (text : String) : Prop := ∀ c ∈ separators, c ∉ text.toList

-- Named, as the characters are finitely many and must not be looked through one by one.
instance : DecidablePred Tidy := fun text => List.decidableBAll (· ∉ text.toList) separators

variable {s t : String}

theorem tidy_iff : Tidy s ↔ '\t' ∉ s.toList ∧ '\r' ∉ s.toList ∧ '\n' ∉ s.toList := by
  simp [Tidy, separators]

@[simp] theorem tidy_append : Tidy (s ++ t) ↔ Tidy s ∧ Tidy t := by
  simp only [Tidy, String.toList_append, List.mem_append, not_or, forall_and]

theorem tidy_ofList {text : List Char} (h : ∀ c ∈ text, c ∉ separators) :
    Tidy (String.ofList text) := by
  intro c hc hmem
  rw [String.toList_ofList] at hmem
  exact h c hmem hc

/-- A literal is the text of its characters, and these can be looked at. -/
theorem tidy_literal {text : List Char} (h : text.all (!separators.contains ·) = true) :
    Tidy (String.ofList text) :=
  tidy_ofList fun c hc hseparator => by
    have := List.all_eq_true.mp h c hc
    simp [hseparator] at this

theorem tidy_join {texts : List String} (h : ∀ s ∈ texts, Tidy s) : Tidy (String.join texts) := by
  intro c hc hmem
  rw [String.toList_join, List.mem_flatMap] at hmem
  obtain ⟨s, hs, hcs⟩ := hmem
  exact h s hs c hc hcs

theorem tidy_intercalate (hs : Tidy s) {texts : List String} :
    Tidy (s.intercalate texts) ↔ ∀ t ∈ texts, Tidy t := by
  have hempty : Tidy "" := by decide
  induction texts with
  | nil => simpa using hempty
  | cons t rest ih =>
    cases rest with
    | nil => simp
    | cons u rest => simp [String.intercalate_cons_cons, ih, hs]

private theorem not_separator_of_isDigit {c : Char} (h : c.isDigit = true) : c ∉ separators := by
  intro hc
  simp only [separators, List.mem_cons, List.not_mem_nil, or_false] at hc
  obtain rfl | rfl | rfl := hc <;> cases h

@[simp] theorem tidy_repr (n : Nat) : Tidy n.repr := by
  intro c hc hmem
  rw [Nat.toList_repr] at hmem
  exact not_separator_of_isDigit (Nat.isDigit_of_mem_toDigits (by decide) (by decide) hmem) hc

theorem tidy_nat (n : Nat) : Tidy (toString n) := tidy_repr n

@[simp] theorem tidy_repr_int (n : Int) : Tidy n.repr := by
  rw [Int.repr_eq_if]
  split
  · exact tidy_repr _
  · exact tidy_append.mpr ⟨by decide, tidy_repr _⟩

private theorem digit_not_separator (n : Nat) (h : n < 16) : Hex.digit n ∉ separators := by
  decide +revert

theorem tidy_hex (width n : Nat) : Tidy (Hex.text width n) := by
  refine tidy_ofList ?_
  induction width generalizing n with
  | zero => intro c hc; cases hc
  | succ width ih =>
    intro c hc
    rw [Hex.pad, List.mem_append, List.mem_singleton] at hc
    obtain hbefore | rfl := hc
    · exact ih (n / 16) c hbefore
    · exact digit_not_separator _ (Nat.mod_lt _ (by decide))

end ImageAudit.Text
