import ImageAudit.Proofs.Checked.Message
import Mathlib.Data.List.Basic

/-! Rendering as a substitution. A template is made up of placeholders that name an argument and of
characters that belong to none. The rendered text is made up of the arguments in place of the former
and of the latter as they are. -/
namespace ImageAudit

namespace Word

inductive Numeral : List Char → Nat → Prop
  | plain {digits : List Char} (hne : digits ≠ []) (hdigits : ∀ c ∈ digits, c.isDigit = true) :
    Numeral digits (Nat.ofDigitChars 10 digits 0)
  | signed {digits : List Char} (hne : digits ≠ []) (hdigits : ∀ c ∈ digits, c.isDigit = true) :
    Numeral ('+' :: digits) (Nat.ofDigitChars 10 digits 0)

variable {text : List Char} {n m : Nat} {c : Char}

theorem ofDigits_eq (digits : List Char) : ofDigits digits = Nat.ofDigitChars 10 digits 0 := by
  simp only [ofDigits, Nat.ofDigitChars, Nat.mul_comm]

theorem ofText?_eq_some_iff : ofText? text = some n ↔ Numeral text n ∧ n ≤ maxWord := by
  simp only [ofText?, ofDigits_eq, Option.ite_none_right_eq_some, Bool.and_eq_true,
    Bool.not_eq_true', List.isEmpty_eq_false_iff, List.all_eq_true, decide_eq_true_eq,
    Option.some.injEq]
  split
  · next digits =>
    constructor
    · rintro ⟨⟨⟨hne, hdigits⟩, hle⟩, rfl⟩
      exact ⟨.signed hne hdigits, hle⟩
    · rintro ⟨hnumeral, hle⟩
      cases hnumeral with
      | plain _ hdigits => cases hdigits '+' List.mem_cons_self
      | signed hne hdigits => exact ⟨⟨⟨hne, hdigits⟩, hle⟩, rfl⟩
  · next hunsigned =>
    constructor
    · rintro ⟨⟨⟨hne, hdigits⟩, hle⟩, rfl⟩
      exact ⟨.plain hne hdigits, hle⟩
    · rintro ⟨hnumeral, hle⟩
      cases hnumeral with
      | plain hne hdigits => exact ⟨⟨⟨hne, hdigits⟩, hle⟩, rfl⟩
      | signed => exact absurd rfl (hunsigned _)

theorem Numeral.value_eq (h : Numeral text n) (hm : Numeral text m) : n = m := by
  cases h with
  | plain hne hdigits =>
    cases hm with
    | plain => rfl
    | signed => cases hdigits '+' List.mem_cons_self
  | signed hne hdigits =>
    cases hm with
    | plain _ hdigits => cases hdigits '+' List.mem_cons_self
    | signed => rfl

theorem Numeral.mem (h : Numeral text n) (hc : c ∈ text) : c = '+' ∨ c.isDigit = true := by
  cases h with
  | plain _ hdigits => exact .inr (hdigits c hc)
  | signed _ hdigits => exact (List.mem_cons.mp hc).imp_right (hdigits c)

/-- There are no braces in a number. -/
theorem Numeral.not_brace (h : Numeral text n) : '\x7b' ∉ text ∧ '\x7d' ∉ text := by
  constructor <;> exact fun hc => absurd (h.mem hc) (by decide)

end Word

namespace Template

variable {args : List String} {arg : String} {field text rest : List Char} {c : Char}

/-- A placeholder as it is written, and the argument that its number names. -/
inductive Placeholder (args : List String) : List Char → String → Prop
  | field {index : List Char} {n : Nat} {arg : String} (hindex : Word.Numeral index n)
    (harg : args[n]? = some arg) : Placeholder args ('\x7b' :: (index ++ ['\x7d'])) arg

inductive Part where
  | kept (c : Char)
  | filled (field : List Char) (arg : String)

namespace Part

def written : Part → List Char
  | kept c => [c]
  | filled field _ => field

def shown : Part → List Char
  | kept c => [c]
  | filled _ arg => arg.toList

end Part

/-- The text is divided into parts, and the parts that are filled are all the placeholders that
stand anywhere in it. -/
structure Divides (args : List String) (parts : List Part) (text : List Char) : Prop where
  written : parts.flatMap Part.written = text
  placeholder : ∀ field arg, .filled field arg ∈ parts → Placeholder args field arg
  filled : ∀ before field after arg, Placeholder args field arg →
    before ++ (field ++ after) = text →
      ∃ front back, parts = front ++ .filled field arg :: back ∧
        front.flatMap Part.written = before

/-- A mark ends the text in front of its first occurrence. -/
private theorem eq_of_append_mark {mark : Char} {before front after rest : List Char}
    (hbefore : mark ∉ before) (hfront : mark ∉ front)
    (h : before ++ mark :: after = front ++ mark :: rest) : before = front := by
  rcases List.append_eq_append_iff.mp h with ⟨between, rfl, heq⟩ | ⟨between, rfl, heq⟩
  · cases between with
    | nil => exact (List.append_nil _).symm
    | cons b between =>
      obtain rfl := (List.cons.inj heq).1
      exact absurd (List.mem_append_right _ List.mem_cons_self) hfront
  · cases between with
    | nil => exact List.append_nil _
    | cons b between =>
      obtain rfl := (List.cons.inj heq).1
      exact absurd (List.mem_append_right _ List.mem_cons_self) hbefore

namespace Placeholder

theorem exists_cons (h : Placeholder args field arg) : ∃ tail, field = '\x7b' :: tail := by
  obtain ⟨_, _⟩ := h
  exact ⟨_, rfl⟩

/-- Only its first character is an opening brace, so that no placeholder begins inside another. -/
theorem brace_notMem_tail (h : Placeholder args field arg) : '\x7b' ∉ field.tail := by
  obtain ⟨hindex, -⟩ := h
  rw [List.tail_cons, List.mem_append, not_or]
  exact ⟨hindex.not_brace.1, by decide⟩

/-- At one place there is at most one placeholder. -/
theorem unique {other : List Char} {arg' : String} (h : Placeholder args field arg)
    (hother : Placeholder args other arg') {after : List Char}
    (heq : field ++ text = other ++ after) : field = other ∧ arg = arg' := by
  obtain ⟨hindex, harg⟩ := h
  obtain ⟨hindex', harg'⟩ := hother
  simp only [List.cons_append, List.append_assoc, List.nil_append, List.cons.injEq, true_and]
    at heq
  obtain rfl := eq_of_append_mark hindex.not_brace.2 hindex'.not_brace.2 heq
  obtain rfl := hindex.value_eq hindex'
  exact ⟨rfl, Option.some.inj (harg.symm.trans harg')⟩

end Placeholder

/-- A placeholder is found by its braces. -/
theorem placeholder?_eq_some_iff (hargs : args.length ≤ maxWord) :
    placeholder? args text = some (arg, rest) ↔
      ∃ field, Placeholder args field arg ∧ '\x7b' :: text = field ++ rest := by
  constructor
  · intro h
    -- what stands in front of the first closing brace is the number, so the brace comes first
    have hbrace : '\x7d' ∈ text := by
      by_contra hno
      exact absurd (h.symm.trans (placeholder?_none hno)) (by simp)
    obtain ⟨index, after, rfl, hno⟩ := List.eq_append_cons_of_mem hbrace
    rw [placeholder?_append args hno, Option.map_eq_some_iff] at h
    obtain ⟨found, hfound, heq⟩ := h
    obtain ⟨rfl, rfl⟩ := Prod.mk.inj heq
    obtain ⟨n, hn, harg⟩ := Option.bind_eq_some_iff.mp hfound
    exact ⟨_, .field (Word.ofText?_eq_some_iff.mp hn).1 harg, by simp⟩
  · rintro ⟨field, ⟨hindex, harg⟩, heq⟩
    obtain ⟨hn, -⟩ := List.getElem?_eq_some_iff.mp harg
    have hnumber := Word.ofText?_eq_some_iff.mpr ⟨hindex, Nat.le_trans (Nat.le_of_lt hn) hargs⟩
    rw [List.cons_append, List.append_assoc, List.cons.injEq] at heq
    rw [heq.2, List.singleton_append, placeholder?_append args hindex.not_brace.2, hnumber,
      Option.bind_some, harg]
    rfl

theorem renderChars_filled (hargs : args.length ≤ maxWord) (h : Placeholder args field arg)
    (rest : List Char) :
    renderChars args (field ++ rest) = arg.toList ++ renderChars args rest := by
  obtain ⟨tail, rfl⟩ := h.exists_cons
  exact renderChars_placeholder ((placeholder?_eq_some_iff hargs).mpr ⟨_, h, rfl⟩)

/-- A character at which no placeholder begins is kept. -/
theorem renderChars_kept (hargs : args.length ≤ maxWord)
    (h : ∀ field arg, Placeholder args field arg → ¬ field <+: c :: text) :
    renderChars args (c :: text) = c :: renderChars args text := by
  by_cases hc : c = '\x7b'
  · subst hc
    refine renderChars_brace (Option.eq_none_iff_forall_ne_some.mpr fun found hfound => ?_)
    obtain ⟨field, hfield, heq⟩ := (placeholder?_eq_some_iff hargs).mp hfound
    exact h field found.1 hfield ⟨found.2, heq.symm⟩
  · rw [renderChars, if_neg hc]

namespace Divides

variable {parts : List Part}

protected theorem nil : Divides args [] [] where
  written := rfl
  placeholder := by simp
  filled before field after arg h heq := by
    obtain ⟨tail, rfl⟩ := h.exists_cons
    simp at heq

theorem kept_cons (h : Divides args parts text)
    (hno : ∀ field arg, Placeholder args field arg → ¬ field <+: c :: text) :
    Divides args (.kept c :: parts) (c :: text) where
  written := by rw [List.flatMap_cons, h.written]; rfl
  placeholder field arg hmem := by
    rw [List.mem_cons, or_iff_right (by simp)] at hmem
    exact h.placeholder field arg hmem
  filled before field after arg hfield heq := by
    cases before with
    | nil => exact absurd ⟨after, heq⟩ (hno field arg hfield)
    | cons b before =>
      obtain ⟨rfl, hrest⟩ := List.cons.inj heq
      obtain ⟨front, back, rfl, rfl⟩ := h.filled before field after arg hfield hrest
      exact ⟨.kept b :: front, back, rfl, rfl⟩

theorem filled_cons (h : Divides args parts text) (hfield : Placeholder args field arg) :
    Divides args (.filled field arg :: parts) (field ++ text) where
  written := by rw [List.flatMap_cons, h.written]; rfl
  placeholder field' arg' hmem := by
    obtain heq | hmem := List.mem_cons.mp hmem
    · obtain ⟨rfl, rfl⟩ := Part.filled.inj heq
      exact hfield
    · exact h.placeholder field' arg' hmem
  filled before field' after arg' hfield' heq := by
    have hstart : field <+: before ++ (field' ++ after) := ⟨text, heq.symm⟩
    have hbefore : before <+: before ++ (field' ++ after) := List.prefix_append _ _
    rcases Nat.lt_or_ge before.length field.length with hlt | hle
    · -- only at the start of a placeholder another one can begin, and that is the same one
      obtain ⟨inside, rfl⟩ := List.prefix_of_prefix_length_le hbefore hstart (Nat.le_of_lt hlt)
      rw [List.append_assoc, List.append_cancel_left_eq] at heq
      obtain ⟨tail', rfl⟩ := hfield'.exists_cons
      obtain ⟨tail, rfl⟩ : ∃ tail, inside = '\x7b' :: tail := by
        cases inside with
        | nil => simp at hlt
        | cons b tail => exact ⟨tail, by rw [(List.cons.inj heq).1]⟩
      cases before with
      | nil =>
        obtain ⟨hsame, rfl⟩ := hfield.unique hfield' heq.symm
        obtain rfl := List.tail_eq_of_cons_eq hsame
        exact ⟨[], parts, rfl, rfl⟩
      | cons b before =>
        exact absurd (List.mem_append_right _ List.mem_cons_self) hfield.brace_notMem_tail
    · obtain ⟨behind, rfl⟩ := List.prefix_of_prefix_length_le hstart hbefore hle
      rw [List.append_assoc, List.append_cancel_left_eq] at heq
      obtain ⟨front, back, rfl, rfl⟩ := h.filled behind field' after arg' hfield' heq
      exact ⟨.filled field arg :: front, back, rfl, rfl⟩

theorem written_ne_nil {part : Part} (h : Divides args (part :: parts) text) :
    part.written ≠ [] := by
  cases part with
  | kept c => exact List.cons_ne_nil c []
  | filled field arg =>
    obtain ⟨tail, rfl⟩ := (h.placeholder field arg List.mem_cons_self).exists_cons
    exact List.cons_ne_nil _ tail

/-- What is left behind the first part is divided as it was. -/
theorem of_cons {part : Part} (h : Divides args (part :: parts) text) :
    ∃ rest, text = part.written ++ rest ∧ Divides args parts rest := by
  have hwritten : part.written ++ parts.flatMap Part.written = text := h.written
  refine ⟨_, hwritten.symm, rfl, fun field arg hmem => ?_,
    fun before field after arg hfield heq => ?_⟩
  · exact h.placeholder field arg (List.mem_cons_of_mem _ hmem)
  · have hwhole : part.written ++ before ++ (field ++ after) = text := by
      rw [List.append_assoc, heq, hwritten]
    obtain ⟨front, back, hparts, hbefore⟩ := h.filled _ field after arg hfield hwhole
    cases front with
    | nil => exact absurd (List.append_eq_nil_iff.mp hbefore.symm).1 h.written_ne_nil
    | cons first front =>
      obtain ⟨rfl, rfl⟩ := List.cons.inj hparts
      exact ⟨front, back, rfl, List.append_cancel_left hbefore⟩

/-- No placeholder begins with a character that is kept. -/
theorem not_prefix_of_kept (h : Divides args (.kept c :: parts) text)
    (hfield : Placeholder args field arg) : ¬ field <+: text := by
  rintro ⟨after, heq⟩
  obtain ⟨front, back, hparts, hbefore⟩ := h.filled [] field after arg hfield heq
  cases front with
  | nil => cases (List.cons.inj hparts).1
  | cons first front =>
    obtain ⟨rfl, -⟩ := List.cons.inj hparts
    cases hbefore

end Divides

/-- Every text is divided in some way. -/
theorem exists_divides (args : List String) (text : List Char) :
    ∃ parts, Divides args parts text := by
  -- a placeholder takes several characters at once, so the induction is on the length
  induction hlength : text.length using Nat.strongRecOn generalizing text with
  | ind length ih =>
    cases text with
    | nil => exact ⟨[], .nil⟩
    | cons c text =>
      rw [List.length_cons] at hlength
      by_cases hstart : ∃ field arg, Placeholder args field arg ∧ field <+: c :: text
      · obtain ⟨field, arg, hfield, rest, heq⟩ := hstart
        have hless : rest.length < length := by
          obtain ⟨tail, rfl⟩ := hfield.exists_cons
          have := congrArg List.length heq
          rw [List.length_append, List.length_cons, List.length_cons] at this
          omega
        obtain ⟨parts, hparts⟩ := ih _ hless rest rfl
        exact ⟨_, heq ▸ hparts.filled_cons hfield⟩
      · obtain ⟨parts, hparts⟩ := ih _ (by omega) text rfl
        exact ⟨_, hparts.kept_cons fun field arg hfield hle => hstart ⟨field, arg, hfield, hle⟩⟩

/-- However it is divided, the parts are shown one after another. -/
theorem renderChars_of_divides (hargs : args.length ≤ maxWord) {parts : List Part}
    (h : Divides args parts text) : renderChars args text = parts.flatMap Part.shown := by
  induction parts generalizing text with
  | nil =>
    rw [← h.written]
    exact renderChars.eq_1 args
  | cons part parts ih =>
    obtain ⟨rest, rfl, hrest⟩ := h.of_cons
    rw [List.flatMap_cons, ← ih hrest]
    cases part with
    | kept c => exact renderChars_kept hargs fun _ _ hfield => h.not_prefix_of_kept hfield
    | filled field arg =>
      exact renderChars_filled hargs (h.placeholder field arg List.mem_cons_self) rest

/-- Rendering puts the arguments in place of the placeholders and changes nothing else. The loop
that looks for them comes to its end. -/
theorem render_substitutes (hargs : args.length ≤ maxWord) (template : String) :
    (∃ parts, Divides args parts template.toList) ∧
      (∀ parts, Divides args parts template.toList →
        render template args = String.ofList (parts.flatMap Part.shown)) ∧
      (template.length ≤ maxWord →
        checkedRender template args = pure (render template args)) := by
  refine ⟨exists_divides args _, fun parts hparts => ?_, fun hlength => ?_⟩
  · rw [render, renderChars_of_divides hargs hparts]
  · exact checkedRender_eq hlength args

def strayBrace : String := "\x7bx{+01}{2}{0}"

theorem render_substitutes_strayBrace :
    ["{1}", "b"].length ≤ maxWord ∧ strayBrace.length ≤ maxWord ∧
      (∃ parts, Divides ["{1}", "b"] parts strayBrace.toList ∧
        render strayBrace ["{1}", "b"] = String.ofList (parts.flatMap Part.shown)) ∧
      render strayBrace ["{1}", "b"] = "\x7bxb{2}{1}" := by
  have hargs : ["{1}", "b"].length ≤ maxWord := by decide
  have hlength : strayBrace.length ≤ maxWord := by decide
  have htext : checkedRender strayBrace ["{1}", "b"] = pure "\x7bxb{2}{1}" := by decide
  obtain ⟨⟨parts, hparts⟩, hshown, hloop⟩ := render_substitutes hargs strayBrace
  refine ⟨hargs, hlength, ⟨parts, hparts, hshown parts hparts⟩, ?_⟩
  exact Except.ok.inj ((hloop hlength).symm.trans htext)

end Template
end ImageAudit
