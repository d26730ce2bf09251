import ImageAudit.Diagnostics.Finding
import ImageAudit.Proofs.Checked.Operation

/-! Texts of events with operations that can go wrong. Braces are searched for, and the text before
and behind them is cut out; every turn of the search moves on to behind an opening brace. -/
namespace ImageAudit

open Checked

namespace Template

def checkedTake (text : List Char) (stop : Nat) : Checked (List Char) :=
  if stop ≤ text.length then pure (text.take stop) else throw .outOfRange

def checkedDrop (text : List Char) (start : Nat) : Checked (List Char) :=
  if start ≤ text.length then pure (text.drop start) else throw .outOfRange

def checkedPlaceholder (args : List String) (text : List Char) :
    Checked (Option (String × List Char)) :=
  match text.findIdx? (· == '\x7d') with
  | none => pure none
  | some close => do
    let index ← checkedTake text close
    match (Word.ofText? index).bind (args[·]?) with
    | none => pure none
    | some arg => do
      let start ← add maxWord close 1
      let rest ← checkedDrop text start
      pure (some (arg, rest))

/-- Replaces placeholders from left to right, one opening brace a turn. -/
def checkedRenderChars (args : List String) : (turns : Nat) → List Char → Checked (List Char)
  | 0, _ => throw .endless
  | turns + 1, text =>
    match text.findIdx? (· == '\x7b') with
    | none => pure text
    | some place => do
      let before ← checkedTake text place
      let start ← add maxWord place 1
      let after ← checkedDrop text start
      match ← checkedPlaceholder args after with
      | some (arg, rest) => do
        let out ← checkedRenderChars args turns rest
        pure (before ++ (arg.toList ++ out))
      | none => do
        let out ← checkedRenderChars args turns after
        pure (before ++ '\x7b' :: out)

def checkedRender (template : String) (args : List String) : Checked String := do
  let out ← checkedRenderChars args (template.length + 1) template.toList
  pure (String.ofList out)

variable {args : List String} {text : List Char} {mark : Char}

theorem checkedTake_eq {stop : Nat} (h : stop ≤ text.length) :
    checkedTake text stop = pure (text.take stop) := if_pos h

theorem checkedDrop_eq {start : Nat} (h : start ≤ text.length) :
    checkedDrop text start = pure (text.drop start) := if_pos h

private theorem not_mem_of_findIdx? (h : text.findIdx? (· == mark) = none) : mark ∉ text := by
  intro hmem
  simpa using List.findIdx?_eq_none_iff.mp h mark hmem

/-- A mark that was found splits the text at its first occurrence. -/
private theorem split_of_findIdx? {place : Nat} (h : text.findIdx? (· == mark) = some place) :
    place < text.length ∧ mark ∉ text.take place ∧
      text = text.take place ++ mark :: text.drop (place + 1) := by
  obtain ⟨hlt, hmark, hbefore⟩ := List.findIdx?_eq_some_iff_getElem.mp h
  refine ⟨hlt, fun hmem => ?_, ?_⟩
  · obtain ⟨i, hi, hget⟩ := List.mem_take_iff_getElem.mp hmem
    exact hbefore i (by omega) (by simpa using hget)
  · rw [← eq_of_beq hmark, List.getElem_cons_drop, List.take_append_drop]

theorem placeholder?_append (args : List String) {index : List Char} (h : '\x7d' ∉ index)
    (rest : List Char) :
    placeholder? args (index ++ '\x7d' :: rest) =
      ((Word.ofText? index).bind (args[·]?)).map (·, rest) := by
  have hall : ∀ c ∈ index, (c != '\x7d') = true := fun c hmem =>
    bne_iff_ne.mpr fun heq => h (heq ▸ hmem)
  have hindex : (index ++ '\x7d' :: rest).takeWhile (· != '\x7d') = index := by
    rw [List.takeWhile_append_of_pos hall]
    exact List.append_nil _
  have hrest : (index ++ '\x7d' :: rest).dropWhile (· != '\x7d') = '\x7d' :: rest := by
    rw [List.dropWhile_append_of_pos hall]
    rfl
  rw [placeholder?, hrest, hindex]
  dsimp only
  cases hnumber : Word.ofText? index with
  | none => rfl
  | some i => cases harg : args[i]? <;> simp [harg]

theorem placeholder?_none (h : '\x7d' ∉ text) : placeholder? args text = none := by
  have hall : ∀ c ∈ text, (c != '\x7d') = true := fun c hmem =>
    bne_iff_ne.mpr fun heq => h (heq ▸ hmem)
  have hrest : text.dropWhile (· != '\x7d') = [] := by
    rw [← List.append_nil text, List.dropWhile_append_of_pos hall]
    rfl
  rw [placeholder?, hrest]

theorem checkedPlaceholder_eq (hlength : text.length ≤ maxWord) :
    checkedPlaceholder args text = pure (placeholder? args text) := by
  rw [checkedPlaceholder]
  cases hfound : text.findIdx? (· == '\x7d') with
  | none => rw [placeholder?_none (not_mem_of_findIdx? hfound)]
  | some close =>
    obtain ⟨hlt, hnot, hsplit⟩ := split_of_findIdx? hfound
    have hsame := placeholder?_append args hnot (text.drop (close + 1))
    rw [← hsplit] at hsame
    dsimp only
    rw [checkedTake_eq (Nat.le_of_lt hlt), pure_bind, hsame]
    cases (Word.ofText? (text.take close)).bind (args[·]?) with
    | none => rfl
    | some arg =>
      dsimp only
      rw [add_eq (by omega), pure_bind, checkedDrop_eq hlt, pure_bind]
      rfl

/-- Text without an opening brace is kept. -/
theorem renderChars_append (args : List String) {before : List Char} (h : '\x7b' ∉ before)
    (text : List Char) :
    renderChars args (before ++ text) = before ++ renderChars args text := by
  induction before with
  | nil => rfl
  | cons c before ih =>
    rw [List.mem_cons, not_or] at h
    rw [List.cons_append, renderChars, if_neg (Ne.symm h.1), ih h.2, List.cons_append]

theorem renderChars_placeholder {arg : String} {rest : List Char}
    (h : placeholder? args text = some (arg, rest)) :
    renderChars args ('\x7b' :: text) = arg.toList ++ renderChars args rest := by
  rw [renderChars, if_pos rfl]
  split
  · next hsome =>
    obtain ⟨rfl, rfl⟩ := Prod.mk.inj (Option.some.inj (hsome.symm.trans h))
    rfl
  · next hnone => cases hnone.symm.trans h

theorem renderChars_brace (h : placeholder? args text = none) :
    renderChars args ('\x7b' :: text) = '\x7b' :: renderChars args text := by
  rw [renderChars, if_pos rfl]
  split
  · next hsome => cases hsome.symm.trans h
  · rfl

theorem checkedRenderChars_eq (hlength : text.length ≤ maxWord) {turns : Nat}
    (hturns : text.length < turns) :
    checkedRenderChars args turns text = pure (renderChars args text) := by
  induction turns generalizing text with
  | zero => omega
  | succ turns ih =>
    rw [checkedRenderChars]
    cases hfound : text.findIdx? (· == '\x7b') with
    | none =>
      have hkept := renderChars_append args (not_mem_of_findIdx? hfound) []
      rw [List.append_nil, renderChars, List.append_nil] at hkept
      rw [hkept]
    | some place =>
      obtain ⟨hlt, hnot, hsplit⟩ := split_of_findIdx? hfound
      have hsame := renderChars_append args hnot ('\x7b' :: text.drop (place + 1))
      have hstart : place + 1 ≤ text.length := hlt
      have hafter : (text.drop (place + 1)).length = text.length - (place + 1) := List.length_drop
      rw [← hsplit] at hsame
      dsimp only
      rw [checkedTake_eq (Nat.le_of_lt hlt), pure_bind, add_eq (by omega), pure_bind,
        checkedDrop_eq hstart, pure_bind, checkedPlaceholder_eq (by omega), pure_bind, hsame]
      cases hplace : placeholder? args (text.drop (place + 1)) with
      | none =>
        rw [renderChars_brace hplace]
        dsimp only
        rw [ih (by omega) (by omega), pure_bind]
      | some found =>
        obtain ⟨arg, rest⟩ := found
        have hless := length_of_placeholder? hplace
        rw [renderChars_placeholder hplace]
        dsimp only
        rw [ih (by omega) (by omega), pure_bind]

theorem checkedRender_eq {template : String} (h : template.length ≤ maxWord)
    (args : List String) : checkedRender template args = pure (render template args) := by
  have hlength : template.toList.length ≤ maxWord := h
  have hturns : template.toList.length < template.length + 1 := Nat.lt_succ_self _
  rw [checkedRender, checkedRenderChars_eq hlength hturns, pure_bind, render]

end Template

namespace Catalog

def checkedText (catalog : Catalog) (key : String) (args : List String) : Checked String :=
  match catalog.template? key with
  | some template => Template.checkedRender template args
  | none => pure (args.foldl (fun out arg => out ++ " " ++ arg) key)

private theorem length_ofList_le {text : List Char} {n : Nat} (h : text.length ≤ n) :
    (String.ofList text).length ≤ n := by
  rwa [String.length_ofList]

-- Deciding on a literal itself would decode its bytes; its characters are counted at once.
theorem length_english : ∀ entry ∈ english.entries, entry.2.length ≤ maxWord := by
  dsimp only [english]
  repeat refine List.forall_mem_cons.mpr ⟨length_ofList_le (of_decide_eq_true rfl), ?_⟩
  exact List.forall_mem_nil _

theorem checkedText_eq (key : String) (args : List String) :
    english.checkedText key args = pure (english.text key args) := by
  rw [checkedText, text]
  cases hfound : english.template? key with
  | none => rfl
  | some template =>
    obtain ⟨before, after, hentries, _⟩ := List.lookup_eq_some_iff.mp hfound
    have hmem : (key, template) ∈ english.entries := by
      rw [hentries]
      exact List.mem_append_right _ List.mem_cons_self
    exact Template.checkedRender_eq (length_english _ hmem) args

end Catalog

namespace Finding

def checkedEvent (f : Finding) : Checked Event := do
  let message ← Catalog.english.checkedText f.key f.args
  pure ⟨f.severity, f.key, message⟩

theorem checkedEvent_eq (f : Finding) : f.checkedEvent = pure f.event := by
  rw [checkedEvent, Catalog.checkedText_eq, pure_bind, event]

end Finding
end ImageAudit
