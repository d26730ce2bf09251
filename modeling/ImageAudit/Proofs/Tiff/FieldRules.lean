import ImageAudit.Tiff.FieldRules

/-! What the rules for a field find nothing in. Each list of findings is silent exactly when the
field is as the rule asks. -/
namespace ImageAudit.Tiff

def Silent (found : List Finding) : Prop := ∀ g ∈ found, g.severity = .info

namespace Silent

@[simp] theorem nil : Silent [] := List.forall_mem_nil _

@[simp] theorem append {first second : List Finding} :
    Silent (first ++ second) ↔ Silent first ∧ Silent second := List.forall_mem_append

@[simp] theorem singleton {g : Finding} : Silent [g] ↔ g.severity = .info := by
  simp [Silent]

theorem flatMap {α : Type} {l : List α} {f : α → List Finding} :
    Silent (l.flatMap f) ↔ ∀ a ∈ l, Silent (f a) := by
  simp only [Silent, List.mem_flatMap]
  constructor
  · exact fun h a ha g hg => h g ⟨a, ha, hg⟩
  · intro h g hg
    obtain ⟨a, ha, hg⟩ := hg
    exact h a ha g hg

@[simp] theorem ite {p : Prop} [Decidable p] {found : List Finding} :
    Silent (if p then found else []) ↔ (p → Silent found) := by
  by_cases h : p
  · rw [if_pos h]
    exact ⟨fun hs _ => hs, fun hs => hs h⟩
  · rw [if_neg h]
    exact ⟨fun _ hp => absurd hp h, fun _ => nil⟩

@[simp] theorem ite_nil {p : Prop} [Decidable p] {found : List Finding} :
    Silent (if p then [] else found) ↔ (¬p → Silent found) := by
  rw [← ite_not, ite]

end Silent

def Adverse (found : List Finding) : Prop := ∀ g ∈ found, g.severity = .error

namespace Adverse

@[simp] theorem nil : Adverse [] := List.forall_mem_nil _

@[simp] theorem append {first second : List Finding} :
    Adverse (first ++ second) ↔ Adverse first ∧ Adverse second := List.forall_mem_append

@[simp] theorem singleton {g : Finding} : Adverse [g] ↔ g.severity = .error := by
  simp [Adverse]

theorem ite {p : Prop} [Decidable p] {found : List Finding} (h : Adverse found) :
    Adverse (if p then found else []) := by
  split
  · exact h
  · exact nil

/-- Findings that can only speak against the file are silent where there are none. -/
theorem silent_iff {found : List Finding} (h : Adverse found) : Silent found ↔ found = [] := by
  constructor
  · intro hsilent
    refine List.eq_nil_iff_forall_not_mem.mpr fun g hg => ?_
    cases (h g hg).symm.trans (hsilent g hg)
  · rintro rfl
    exact .nil

end Adverse

def Rule.Bounds (r : Rule) (v : Int) : Prop :=
  (∀ least, r.minValue = some least → least ≤ v) ∧ ∀ most, r.maxValue = some most → v ≤ most

/-- The field is of an allowed type and has as many values as the rule asks for, and all integers
among them are within its bounds. -/
structure Rule.Admits (r : Rule) (f : Field) (t : FieldType) : Prop where
  type : r.allows t = true
  count : r.minCount ≤ f.count ∧ f.count ≤ r.maxCount
  values {v : Int} : .integer v ∈ f.values → r.Bounds v

/-- Stored text is ASCII up to a zero at its end, and a moment is spelled in full where the tag asks
for one. -/
structure Field.IsText (f : Field) : Prop where
  ascii : f.raw.data.toList ≠ [] → ∃ body, f.raw.data.toList = body ++ [0] ∧ ∀ b ∈ body, b < 128
  moment : f.raw.isEmpty = false → f.tag ∈ Tag.moments →
    (Calendar.Moment.parse f.text).isSome = true

namespace FieldRules

theorem silent_valueFindings {r : Rule} {v : Value} :
    Silent (valueFindings r v) ↔ ∀ n, v = .integer n → r.Bounds n := by
  cases v with
  | real | char => simp [valueFindings]
  | integer n =>
    rw [valueFindings, Silent.append]
    simp only [Value.integer.injEq, forall_eq', Rule.Bounds]
    refine and_congr ?_ ?_
    · cases r.minValue with
      | none => simp
      | some least => simp [Finding.severity]
    · cases r.maxValue with
      | none => simp
      | some most => simp [Finding.severity]

theorem silent_countFindings {r : Rule} {count : Nat} :
    Silent (countFindings r count) ↔ r.minCount ≤ count ∧ count ≤ r.maxCount := by
  simp [countFindings, Finding.severity]

theorem silent_characterFindings {f : Field} :
    Silent (characterFindings f) ↔
      (f.raw.data.toList ≠ [] →
        ∃ body, f.raw.data.toList = body ++ [0] ∧ ∀ b ∈ body, b < 128) := by
  rw [characterFindings]
  dsimp only
  cases h : f.raw.data.toList.getLast? with
  | none => simp [List.getLast?_eq_none_iff.mp h]
  | some last =>
    obtain ⟨body, hbytes⟩ := List.getLast?_eq_some_iff.mp h
    rw [hbytes, List.dropLast_concat]
    simp only [Silent.append, Silent.ite, Silent.singleton]
    constructor
    · rintro ⟨hforeign, hlast⟩ _
      have hlast : last = 0 := by simpa [Finding.severity] using hlast
      refine ⟨body, by rw [hlast], ?_⟩
      intro b hb
      have hnone : body.countP (fun b => decide (128 ≤ b)) = 0 := by
        simpa [Finding.severity] using hforeign
      simpa using List.countP_eq_zero.mp hnone b hb
    · intro htext
      obtain ⟨body', heq, hascii⟩ := htext (by simp)
      obtain ⟨rfl, hlast⟩ := List.append_inj' heq rfl
      obtain rfl := List.singleton_inj.mp hlast
      have hnone : body.countP (fun b => decide (128 ≤ b)) = 0 := by
        refine List.countP_eq_zero.mpr fun b hb => ?_
        simpa using hascii b hb
      simp [hnone]

theorem silent_momentFindings {f : Field} :
    Silent (momentFindings f) ↔
      (f.raw.isEmpty = false → (Calendar.Moment.parse f.text).isSome = true) := by
  rw [momentFindings]
  by_cases hempty : f.raw.isEmpty = true
  · simp [hempty]
  · by_cases hparse : (Calendar.Moment.parse f.text).isSome = true
    · simp [hempty, hparse]
    · simp [hempty, hparse, Finding.severity]

theorem silent_textFindings {f : Field} : Silent (textFindings f) ↔ f.IsText := by
  rw [textFindings, Silent.append, silent_characterFindings]
  by_cases htag : f.tag ∈ Tag.moments
  · rw [if_pos (List.contains_iff_mem.mpr htag), silent_momentFindings]
    constructor
    · intro hrules
      rcases hrules with ⟨hascii, hmoment⟩
      exact ⟨hascii, fun hraw _ => hmoment hraw⟩
    · intro h
      exact ⟨h.ascii, fun hraw => h.moment hraw htag⟩
  · rw [if_neg (mt List.contains_iff_mem.mp htag)]
    exact ⟨fun h => ⟨h.1, fun _ hmem => absurd hmem htag⟩, fun h => ⟨h.ascii, .nil⟩⟩

/-- Nothing is found in a field of known type exactly when the rule of its tag, if there is one,
admits it and its text is well-formed. -/
theorem silent_check {f : Field} {t : FieldType} (ht : f.fieldType? = some t) :
    Silent (check f) ↔
      (∀ r, Schema.rule? f.tag = some r → r.Admits f t) ∧ (t = .ascii → f.IsText) := by
  have htext : Silent (if t == .ascii then textFindings f else []) ↔ (t = .ascii → f.IsText) := by
    by_cases hascii : t = .ascii
    · simp [hascii, silent_textFindings]
    · simp [hascii]
  rw [check, ht]
  dsimp only
  cases hr : Schema.rule? f.tag with
  | none => simpa using htext
  | some r =>
    dsimp only
    by_cases hallows : r.allows t = true
    · rw [if_pos hallows, Silent.append, Silent.append, htext, Silent.flatMap,
        silent_countFindings]
      simp only [silent_valueFindings]
      constructor
      · intro hrules
        rcases hrules with ⟨⟨hvalues, hcount⟩, htext⟩
        refine ⟨?_, htext⟩
        rintro r' h
        obtain rfl := Option.some.inj h
        exact ⟨hallows, hcount, fun hv => hvalues _ hv _ rfl⟩
      · intro hrules
        rcases hrules with ⟨hrule, htext⟩
        have hadmits := hrule r rfl
        exact ⟨⟨fun v hv n hn => hadmits.values (hn ▸ hv), hadmits.count⟩, htext⟩
    · rw [if_neg hallows]
      constructor
      · intro h
        cases Silent.singleton.mp h
      · exact fun h => absurd (h.1 r rfl).type hallows

theorem silent_orderFindings {previous : Option Nat} {tag : Nat} :
    Silent (orderFindings previous tag) ↔ ∀ p, previous = some p → p < tag := by
  cases previous with
  | none => simp [orderFindings]
  | some p => simp [orderFindings, Finding.severity]

end FieldRules
end ImageAudit.Tiff
