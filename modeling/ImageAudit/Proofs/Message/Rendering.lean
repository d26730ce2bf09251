import ImageAudit.Proofs.Checked.Message
import ImageAudit.Proofs.Text.Tidy

/-! What is in the text of an event. Every character comes from the template or from an argument, so
tidy arguments make a tidy text. -/
namespace ImageAudit

namespace Template

variable {args : List String} {text rest : List Char} {arg : String} {c : Char}

theorem mem_of_placeholder? (h : placeholder? args text = some (arg, rest)) :
    arg ∈ args ∧ rest <:+ text := by
  rw [placeholder?] at h
  split at h
  · cases h
  · next brace tail hdrop =>
    simp only [Option.bind_eq_bind, Option.bind_eq_some_iff, Option.pure_def, Option.some.injEq,
      Prod.mk.injEq] at h
    obtain ⟨index, _, found, hfound, rfl, rfl⟩ := h
    refine ⟨List.mem_of_getElem? hfound, (List.suffix_cons brace tail).trans ?_⟩
    rw [← hdrop]
    exact List.dropWhile_suffix _

theorem mem_of_mem_renderChars (h : c ∈ renderChars args text) :
    c ∈ text ∨ ∃ arg ∈ args, c ∈ arg.toList := by
  fun_induction renderChars args text with
  | case1 => exact .inl h
  | case2 rest arg tail hplace _ ih =>
    obtain ⟨harg, hsuffix⟩ := mem_of_placeholder? hplace
    obtain hinside | hbehind := List.mem_append.mp h
    · exact .inr ⟨arg, harg, hinside⟩
    · exact (ih hbehind).imp_left fun hc => List.mem_cons_of_mem _ (hsuffix.mem hc)
  | case3 rest hplace ih =>
    obtain rfl | hrest := List.mem_cons.mp h
    · exact .inl List.mem_cons_self
    · exact (ih hrest).imp_left (List.mem_cons_of_mem _)
  | case4 b rest hbrace ih =>
    obtain rfl | hrest := List.mem_cons.mp h
    · exact .inl List.mem_cons_self
    · exact (ih hrest).imp_left (List.mem_cons_of_mem _)

theorem tidy_render {template : String} (h : Text.Tidy template)
    (hargs : ∀ arg ∈ args, Text.Tidy arg) : Text.Tidy (render template args) := by
  refine Text.tidy_ofList fun c hc hseparator => ?_
  obtain htemplate | ⟨arg, harg, hmem⟩ := mem_of_mem_renderChars hc
  · exact h c hseparator htemplate
  · exact hargs arg harg c hseparator hmem

/-- A template up to its first placeholder and what that one stands for. -/
theorem renderChars_field {before index : List Char} (hbefore : '\x7b' ∉ before)
    (hindex : '\x7d' ∉ index) (harg : (Word.ofText? index).bind (args[·]?) = some arg)
    (rest : List Char) :
    renderChars args (before ++ '\x7b' :: (index ++ '\x7d' :: rest)) =
      before ++ (arg.toList ++ renderChars args rest) := by
  have hplace : placeholder? args (index ++ '\x7d' :: rest) = some (arg, rest) := by
    rw [placeholder?_append args hindex, harg]
    rfl
  rw [renderChars_append args hbefore, renderChars_placeholder hplace]

end Template

namespace Catalog

theorem tidy_english : ∀ entry ∈ english.entries, Text.Tidy entry.2 := by
  dsimp only [english]
  repeat refine List.forall_mem_cons.mpr ⟨Text.tidy_literal rfl, ?_⟩
  exact List.forall_mem_nil _

theorem tidy_text {key : String} {args : List String} (hkey : Text.Tidy key)
    (hargs : ∀ arg ∈ args, Text.Tidy arg) : Text.Tidy (english.text key args) := by
  rw [text]
  split
  · next template hfound =>
    obtain ⟨before, after, hentries, _⟩ := List.lookup_eq_some_iff.mp hfound
    have hmem : (key, template) ∈ english.entries := by
      rw [hentries]
      exact List.mem_append_right _ List.mem_cons_self
    exact Template.tidy_render (tidy_english _ hmem) hargs
  · clear * - hkey hargs
    induction args generalizing key with
    | nil => exact hkey
    | cons arg rest ih =>
      rw [List.forall_mem_cons] at hargs
      exact ih (by simp [hkey, hargs.1]; decide) hargs.2

/-- The one text that quotes from a file shows what it quotes as it stands there. -/
theorem text_invalidDateTime (tag name value : String) :
    english.text "tiff.error.invalid_date_time" [tag, name, value] =
      "Tag " ++ tag ++ " (" ++ name ++ ") value \"" ++ value ++
        "\" is not a valid date and time." := by
  have htemplate : english.template? "tiff.error.invalid_date_time" =
      some "Tag {0} ({1}) value \"{2}\" is not a valid date and time." := by decide +kernel
  have hparts : "Tag {0} ({1}) value \"{2}\" is not a valid date and time.".toList =
      "Tag ".toList ++ '\x7b' :: (['0'] ++ '\x7d' ::
        (" (".toList ++ '\x7b' :: (['1'] ++ '\x7d' ::
          (") value \"".toList ++ '\x7b' :: (['2'] ++ '\x7d' ::
            ("\" is not a valid date and time.".toList ++ [])))))) := by decide +kernel
  have hend : Template.renderChars [tag, name, value] [] = [] := by rw [Template.renderChars]
  simp only [text, htemplate, Template.render]
  rw [hparts, Template.renderChars_field (by decide) (by decide) rfl,
    Template.renderChars_field (by decide) (by decide) rfl,
    Template.renderChars_field (by decide) (by decide) rfl,
    Template.renderChars_append _ (by decide), hend]
  simp [← String.toList_inj]

end Catalog
end ImageAudit
