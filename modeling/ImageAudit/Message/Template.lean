import ImageAudit.Text.Word

/-! Message templates. A placeholder is an opening brace, an optional plus sign, a decimal index
and a closing brace; it stands for the argument with that index. -/
namespace ImageAudit.Template

/-- The argument named by the text up to the first closing brace, and the text behind it. -/
def placeholder? (args : List String) (text : List Char) : Option (String × List Char) :=
  match text.dropWhile (· != '\x7d') with
  | [] => none
  | _ :: rest => do
    let arg ← args[← Word.ofText? (text.takeWhile (· != '\x7d'))]?
    return (arg, rest)

theorem length_of_placeholder? {args : List String} {text rest : List Char} {arg : String}
    (h : placeholder? args text = some (arg, rest)) : rest.length < text.length := by
  unfold placeholder? at h
  split at h
  · exact nomatch h
  · next c tail hd =>
    have hle : (text.dropWhile (· != '\x7d')).length ≤ text.length :=
      (List.dropWhile_sublist _).length_le
    rw [hd, List.length_cons] at hle
    simp only [Option.bind_eq_bind, Option.bind_eq_some_iff, Option.pure_def, Option.some.injEq,
      Prod.mk.injEq] at h
    obtain ⟨_, _, _, _, _, rfl⟩ := h
    omega

/-- Replaces placeholders from left to right. A brace that starts none is kept, and inserted text
is not looked at again. -/
def renderChars (args : List String) (text : List Char) : List Char :=
  match text with
  | [] => []
  | c :: rest =>
    if c = '\x7b' then
      match h : placeholder? args rest with
      | some (arg, tail) =>
        have := length_of_placeholder? h
        arg.toList ++ renderChars args tail
      | none => c :: renderChars args rest
    else c :: renderChars args rest
termination_by text.length

def render (template : String) (args : List String) : String :=
  String.ofList (renderChars args template.toList)

end ImageAudit.Template
