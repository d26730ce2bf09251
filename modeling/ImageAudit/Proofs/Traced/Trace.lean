import ImageAudit.Bytes.Source

/-! Computations with a record of what they do. They get bytes through `Traced.read` alone, so every
read stands in the record with what came of it, in between the parts that were completed. -/
namespace ImageAudit

def failure? {α : Type} : Except ReadError α → Option ReadError
  | .error cause => some cause
  | .ok _ => none

inductive Act (π : Type) where
  | read (offset count : Nat) (failure : Option ReadError)
  | complete (part : π)

namespace Act

variable {π : Type}

def failure? : Act π → Option ReadError
  | .read _ _ failure => failure
  | .complete _ => none

def part? : Act π → Option π
  | .read .. => none
  | .complete part => some part

def IsOf (source : Source) : Act π → Prop
  | .read offset count failure => failure = ImageAudit.failure? (source.read offset count)
  | .complete _ => True

theorem IsOf.exists_read {source : Source} {act : Act π} (h : act.IsOf source) {cause : ReadError}
    (hfails : act.failure? = some cause) :
    ∃ offset count, source.read offset count = .error cause := by
  cases act with
  | complete part => cases hfails
  | read offset count failure =>
    obtain rfl : failure = _ := h
    refine ⟨offset, count, ?_⟩
    cases hread : source.read offset count with
    | error e => rw [Option.some.inj (by rwa [hread] at hfails : some e = some cause)]
    | ok bytes => rw [Act.failure?, hread] at hfails; cases hfails

end Act

def EndsIn {α ε : Type} (failed? : α → Option ε) : Option ε → List α → Prop
  | none, l => ∀ a ∈ l, failed? a = none
  | some cause, l => ∃ before last, l = before ++ [last] ∧ failed? last = some cause ∧
      ∀ a ∈ before, failed? a = none

namespace EndsIn

variable {α ε : Type} {failed? : α → Option ε} {o : Option ε} {l m : List α}

protected theorem nil : EndsIn failed? none [] := List.forall_mem_nil _

theorem singleton (failed? : α → Option ε) (a : α) : EndsIn failed? (failed? a) [a] := by
  cases h : failed? a with
  | none => exact List.forall_mem_singleton.mpr h
  | some cause => exact ⟨[], a, rfl, h, List.forall_mem_nil _⟩

theorem append (hl : EndsIn failed? none l) (hm : EndsIn failed? o m) :
    EndsIn failed? o (l ++ m) := by
  cases o with
  | none => exact List.forall_mem_append.mpr ⟨hl, hm⟩
  | some cause =>
    obtain ⟨before, last, rfl, hlast, hbefore⟩ := hm
    exact ⟨l ++ before, last, (List.append_assoc _ _ _).symm, hlast,
      List.forall_mem_append.mpr ⟨hl, hbefore⟩⟩

/-- Something in the list failed exactly when the list ends in a failure. -/
theorem isSome_iff (h : EndsIn failed? o l) :
    o.isSome = true ↔ ∃ a ∈ l, (failed? a).isSome = true := by
  cases o with
  | none =>
    refine ⟨fun hsome => (nomatch hsome), ?_⟩
    rintro ⟨a, ha, hsome⟩
    rw [h a ha] at hsome
    exact hsome
  | some cause =>
    obtain ⟨before, last, rfl, hlast, _⟩ := h
    exact ⟨fun _ => ⟨last, by simp, by simp [hlast]⟩, fun _ => rfl⟩

end EndsIn

structure Traced (π α : Type) where
  value : α
  acts : List (Act π)

namespace Traced

variable {π α β : Type}

instance : Monad (Traced π) where
  pure a := ⟨a, []⟩
  bind x f := ⟨(f x.value).value, x.acts ++ (f x.value).acts⟩

def read (source : Source) (offset count : Nat) : Traced π (Except ReadError ByteArray) :=
  let result := source.read offset count
  ⟨result, [.read offset count (failure? result)]⟩

def complete (part : π) : Traced π Unit := ⟨(), [.complete part]⟩

theorem value_bind (x : Traced π α) (f : α → Traced π β) :
    (x >>= f).value = (f x.value).value := rfl

structure Gives (x : Traced π α) (source : Source) (value : α) (failure : Option ReadError)
    (parts : List π) : Prop where
  value_eq : x.value = value
  fails : EndsIn Act.failure? failure x.acts
  parts_eq : x.acts.filterMap Act.part? = parts
  isOf : ∀ act ∈ x.acts, act.IsOf source

namespace Gives

variable {source : Source} {x : Traced π α} {f : α → Traced π β} {a : α} {b : β}
  {o : Option ReadError} {ps qs : List π}

protected theorem pure (a : α) : (pure a : Traced π α).Gives source a none [] :=
  ⟨rfl, EndsIn.nil, rfl, List.forall_mem_nil _⟩

protected theorem read (π : Type) (source : Source) (offset count : Nat) :
    (Traced.read source offset count : Traced π _).Gives source (source.read offset count)
      (failure? (source.read offset count)) [] :=
  ⟨rfl, EndsIn.singleton Act.failure? (.read offset count _), rfl,
    List.forall_mem_singleton.mpr rfl⟩

protected theorem complete (part : π) : (Traced.complete part).Gives source () none [part] :=
  ⟨rfl, EndsIn.singleton Act.failure? (.complete part), rfl,
    List.forall_mem_singleton.mpr trivial⟩

/-- Behind a computation without a failure the next one goes on. -/
protected theorem bind (hx : x.Gives source a none ps) (hf : (f a).Gives source b o qs) :
    (x >>= f).Gives source b o (ps ++ qs) := by
  obtain ⟨rfl, hfails, rfl, hreads⟩ := hx
  refine ⟨hf.value_eq, hfails.append hf.fails, ?_, List.forall_mem_append.mpr ⟨hreads, hf.isOf⟩⟩
  rw [← hf.parts_eq, ← List.filterMap_append]
  rfl

/-- A computation that goes on with nothing but a result ends as it did before. -/
theorem bind_pure (hx : x.Gives source a o ps) (hf : f a = pure b) :
    (x >>= f).Gives source b o ps := by
  obtain ⟨rfl, hfails, rfl, hreads⟩ := hx
  have hacts : (x >>= f).acts = x.acts ++ [] := congrArg (fun y => x.acts ++ y.acts) hf
  rw [List.append_nil] at hacts
  exact ⟨congrArg Traced.value hf, hacts ▸ hfails, congrArg _ hacts, hacts ▸ hreads⟩

/-- What a computation failed with is what a read of the source failed with. -/
theorem exists_read {cause : ReadError} (h : x.Gives source a (some cause) ps) :
    ∃ offset count, source.read offset count = .error cause := by
  obtain ⟨before, last, hacts, hlast, _⟩ := h.fails
  exact (h.isOf last (by simp [hacts])).exists_read hlast

end Gives
end Traced
end ImageAudit
