import ImageAudit.Proofs.Tiff.Conservation

/-! A budget that lasts goes unnoticed. What is left over of it at the end could have been more: as
long as no field is refused because the budget is exhausted, the same work with a larger budget does
the same and leaves that much more of it. -/
namespace ImageAudit

def Finding.TellsExhaustion (f : Finding) : Prop :=
  f.key = "tiff.error.field_data_budget_exhausted"

namespace Tiff

def Finding.TellsExhaustion (f : Finding) : Prop := ImageAudit.Finding.TellsExhaustion (.tiff f)

/-- The budget with a surplus that was granted on top of it and is left. -/
def Budget.extend (b : Budget) (n : Nat) : Budget := ⟨b.limit + n, b.remaining + n⟩

theorem Budget.take?_extend {b rest : Budget} {size : Nat} (h : b.take? size = some rest)
    (n : Nat) : (b.extend n).take? size = some (rest.extend n) := by
  rw [take?] at h
  split at h
  · next hle =>
    obtain rfl := Option.some.inj h
    rw [take?, extend, if_pos (Nat.le_add_right_of_le hle), extend, Nat.sub_add_comm hle]
  · cases h

def Loaded.extend {α : Type} (l : Loaded α) (n : Nat) : Loaded α :=
  { l with budget := l.budget.extend n }

namespace Entry

variable {entry : Entry} {source : Source} {budget : Budget}

theorem load_extend {t : FieldType} {offset : Nat}
    (h : ∀ f ∈ (entry.load t source offset budget).findings, ¬ f.TellsExhaustion) (n : Nat) :
    entry.load t source offset (budget.extend n) =
      (entry.load t source offset budget).extend n := by
  unfold load at h ⊢
  dsimp only at h ⊢
  by_cases hsection : (!source.hasSection offset (t.size * entry.count)) = true
  · rw [if_pos hsection, if_pos hsection]
    rfl
  by_cases hlarge : maxFieldCharge < saturate (t.charge entry.count)
  · rw [if_neg hsection, if_pos hlarge, if_neg hsection, if_pos hlarge]
    rfl
  rw [if_neg hsection, if_neg hlarge] at h ⊢
  rw [if_neg hsection, if_neg hlarge]
  -- Only here is the budget looked at, and where it is too small the finding would say so.
  cases htake : budget.take? (saturate (t.charge entry.count)) with
  | none =>
    rw [htake] at h
    exact absurd rfl (h _ (List.mem_append_right _ (List.mem_singleton_self _)))
  | some rest =>
    rw [Budget.take?_extend htake]
    rfl

theorem resolve_extend {e : Encoding}
    (h : ∀ f ∈ (entry.resolve e source budget).findings, ¬ f.TellsExhaustion) (n : Nat) :
    entry.resolve e source (budget.extend n) = (entry.resolve e source budget).extend n := by
  unfold resolve at h ⊢
  dsimp only at h ⊢
  cases ht : FieldType.ofId? entry.typeId with
  | none => rfl
  | some t =>
    rw [ht] at h
    dsimp only at h ⊢
    by_cases hfits : t.fitsInline entry.count e.big = true
    · simp only [if_pos hfits]
      rfl
    simp only [if_neg hfits] at h ⊢
    cases hloaded : entry.load t source (e.order.decode entry.valueArea.data.toList) budget with
    | mk result found rest =>
      have hfound : ∀ f ∈ (entry.load t source (e.order.decode entry.valueArea.data.toList)
          budget).findings, ¬ f.TellsExhaustion := by
        rw [hloaded] at h ⊢
        intro f hf
        match result with
        | .error _ => exact h f hf
        | .ok none => exact h f hf
        | .ok (some _) => exact h f (List.mem_append_left _ hf)
      rw [load_extend hfound, hloaded]
      match result with
      | .error _ => rfl
      | .ok none => rfl
      | .ok (some _) => rfl

end Entry

namespace Intake

variable {c : Context} {s : Intake}

def extend (s : Intake) (n : Nat) : Intake := { s with budget := s.budget.extend n }

theorem step_extend (h : ∀ f ∈ (s.step c).2.findings.toList, ¬ f.TellsExhaustion) (n : Nat) :
    (s.extend n).step c = ((s.step c).1, (s.step c).2.extend n) := by
  have hentry : ∀ f ∈ ((Entry.read c.encoding s.cursor).1.resolve c.encoding c.source
      s.budget).findings, ¬ f.TellsExhaustion := by
    intro f hf
    refine h f ?_
    simp only [step, Field.read]
    split <;> simp [accept, hf]
  simp only [step, Field.read, extend, Entry.resolve_extend hentry]
  generalize Entry.resolve _ c.encoding c.source s.budget = loaded
  obtain ⟨result, found, rest⟩ := loaded
  cases result <;> rfl

theorem findings_step_subset (c : Context) (s : Intake) :
    s.findings.toList ⊆ (s.step c).2.findings.toList := by
  intro f hf
  simp only [step]
  split <;> simp [accept, hf]

theorem findings_run_subset (c : Context) (count : Nat) (s : Intake) :
    s.findings.toList ⊆ (s.run c count).2.findings.toList := by
  induction count generalizing s with
  | zero => exact List.Subset.refl _
  | succ count ih =>
    have hstep := findings_step_subset c s
    rw [run]
    split
    · next hs => rwa [hs] at hstep
    · next t hs =>
      rw [hs] at hstep
      exact List.Subset.trans hstep (ih t)

/-- The induction is on the entries that are still to be read. -/
theorem run_extend {count : Nat} (h : ∀ f ∈ (s.run c count).2.findings.toList, ¬ f.TellsExhaustion)
    (n : Nat) : (s.extend n).run c count = ((s.run c count).1, (s.run c count).2.extend n) := by
  induction count generalizing s with
  | zero => rfl
  | succ count ih =>
    have hstep : ∀ f ∈ (s.step c).2.findings.toList, ¬ f.TellsExhaustion := by
      intro f hf
      refine h f ?_
      rw [run]
      split
      · next hs => rwa [hs] at hf
      · next t hs =>
        rw [hs] at hf
        exact findings_run_subset c count t hf
    have hextended := step_extend hstep n
    cases hs : s.step c with
    | mk result t =>
      rw [hs] at hextended
      cases result with
      | error cause => simp only [run, hextended, hs]
      | ok u =>
        simp only [run, hs] at h
        simp only [run, hextended, hs]
        exact ih h

end Intake

def DirectoryReading.extend (r : DirectoryReading) (n : Nat) : DirectoryReading :=
  { r with budget := r.budget.extend n }

theorem Directory.read_extend {c : Context} {kind : DirectoryKind} {index offset : Nat}
    {budget : Budget}
    (h : ∀ f ∈ (read c kind index offset budget).findings, ¬ f.TellsExhaustion) (n : Nat) :
    read c kind index offset (budget.extend n) =
      (read c kind index offset budget).extend n := by
  rw [read] at h ⊢
  rw [read]
  dsimp only at h ⊢
  cases hb : readBytes c.encoding c.source offset with
  | error obstacle => cases obstacle <;> rfl
  | ok body =>
    obtain ⟨count, raw⟩ := body
    rw [hb] at h
    dsimp only at h ⊢
    have hrun : ∀ f ∈ ((Intake.start raw budget).run c count).2.findings.toList,
        ¬ f.TellsExhaustion := by
      intro f hf
      have hmem := List.mem_map_of_mem (f := ImageAudit.Finding.tiff)
        (List.mem_append_right (parityFindings offset) hf)
      refine h (.tiff f) ?_
      split
      · exact hmem
      · exact List.mem_append_left _ hmem
    rw [show Intake.start raw (budget.extend n) = (Intake.start raw budget).extend n from rfl,
      Intake.run_extend hrun]
    cases ((Intake.start raw budget).run c count) with
    | mk result t => cases result <;> rfl

namespace Survey

def extend (s : Survey) (n : Nat) : Survey := { s with budget := s.budget.extend n }

def Step.extend {α : Type} (n : Nat) : Step α → Step α
  | .ok a s => .ok a (s.extend n)
  | .error cause s => .error cause (s.extend n)

def Lasts (s : Survey) : Prop := ∀ f ∈ s.findings.toList, ¬ f.TellsExhaustion

/-- A computation that keeps all findings, and to which a surplus in the budget makes no difference
unless it finds that the budget is exhausted. -/
structure Indifferent {α : Type} (f : Survey → Step α) : Prop where
  keeps (s : Survey) : s.findings.toList ⊆ (f s).after.findings.toList
  ignores (s : Survey) (n : Nat) : (f s).after.Lasts → f (s.extend n) = (f s).extend n

namespace Indifferent

variable {α β : Type}

protected theorem pure (a : α) : Indifferent (EStateM.pure a : Survey → Step α) :=
  ⟨fun _ => List.Subset.refl _, fun _ _ _ => rfl⟩

theorem of_eq {f : Survey → Step α} (h : Indifferent f) {s : Survey} {r : Step α} (hr : f s = r) :
    s.findings.toList ⊆ r.after.findings.toList ∧
      ∀ n, r.after.Lasts → f (s.extend n) = r.extend n := by
  subst hr
  exact ⟨h.keeps s, h.ignores s⟩

/-- One computation after another: a finding of the first is still there after the second. -/
protected theorem bind {x : Survey → Step α} {f : α → Survey → Step β} (hx : Indifferent x)
    (hf : ∀ a, Indifferent (f a)) : Indifferent (EStateM.bind x f) where
  keeps s := by
    unfold EStateM.bind
    split
    · next a t hs => exact List.Subset.trans (hx.of_eq hs).1 ((hf a).keeps t)
    · next cause t hs => exact (hx.of_eq hs).1
  ignores s n h := by
    unfold EStateM.bind at h ⊢
    cases hs : x s with
    | ok a t =>
      rw [hs] at h
      rw [(hx.of_eq hs).2 n fun g hg => h g ((hf a).keeps t hg)]
      exact (hf a).ignores t n h
    | error cause t =>
      rw [hs] at h
      rw [(hx.of_eq hs).2 n h]
      rfl

variable {c : Context} {index : Nat}

protected theorem enter (c : Context) (kind : DirectoryKind) (index offset : Nat) :
    Indifferent (enter c kind index offset) where
  keeps s := by
    by_cases hv : offset ∈ s.visited
    · rw [enter_repeated c kind index hv]
      simp [Step.after, report]
    · rw [enter_new hv]
      split <;> simp [Step.after, takeReading]
  ignores s n h := by
    by_cases hv : offset ∈ s.visited
    · rw [enter_repeated c kind index hv, enter_repeated c kind index (s := s.extend n) hv]
      rfl
    · have hread : ∀ f ∈ (Directory.read c kind index offset s.budget).findings,
          ¬ f.TellsExhaustion := by
        intro f hf
        refine h f ?_
        rw [enter_new hv]
        split <;> simp [Step.after, takeReading, hf]
      have hbudget : Directory.read c kind index offset (s.extend n).budget = _ :=
        Directory.read_extend hread n
      rw [enter_new hv, enter_new (s := s.extend n) hv, hbudget]
      generalize Directory.read c kind index offset s.budget = reading
      obtain ⟨result, found, rest⟩ := reading
      cases result <;> rfl

theorem readEach_cons (read : Nat → Survey → Step (Option DirectoryTree)) (offset : Nat)
    (rest : List Nat) (trees : Array DirectoryTree) :
    readEach read (offset :: rest) trees =
      EStateM.bind (read offset) fun tree? => readEach read rest (tree?.elim trees trees.push) := by
  funext s
  rw [readEach]
  unfold EStateM.bind
  cases read offset s with
  | ok tree? t => cases tree? <;> rfl
  | error cause t => rfl

protected theorem readEach {read : Nat → Survey → Step (Option DirectoryTree)}
    (h : ∀ offset, Indifferent (read offset)) (offsets : List Nat)
    (trees : Array DirectoryTree) : Indifferent (readEach read offsets trees) := by
  induction offsets generalizing trees with
  | nil => exact .pure trees
  | cons offset rest ih =>
    rw [readEach_cons]
    exact (h offset).bind fun _ => ih _

theorem readTree_zero (kind : DirectoryKind) (offset : Nat) :
    readTree c index 0 kind offset =
      EStateM.bind (enter c kind index offset) fun
        | none => EStateM.pure none
        | some d => fun s => .ok (some (.node d [] []))
            (if d.hasChildren then s.report (.nestingTooDeep offset maxDepth) else s) := by
  funext s
  rw [readTree]
  unfold EStateM.bind
  cases enter c kind index offset s with
  | ok d? t => cases d? <;> rfl
  | error cause t => rfl

theorem readTree_succ (levels : Nat) (kind : DirectoryKind) (offset : Nat) :
    readTree c index (levels + 1) kind offset =
      EStateM.bind (enter c kind index offset) fun
        | none => EStateM.pure none
        | some d =>
          EStateM.bind (readEach (readTree c index levels .sub) d.subOffsets #[]) fun subs =>
            EStateM.bind (readEach (readTree c index levels .gps) d.gpsOffset?.toList #[])
              fun gps => EStateM.pure (some (.node d subs.toList gps.toList)) := by
  funext s
  rw [readTree]
  unfold EStateM.bind
  cases enter c kind index offset s with
  | error cause t => rfl
  | ok d? t =>
    cases d? with
    | none => rfl
    | some d =>
      dsimp only
      cases readEach (readTree c index levels .sub) d.subOffsets #[] t with
      | error cause u => rfl
      | ok subs u =>
        dsimp only
        cases readEach (readTree c index levels .gps) d.gpsOffset?.toList #[] u <;> rfl

/-- The induction goes over the levels that may still be read below the tree. -/
protected theorem readTree (c : Context) (index levels : Nat) (kind : DirectoryKind)
    (offset : Nat) : Indifferent (readTree c index levels kind offset) := by
  induction levels generalizing kind offset with
  | zero =>
    rw [readTree_zero]
    refine (Indifferent.enter c kind index offset).bind fun d? => ?_
    cases d? with
    | none => exact .pure none
    | some d =>
      constructor
      · intro s
        dsimp only [Step.after]
        split <;> simp [report]
      · intro s n _
        dsimp only
        split <;> rfl
  | succ levels ih =>
    rw [readTree_succ]
    refine (Indifferent.enter c kind index offset).bind fun d? => ?_
    cases d? with
    | none => exact .pure none
    | some d =>
      exact (Indifferent.readEach (ih .sub) d.subOffsets #[]).bind fun subs =>
        (Indifferent.readEach (ih .gps) d.gpsOffset?.toList #[]).bind fun gps => .pure _

protected theorem readMain (c : Context) (offset : Nat) : Indifferent (readMain c offset) where
  keeps s := (Indifferent.readTree c s.directories.size maxDepth .main offset).keeps s
  ignores s := (Indifferent.readTree c s.directories.size maxDepth .main offset).ignores s

/-- The induction follows the chain of main directories. -/
protected theorem walk (c : Context) (offset : Nat) : Indifferent (walk c offset) := by
  -- The chain is not as long as any structure that could be taken apart before the walk, so the
  -- statement is about one survey at a time and `bind` does not apply.
  suffices h : ∀ s : Survey, s.findings.toList ⊆ (s.walk c offset).after.findings.toList ∧
      ∀ n, (s.walk c offset).after.Lasts →
        (s.extend n).walk c offset = (s.walk c offset).extend n from
    ⟨fun s => (h s).1, fun s => (h s).2⟩
  intro s
  induction offset, s using walk.induct c with
  | case1 s =>
    rw [walk_zero]
    exact ⟨List.Subset.refl _, fun n _ => walk_zero c _⟩
  | case2 offset s h0 cause t hr =>
    obtain ⟨hkeeps, hignores⟩ := (Indifferent.readMain c offset).of_eq hr
    rw [walk_fail h0 hr]
    exact ⟨hkeeps, fun n h => walk_fail h0 (hignores n h)⟩
  | case3 offset s h0 t hr =>
    obtain ⟨hkeeps, hignores⟩ := (Indifferent.readMain c offset).of_eq hr
    rw [walk_halt h0 hr]
    exact ⟨hkeeps, fun n h => walk_halt h0 (hignores n h)⟩
  | case4 offset s h0 tree t hr _ ih =>
    obtain ⟨hkeeps, hignores⟩ := (Indifferent.readMain c offset).of_eq hr
    rw [walk_next h0 hr]
    refine ⟨List.Subset.trans hkeeps ih.1, fun n h => ?_⟩
    have hmain := hignores n fun f hf => h f (ih.1 hf)
    rw [walk_next h0 hmain]
    exact ih.2 n h

end Indifferent
end Survey

namespace Description

/-- A surplus in the budget makes no difference to a walk that does not exhaust it. -/
theorem walk_extend {c : Context} {offset : Nat} {d : Description}
    (h : (d.walk c offset).2.survey.Lasts) (n : Nat) :
    Description.walk { d with survey := d.survey.extend n } c offset =
      ((d.walk c offset).1,
        { (d.walk c offset).2 with survey := (d.walk c offset).2.survey.extend n }) := by
  rw [survey_walk] at h
  have hwalk := (Survey.Indifferent.walk c offset).ignores d.survey n h
  rw [walk, walk, hwalk]
  cases Survey.walk c offset d.survey <;> rfl

/-- The budget is invisible until it is exhausted. A walk into an empty description that finds no
field to be refused for want of budget is the same with any larger limit: it returns or fails alike,
the description has the same directories with all their fields and values, the same visited offsets,
findings and flavour, and what the limit is larger by is left in addition. -/
theorem walk_of_limit_le {c : Context} {offset limit limit' : Nat} (hle : limit ≤ limit')
    (hlasts : ∀ f ∈ ((empty (.ofLimit limit)).walk c offset).2.findings,
      f.key ≠ "tiff.error.field_data_budget_exhausted") :
    let narrow := (empty (.ofLimit limit)).walk c offset
    let wide := (empty (.ofLimit limit')).walk c offset
    wide.1 = narrow.1 ∧
    wide.2 = { narrow.2 with survey := { narrow.2.survey with
      budget := ⟨limit', narrow.2.survey.budget.remaining + (limit' - limit)⟩ } } := by
  intro narrow wide
  obtain ⟨n, rfl⟩ := Nat.exists_eq_add_of_le hle
  have hgranted : narrow.2.survey.budget.limit = limit := by
    rw [survey_walk]
    exact ((Survey.solvent_start limit).walk c offset).granted
  have hwide : wide = (narrow.1, { narrow.2 with survey := narrow.2.survey.extend n }) :=
    walk_extend hlasts n
  rw [hwide, Nat.add_sub_cancel_left, Survey.extend, Budget.extend, hgranted]
  exact ⟨rfl, rfl⟩

def nestedPair : Context := ⟨.ofBytes "" ⟨#[0, 0,
  1, 0, 0x4A, 1, 4, 0, 2, 0, 0, 0, 20, 0, 0, 0, 0, 0, 0, 0,
  28, 0, 0, 0, 28, 0, 0, 0,
  1, 0, 0xFE, 0, 4, 0, 1, 0, 0, 0, 0, 0, 0, 0, 0, 0, 0, 0]⟩, {}, ⟨.littleEndian, false⟩⟩

/-- Two offsets cost 72 bytes. With one byte less no sub-directory is found. -/
theorem walk_of_limit_le_nestedPair :
    let narrow := (empty (.ofLimit 72)).walk nestedPair 2
    let wide := (empty (.ofLimit 100)).walk nestedPair 2
    narrow.2.survey.visited = [28, 2] ∧ narrow.2.survey.budget = ⟨72, 0⟩ ∧
      ((empty (.ofLimit 71)).walk nestedPair 2).2.survey.visited = [2] ∧
      wide.1 = narrow.1 ∧
      wide.2 = { narrow.2 with survey := { narrow.2.survey with
        budget := ⟨100, narrow.2.survey.budget.remaining + 28⟩ } } :=
  ⟨by decide +kernel, by decide +kernel, by decide +kernel,
    walk_of_limit_le (by decide) (by decide +kernel)⟩

end Description
end Tiff
end ImageAudit
