import ImageAudit.Proofs.Tiff.CycleGuard
import ImageAudit.Proofs.Tiff.Entries
import Mathlib.Algebra.Ring.Nat

/-! Conservation of the budget for field data. What a walk takes from the budget is what the fields
that it loaded cost, in whatever directories they stand. Fields that their entries hold and fields
that were refused cost nothing. -/
namespace ImageAudit.Tiff

structure Budget.Pays (before after : Budget) (amount : Nat) : Prop where
  limit : after.limit = before.limit
  remaining : after.remaining + amount = before.remaining

namespace Budget.Pays

variable {a b c : Budget} {m n : Nat}

protected theorem refl (b : Budget) : b.Pays b 0 := ⟨rfl, rfl⟩

protected theorem trans (hab : a.Pays b m) (hbc : b.Pays c n) : a.Pays c (m + n) where
  limit := hbc.limit.trans hab.limit
  remaining := by
    have := hab.remaining
    have := hbc.remaining
    omega

theorem of_take {size : Nat} (h : a.take? size = some b) : a.Pays b size := by
  rw [take?] at h
  split at h
  · next hle =>
    obtain rfl := Option.some.inj h
    exact ⟨rfl, Nat.sub_add_cancel hle⟩
  · cases h

end Budget.Pays

/-- What a field costs: its type's charge for its count if its values were loaded from outside the
entry, and nothing otherwise. -/
def Field.cost (f : Field) : Nat :=
  match f.valueOffset, f.fieldType? with
  | some _, some t => if f.raw.size = 0 then 0 else t.charge f.count
  | _, _ => 0

def Directory.cost (d : Directory) : Nat := (d.fields.map Field.cost).sum

def Placement.cost (ps : List Placement) : Nat := (ps.map (·.directory.cost)).sum

namespace Field

/-- A field is stored in its entry, or it was refused and has no values, or it was loaded at a cost
that is within the limit for one field. -/
inductive Accounted (f : Field) : Prop where
  | inline (hstored : f.valueOffset = none) (hcost : f.cost = 0)
  | refused {offset : Nat} (hstored : f.valueOffset = some offset) (hraw : f.raw.size = 0)
      (hvalues : f.values = []) (hcost : f.cost = 0)
  | loaded {offset : Nat} {t : FieldType} (hstored : f.valueOffset = some offset)
      (htype : f.fieldType? = some t) (hraw : f.raw.size ≠ 0)
      (hcost : f.cost = f.count * (t.size + 32)) (hle : f.cost ≤ 16 * 1024 * 1024)

theorem cost_of_inline {f : Field} (h : f.valueOffset = none) : f.cost = 0 := by
  simp [cost, h]

theorem cost_of_empty {f : Field} (h : f.raw.size = 0) : f.cost = 0 := by
  unfold cost
  split <;> simp [h]

end Field

namespace Entry

variable {entry : Entry} {e : Encoding} {t : FieldType} {source : Source} {budget : Budget}
  {offset : Nat}

/-- The values of an entry are not loaded: their window is not inside the file, or they would cost
more than one field may, or more than remains of the budget. -/
def Refused (entry : Entry) (t : FieldType) (source : Source) (offset : Nat) (budget : Budget) :
    Prop :=
  source.hasSection offset (entry.valueSize t) = false ∨ maxFieldCharge < t.charge entry.count ∨
    budget.remaining < t.charge entry.count

theorem saturate_le_iff {n m : Nat} (h : m < maxWord) : saturate n ≤ m ↔ n ≤ m := by
  rw [saturate]
  omega

/-- A refusal leaves the budget as it is. -/
theorem load_of_refused (h : entry.Refused t source offset budget) :
    (entry.load t source offset budget).result = .ok none ∧
      (entry.load t source offset budget).budget = budget := by
  have hword : maxFieldCharge < maxWord := by decide
  unfold load
  dsimp only
  by_cases hsection : source.hasSection offset (t.size * entry.count) = true
  · rw [if_neg (by simp [hsection])]
    by_cases hlarge : maxFieldCharge < saturate (t.charge entry.count)
    · rw [if_pos hlarge]
      exact ⟨rfl, rfl⟩
    · rw [if_neg hlarge]
      have hcharge : t.charge entry.count ≤ maxFieldCharge :=
        (saturate_le_iff hword).mp (Nat.le_of_not_lt hlarge)
      have hsaturate : saturate (t.charge entry.count) = t.charge entry.count := by
        rw [saturate]
        omega
      have hremaining : budget.remaining < t.charge entry.count := by
        rcases h with h | h | h
        · cases hsection.symm.trans h
        · omega
        · exact h
      have htake : budget.take? (saturate (t.charge entry.count)) = none := by
        rw [hsaturate, Budget.take?, if_neg (by omega)]
      rw [htake]
      exact ⟨rfl, rfl⟩
  · rw [if_pos (by simpa using hsection)]
    exact ⟨rfl, rfl⟩

/-- Values that are not refused are read, and the budget pays for them even if the read fails. -/
theorem load_of_not_refused (h : ¬ entry.Refused t source offset budget) :
    (entry.load t source offset budget).result =
        (source.read offset (entry.valueSize t)).map some ∧
      budget.Pays (entry.load t source offset budget).budget (t.charge entry.count) ∧
      t.charge entry.count ≤ maxFieldCharge := by
  have hword : maxFieldCharge < maxWord := by decide
  simp only [Refused, not_or, Nat.not_lt, Bool.not_eq_false] at h
  obtain ⟨hsection, hcharge, hremaining⟩ := h
  have hsaturate : saturate (t.charge entry.count) = t.charge entry.count := by
    rw [saturate]
    omega
  rw [valueSize] at hsection
  unfold load
  dsimp only
  rw [if_neg (by simp [hsection]), hsaturate, if_neg (Nat.not_lt.mpr hcharge)]
  cases htake : budget.take? (t.charge entry.count) with
  | none =>
    rw [Budget.take?, if_pos hremaining] at htake
    cases htake
  | some rest => exact ⟨rfl, .of_take htake, hcharge⟩

/-- Whatever comes of loading values, the budget is not given back anything. -/
theorem exists_pays_load (entry : Entry) (t : FieldType) (source : Source) (offset : Nat)
    (budget : Budget) : ∃ n, budget.Pays (entry.load t source offset budget).budget n := by
  by_cases h : entry.Refused t source offset budget
  · exact ⟨0, (load_of_refused h).2.symm ▸ .refl budget⟩
  · exact ⟨_, (load_of_not_refused h).2.1⟩

theorem exists_pays_resolve (entry : Entry) (e : Encoding) (source : Source) (budget : Budget) :
    ∃ n, budget.Pays (entry.resolve e source budget).budget n := by
  rw [resolve]
  cases FieldType.ofId? entry.typeId with
  | none => exact ⟨0, .refl budget⟩
  | some t =>
    dsimp only
    split
    · exact ⟨0, .refl budget⟩
    · split
      · exact entry.exists_pays_load t source _ budget
      · exact entry.exists_pays_load t source _ budget
      · exact entry.exists_pays_load t source _ budget

/-- An entry that holds its values leaves the budget as it is. -/
theorem resolve_of_inline (ht : FieldType.ofId? entry.typeId = some t)
    (hfits : t.fitsInline entry.count e.big = true) :
    (entry.resolve e source budget).budget = budget := by
  rw [resolve, ht]
  dsimp only
  rw [if_pos hfits]

/-- Of a refused entry there is a field without data, and the budget is as before. -/
theorem resolve_of_refused (ht : FieldType.ofId? entry.typeId = some t)
    (hfits : t.fitsInline entry.count e.big = false)
    (h : entry.Refused t source (entry.offset e) budget) :
    (entry.resolve e source budget).result = .ok (entry.bare (some (entry.offset e)) .empty) ∧
      (entry.resolve e source budget).budget = budget := by
  obtain ⟨hresult, hbudget⟩ := load_of_refused h
  rw [offset] at hresult hbudget
  rw [resolve, ht]
  dsimp only
  rw [if_neg (by simp [hfits]), hresult]
  exact ⟨rfl, hbudget⟩

/-- An entry that is not refused yields a field with the values that were read. -/
theorem resolve_of_not_refused (ht : FieldType.ofId? entry.typeId = some t)
    (hfits : t.fitsInline entry.count e.big = false)
    (h : ¬ entry.Refused t source (entry.offset e) budget) :
    (entry.resolve e source budget).result =
        (source.read (entry.offset e) (entry.valueSize t)).map
          (fun raw => (entry.decode e t (some (entry.offset e)) raw).1) ∧
      (entry.resolve e source budget).budget =
        (entry.load t source (entry.offset e) budget).budget := by
  have hresult := (load_of_not_refused h).1
  rw [resolve, ht]
  dsimp only
  rw [if_neg (by simp [hfits]), ← offset, hresult]
  cases source.read (entry.offset e) (entry.valueSize t) with
  | error cause => exact ⟨rfl, rfl⟩
  | ok raw => exact ⟨rfl, rfl⟩

/-- The budget pays for a field what the field costs. -/
theorem pays_resolve {f : Field} (h : (entry.resolve e source budget).result = .ok f) :
    f.Accounted ∧ budget.Pays (entry.resolve e source budget).budget f.cost := by
  cases ht : FieldType.ofId? entry.typeId with
  | none =>
    rw [resolve, ht] at h ⊢
    obtain rfl := Except.ok.inj h
    have hcost := Field.cost_of_inline (f := entry.bare none entry.valueArea) rfl
    exact ⟨.inline rfl hcost, hcost ▸ .refl budget⟩
  | some t =>
    cases hfits : t.fitsInline entry.count e.big with
    | true =>
      rw [resolve_of_inline ht hfits]
      rw [resolve, ht] at h
      dsimp only at h
      rw [if_pos hfits] at h
      obtain rfl := Except.ok.inj h
      have hcost := Field.cost_of_inline
        (f := (entry.decode e t none (entry.valueArea.extract 0 (t.size * entry.count))).1) rfl
      exact ⟨.inline rfl hcost, hcost ▸ .refl budget⟩
    | false =>
      by_cases hrefused : entry.Refused t source (entry.offset e) budget
      · obtain ⟨hresult, hbudget⟩ := resolve_of_refused ht hfits hrefused
        obtain rfl := Except.ok.inj (hresult.symm.trans h)
        have hcost := Field.cost_of_empty
          (f := entry.bare (some (entry.offset e)) .empty) rfl
        rw [hbudget, hcost]
        exact ⟨.refused rfl rfl rfl hcost, .refl budget⟩
      · obtain ⟨hresult, hbudget⟩ := resolve_of_not_refused ht hfits hrefused
        obtain ⟨_, hpays, hle⟩ := load_of_not_refused hrefused
        cases hread : source.read (entry.offset e) (entry.valueSize t) with
        | error cause =>
          rw [hresult, hread] at h
          cases h
        | ok raw =>
          rw [hresult, hread] at h
          obtain rfl := Except.ok.inj h
          have hsize : raw.size = t.size * entry.count := Source.size_read hread
          have hnonempty : raw.size ≠ 0 := by
            have := of_decide_eq_false hfits
            omega
          have hcost : Field.cost (entry.decode e t (some (entry.offset e)) raw).1 =
              t.charge entry.count := by
            simp [Field.cost, Field.fieldType?, decode, ht, hnonempty]
          rw [hbudget]
          refine ⟨.loaded rfl ht hnonempty hcost ?_, hcost.symm ▸ hpays⟩
          rw [hcost]
          exact hle

end Entry

namespace Intake

variable {c : Context} {s t : Intake}

theorem budget_step (c : Context) (s : Intake) : (s.step c).2.budget =
    ((Entry.read c.encoding s.cursor).1.resolve c.encoding c.source s.budget).budget := by
  rw [step]
  simp only [Field.read]
  generalize Entry.resolve _ c.encoding c.source s.budget = loaded
  split <;> rfl

theorem exists_pays_step (c : Context) (s : Intake) : ∃ n, s.budget.Pays (s.step c).2.budget n := by
  rw [budget_step]
  exact Entry.exists_pays_resolve _ c.encoding c.source s.budget

theorem exists_pays_run (c : Context) (count : Nat) (s : Intake) :
    ∃ n, s.budget.Pays (s.run c count).2.budget n := by
  induction count generalizing s with
  | zero => exact ⟨0, .refl _⟩
  | succ count ih =>
    obtain ⟨m, hstep⟩ := exists_pays_step c s
    rw [run]
    split
    · next hs =>
      rw [hs] at hstep
      exact ⟨m, hstep⟩
    · next t hs =>
      rw [hs] at hstep
      obtain ⟨n, hrun⟩ := ih t
      exact ⟨m + n, hstep.trans hrun⟩

theorem pays_step (h : s.step c = (.ok (), t)) :
    ∃ f, t.fields.toList = s.fields.toList ++ [f] ∧ f.Accounted ∧
      s.budget.Pays t.budget f.cost := by
  have hbudget := budget_step c s
  rw [h] at hbudget
  rw [hbudget]
  rw [step] at h
  simp only [Field.read] at h
  cases hr : ((Entry.read c.encoding s.cursor).1.resolve c.encoding c.source s.budget).result with
  | error cause =>
    rw [hr] at h
    cases (Prod.mk.inj h).1
  | ok f =>
    rw [hr] at h
    obtain rfl := (Prod.mk.inj h).2
    obtain ⟨hfield, hpays⟩ := Entry.pays_resolve hr
    exact ⟨f, by simp [accept], hfield, hpays⟩

/-- The entries that were read cost what the budget paid on the way. -/
theorem pays_run {count : Nat} (h : s.run c count = (.ok (), t)) :
    ∃ fs, t.fields.toList = s.fields.toList ++ fs ∧ (∀ f ∈ fs, f.Accounted) ∧
      s.budget.Pays t.budget (fs.map Field.cost).sum := by
  induction count generalizing s with
  | zero =>
    obtain rfl := (Prod.mk.inj h).2
    exact ⟨[], (List.append_nil _).symm, List.forall_mem_nil _, .refl _⟩
  | succ count ih =>
    rw [run] at h
    split at h
    · cases (Prod.mk.inj h).1
    · next u hstep =>
      obtain ⟨f, hfirst, hfield, hpays⟩ := pays_step hstep
      obtain ⟨fs, hrest, hfields, hmore⟩ := ih h
      refine ⟨f :: fs, ?_, ?_, ?_⟩
      · simp [hrest, hfirst]
      · exact List.forall_mem_cons.mpr ⟨hfield, hfields⟩
      · rw [List.map_cons, List.sum_cons]
        exact hpays.trans hmore

end Intake

namespace Directory

variable {c : Context} {kind : DirectoryKind} {index offset : Nat} {budget : Budget}

theorem exists_pays_read (c : Context) (kind : DirectoryKind) (index offset : Nat)
    (budget : Budget) : ∃ n, budget.Pays (read c kind index offset budget).budget n := by
  rw [read]
  dsimp only
  split
  · exact ⟨0, .refl budget⟩
  · exact ⟨0, .refl budget⟩
  · next count raw _ =>
    obtain ⟨n, hrun⟩ := Intake.exists_pays_run c count (Intake.start raw budget)
    refine ⟨n, ?_⟩
    split <;> exact hrun

/-- A directory that was read costs what the budget paid. -/
theorem pays_read {d : Directory} (h : (read c kind index offset budget).result = .ok (some d)) :
    (∀ f ∈ d.fields, f.Accounted) ∧
      budget.Pays (read c kind index offset budget).budget d.cost := by
  obtain ⟨count, raw, t, hbytes, hrun, rfl, _⟩ := read_ok_some h
  obtain ⟨fs, hfields, haccounted, hpays⟩ := Intake.pays_run hrun
  have hfields : t.fields.toList = fs := by simpa [Intake.start] using hfields
  have hbudget : (read c kind index offset budget).budget = t.budget := by
    rw [read, hbytes]
    dsimp only
    rw [hrun]
  rw [hbudget, cost, Intake.directory, hfields]
  exact ⟨haccounted, hpays⟩

/-- Where no directory is read nothing is paid. -/
theorem budget_of_read_none (h : (read c kind index offset budget).result = .ok none) :
    (read c kind index offset budget).budget = budget := by
  obtain ⟨finding, hbytes, _⟩ := read_ok_none h
  rw [read, hbytes]

end Directory

namespace Placement

@[simp] theorem cost_append (ps qs : List Placement) : cost (ps ++ qs) = cost ps + cost qs := by
  simp [cost]

def Accounted (p : Placement) : Prop := ∀ f ∈ p.directory.fields, f.Accounted

end Placement

namespace Survey

open DirectoryTree

/-- The budget pays for the directories that are read as they are entered, those above before those
below them; a read that fails may have paid for something that is lost. -/
theorem summary_pays (c : Context) :
    Summary c
      (fun s ps t => (∀ p ∈ ps, p.Accounted) ∧ s.budget.Pays t.budget (Placement.cost ps))
      (fun s t => ∃ n, s.budget.Pays t.budget n) where
  rest s := ⟨List.forall_mem_nil _, .refl _⟩
  append := by
    intro s t u ps qs hst htu
    rw [Placement.cost_append]
    exact ⟨List.forall_mem_append.mpr ⟨hst.1, htu.1⟩, hst.2.trans htu.2⟩
  stop := by
    intro s t u ps hst htu
    obtain ⟨n, hpays⟩ := htu
    exact ⟨_, hst.2.trans hpays⟩
  entered := by
    intro s t kind index offset level d _ _ he
    obtain ⟨_, hread, rfl⟩ := enter_ok_some he
    obtain ⟨haccounted, hpays⟩ := Directory.pays_read hread
    refine ⟨List.forall_mem_singleton.mpr haccounted, ?_⟩
    simpa [Placement.cost, takeReading] using hpays
  passed := by
    intro s t kind index offset he
    refine ⟨List.forall_mem_nil _, ?_⟩
    obtain ⟨_, rfl⟩ | ⟨hread, rfl⟩ := enter_ok_none he
    · exact .refl _
    · change s.budget.Pays (Directory.read c kind index offset s.budget).budget 0
      rw [Directory.budget_of_read_none hread]
      exact .refl _
  failed := by
    intro s t kind index offset cause he
    obtain ⟨_, rfl⟩ := enter_error he
    exact Directory.exists_pays_read c kind index offset s.budget
  tooDeep s offset := ⟨List.forall_mem_nil _, .refl _⟩

/-- What a walk adds to a survey is accounted for. If it ends, the budget paid exactly what that
costs, and otherwise at least that. -/
theorem pays_walk (c : Context) (offset : Nat) (s : Survey) :
    ∃ added lost, (s.walk c offset).after.placements = s.placements ++ added ∧
      (∀ p ∈ added, p.Accounted) ∧
      s.budget.Pays (s.walk c offset).after.budget (Placement.cost added + lost) ∧
      ∀ t, s.walk c offset = .ok () t → lost = 0 := by
  obtain ⟨trees, hf⟩ := walk_follows c offset s
  have hsum := (summary_pays c).follows (fun _ _ => ⟨List.forall_mem_nil _, .refl _⟩) hf
  have hplaced := placements_follows hf
  cases hw : s.walk c offset with
  | ok u t =>
    rw [hw] at hsum hplaced
    exact ⟨_, 0, hplaced, hsum.1, hsum.2, fun _ _ => rfl⟩
  | error cause t =>
    rw [hw] at hsum hplaced
    obtain ⟨u, hread, lost, hfail⟩ := hsum
    refine ⟨_, lost, hplaced, hread.1, hread.2.trans hfail, ?_⟩
    intro t ht
    cases ht

/-- The directories of a survey and what remains of its budget take up no more than the budget was
at first, and every field is accounted for. -/
structure Solvent (limit : Nat) (s : Survey) : Prop where
  granted : s.budget.limit = limit
  total : s.budget.remaining + Placement.cost s.placements ≤ limit
  accounted : ∀ p ∈ s.placements, p.Accounted

theorem solvent_start (limit : Nat) : (start (.ofLimit limit)).Solvent limit :=
  ⟨rfl, Nat.le_refl limit, List.forall_mem_nil _⟩

theorem Solvent.walk {limit : Nat} {s : Survey} (h : s.Solvent limit) (c : Context) (offset : Nat) :
    (s.walk c offset).after.Solvent limit := by
  obtain ⟨added, lost, hplaced, haccounted, hpays, _⟩ := pays_walk c offset s
  refine ⟨hpays.limit.trans h.granted, ?_, ?_⟩
  · have := hpays.remaining
    have := h.total
    rw [hplaced, Placement.cost_append]
    omega
  · rw [hplaced]
    exact List.forall_mem_append.mpr ⟨h.accounted, haccounted⟩

end Survey

namespace Description

/-- None of the walks that are made one after another fails. -/
def WalksReturn (c : Context) : (offsets : List Nat) → Description → Prop
  | [], _ => True
  | offset :: offsets, d => (d.walk c offset).1 = .ok () ∧ WalksReturn c offsets (d.walk c offset).2

theorem solvent_walks (c : Context) (offsets : List Nat) {limit : Nat} {d : Description}
    (h : d.survey.Solvent limit) : (d.walks c offsets).survey.Solvent limit := by
  induction offsets generalizing d with
  | nil => exact h
  | cons offset offsets ih =>
    apply ih
    rw [survey_walk]
    exact h.walk c offset

/-- A walk that returns has taken from the budget what the directories cost that it added. -/
theorem pays_walk {c : Context} {offset : Nat} {d : Description}
    (h : (d.walk c offset).1 = .ok ()) :
    ∃ added, (d.walk c offset).2.survey.placements = d.survey.placements ++ added ∧
      d.survey.budget.Pays (d.walk c offset).2.survey.budget (Placement.cost added) := by
  obtain ⟨added, lost, hplaced, _, hpays, hlost⟩ := Survey.pays_walk c offset d.survey
  obtain ⟨t, hw⟩ := walk_ok h
  obtain rfl := hlost t hw
  rw [survey_walk]
  exact ⟨added, hplaced, hpays⟩

/-- As long as no walk fails nothing is lost, so the directories cost what the budget lacks. -/
theorem pays_walks {c : Context} {offsets : List Nat} {d : Description}
    (h : d.WalksReturn c offsets) :
    (d.walks c offsets).survey.budget.remaining +
        Placement.cost (d.walks c offsets).survey.placements =
      d.survey.budget.remaining + Placement.cost d.survey.placements := by
  induction offsets generalizing d with
  | nil => rfl
  | cons offset offsets ih =>
    obtain ⟨hfirst, hrest⟩ := h
    obtain ⟨added, hplaced, hpays⟩ := pays_walk hfirst
    refine (ih hrest).trans ?_
    have := hpays.remaining
    rw [hplaced, Placement.cost_append]
    omega

/-- The budget is conserved over any walks into a description that was empty at first. As long as
none of them fails, what remains of the budget and what the directories of all levels cost make up
the limit. A walk that fails keeps what it paid and may lose what it read, so that after one the
directories cost no more than the budget lacks; but also then a walk that returns pays for what it
adds, no more and no less. A field is charged its count times its size and thirty-two bytes for
each value, at most sixteen mebibytes, and only if it was loaded: fields that their entry holds
cost nothing, and refused fields have no data, cost nothing and leave the budget as it was. -/
theorem walks_conserve_budget (c : Context) (limit : Nat) (earlier : List Nat) (offset : Nat) :
    let start := empty (.ofLimit limit)
    let before := start.walks c earlier
    let after := (before.walk c offset).2.survey
    (start.WalksReturn c (earlier ++ [offset]) →
      after.budget.remaining + Placement.cost after.placements = limit) ∧
    after.budget.remaining + Placement.cost after.placements ≤ limit ∧
    ((before.walk c offset).1 = .ok () →
      ∃ added, after.placements = before.survey.placements ++ added ∧
        before.survey.budget.remaining = after.budget.remaining + Placement.cost added) ∧
    (∀ p ∈ after.placements, ∀ f ∈ p.directory.fields,
      (f.valueOffset = none ∧ f.cost = 0) ∨
      (f.valueOffset.isSome ∧ f.raw.size = 0 ∧ f.values = [] ∧ f.cost = 0) ∨
      (f.valueOffset.isSome ∧ f.raw.size ≠ 0 ∧ f.cost ≤ 16 * 1024 * 1024 ∧
        ∃ t, f.fieldType? = some t ∧ f.cost = f.count * (t.size + 32))) ∧
    (∀ (entry : Entry) (budget : Budget) (t : FieldType),
      FieldType.ofId? entry.typeId = some t → t.fitsInline entry.count c.encoding.big = false →
      entry.Refused t c.source (entry.offset c.encoding) budget →
      (entry.resolve c.encoding c.source budget).result =
          .ok (entry.bare (some (entry.offset c.encoding)) .empty) ∧
        (entry.resolve c.encoding c.source budget).budget = budget) := by
  intro start before after
  have hsolvent : after.Solvent limit := by
    rw [show after = _ from survey_walk c offset before]
    exact (solvent_walks c earlier (Survey.solvent_start limit)).walk c offset
  refine ⟨?_, hsolvent.total, ?_, ?_, ?_⟩
  · intro hreturn
    have htotal := pays_walks hreturn
    have hlast : start.walks c (earlier ++ [offset]) = (before.walk c offset).2 := by
      rw [walks, List.foldl_append]
      rfl
    rw [hlast] at htotal
    exact htotal
  · intro hok
    obtain ⟨added, hplaced, hpays⟩ := pays_walk hok
    exact ⟨added, hplaced, hpays.remaining.symm⟩
  · intro p hp f hf
    cases hsolvent.accounted p hp f hf with
    | inline hstored hcost => exact .inl ⟨hstored, hcost⟩
    | refused hstored hraw hvalues hcost =>
      exact .inr (.inl ⟨by rw [hstored]; rfl, hraw, hvalues, hcost⟩)
    | loaded hstored htype hraw hcost hle =>
      exact .inr (.inr ⟨by rw [hstored]; rfl, hraw, hle, _, htype, hcost⟩)
  · intro entry budget t ht hfits hrefused
    exact Entry.resolve_of_refused ht hfits hrefused

/-- A directory at offset 2, of one field with four values of two bytes at offset 20. A file of 28
bytes is claimed, of which only `held` are there. -/
def shortField (held : Nat) : Context :=
  let bytes : ByteArray := ⟨#[0, 0, 1, 0, 2, 1, 3, 0, 4, 0, 0, 0, 20, 0, 0, 0, 0, 0, 0, 0,
    8, 0, 8, 0, 8, 0, 8, 0]⟩
  ⟨.window (.ofBytes "field" (bytes.extract 0 held)) 0 28, {}, ⟨.littleEndian, false⟩⟩

theorem walks_conserve_budget_shortField :
    let before := (empty (.ofLimit 1000)).walks (shortField 28) [0]
    let after := (before.walk (shortField 28) 2).2.survey
    (empty (.ofLimit 1000)).WalksReturn (shortField 28) [0, 2] ∧
      after.budget.remaining = 864 ∧ Placement.cost after.placements = 136 := by
  intro before after
  have hreturn : (empty (.ofLimit 1000)).WalksReturn (shortField 28) [0, 2] := by
    refine ⟨?_, ?_, trivial⟩
    · decide +kernel
    · decide +kernel
  have hremaining : after.budget.remaining = 864 := by decide +kernel
  have htotal : after.budget.remaining + Placement.cost after.placements = 1000 :=
    (walks_conserve_budget (shortField 28) 1000 [0] 2).1 hreturn
  exact ⟨hreturn, hremaining, by omega⟩

/-- The budget pays for values before they are read. A walk that fails to read them loses what it
paid, and so it stays after a walk that returns. -/
theorem walks_lose_budget_shortField :
    let failed := (empty (.ofLimit 1000)).walk (shortField 20) 2
    let after := failed.2.walk (shortField 20) 0
    failed.1 ≠ .ok () ∧ after.1 = .ok () ∧ after.2.survey.budget.remaining = 864 ∧
      Placement.cost after.2.survey.placements = 0 := by
  decide +kernel

end Description
end ImageAudit.Tiff
