import ImageAudit.Proofs.Bytes.Cursor
import ImageAudit.Tiff.DirectoryReader

/-! The entries of a directory. What becomes of one entry is described apart from how it is read,
and reading all of them is a list of such steps with the cursor moving on by one entry in each. -/
namespace ImageAudit.Tiff

namespace Entry

def oddFindings (tag offset : Nat) : List Finding :=
  if offset % 2 = 1 then [.oddFieldOffset tag offset] else []

def valueSize (entry : Entry) (t : FieldType) : Nat := t.size * entry.count

def offset (entry : Entry) (e : Encoding) : Nat := e.order.decode entry.valueArea.data.toList

def bare (entry : Entry) (valueOffset : Option Nat) (raw : ByteArray) : Field :=
  ⟨entry.tag, entry.typeId, entry.count, valueOffset, raw, []⟩

/-- What loading the values of an entry comes to: they are refused for a reason that is an error of
this tag, or they are read. -/
inductive Loads (entry : Entry) (t : FieldType) (source : Source) (offset : Nat) :
    Option ByteArray → List Finding → Prop where
  | refused {reason : Finding} : reason.severity = .error →
      reason.args.head? = some (toString entry.tag) →
      Loads entry t source offset none (oddFindings entry.tag offset ++ [reason])
  | read {raw : ByteArray} : source.read offset (entry.valueSize t) = .ok raw →
      Loads entry t source offset (some raw) (oddFindings entry.tag offset)

inductive Resolves (entry : Entry) (e : Encoding) (source : Source) :
    Field → List Finding → Prop where
  | unknown : FieldType.ofId? entry.typeId = none →
      Resolves entry e source (entry.bare none entry.valueArea)
        [.unknownFieldType entry.tag entry.typeId]
  | inline {t : FieldType} : FieldType.ofId? entry.typeId = some t →
      t.fitsInline entry.count e.big = true →
      Resolves entry e source
        (entry.decode e t none (entry.valueArea.extract 0 (entry.valueSize t))).1
        (entry.decode e t none (entry.valueArea.extract 0 (entry.valueSize t))).2
  | refused {t : FieldType} {found : List Finding} : FieldType.ofId? entry.typeId = some t →
      t.fitsInline entry.count e.big = false →
      entry.Loads t source (entry.offset e) none found →
      Resolves entry e source (entry.bare (some (entry.offset e)) .empty) found
  | loaded {t : FieldType} {raw : ByteArray} {found : List Finding} :
      FieldType.ofId? entry.typeId = some t → t.fitsInline entry.count e.big = false →
      entry.Loads t source (entry.offset e) (some raw) found →
      Resolves entry e source (entry.decode e t (some (entry.offset e)) raw).1
        (found ++ (entry.decode e t (some (entry.offset e)) raw).2)

variable {entry : Entry} {e : Encoding} {source : Source} {budget : Budget}

theorem load_ok {t : FieldType} {offset : Nat} {raw : Option ByteArray}
    (h : (entry.load t source offset budget).result = .ok raw) :
    entry.Loads t source offset raw (entry.load t source offset budget).findings := by
  unfold load at h ⊢
  dsimp only at h ⊢
  by_cases hsection : (!source.hasSection offset (t.size * entry.count)) = true
  · rw [if_pos hsection] at h ⊢
    obtain rfl := Except.ok.inj h
    exact .refused rfl rfl
  rw [if_neg hsection] at h ⊢
  by_cases hcharge : maxFieldCharge < saturate (t.charge entry.count)
  · rw [if_pos hcharge] at h ⊢
    obtain rfl := Except.ok.inj h
    exact .refused rfl rfl
  rw [if_neg hcharge] at h ⊢
  cases htake : budget.take? (saturate (t.charge entry.count)) with
  | none =>
    rw [htake] at h
    obtain rfl := Except.ok.inj h
    exact .refused rfl rfl
  | some rest =>
    rw [htake] at h
    cases hread : source.read offset (t.size * entry.count) with
    | error cause =>
      rw [hread] at h
      cases h
    | ok bytes =>
      rw [hread] at h
      obtain rfl := Except.ok.inj h
      exact .read hread

theorem resolve_ok {f : Field} (h : (entry.resolve e source budget).result = .ok f) :
    entry.Resolves e source f (entry.resolve e source budget).findings := by
  rw [resolve] at h ⊢
  cases ht : FieldType.ofId? entry.typeId with
  | none =>
    rw [ht] at h
    obtain rfl := Except.ok.inj h
    exact .unknown ht
  | some t =>
    rw [ht] at h
    dsimp only at h ⊢
    by_cases hfits : t.fitsInline entry.count e.big = true
    · rw [if_pos hfits] at h ⊢
      obtain rfl := Except.ok.inj h
      exact .inline ht hfits
    rw [if_neg hfits] at h ⊢
    have hfits : t.fitsInline entry.count e.big = false := by simpa using hfits
    cases hload : (entry.load t source (entry.offset e) budget).result with
    | error cause =>
      rw [offset] at hload
      rw [hload] at h
      cases h
    | ok raw =>
      have hloads := load_ok hload
      rw [offset] at hload
      rw [hload] at h ⊢
      cases raw with
      | none =>
        obtain rfl := Except.ok.inj h
        exact .refused ht hfits hloads
      | some raw =>
        obtain rfl := Except.ok.inj h
        exact .loaded ht hfits hloads

/-- The entry is what `bytes` store from `start` on: tag, type, count and value area. -/
structure StoredIn (entry : Entry) (e : Encoding) (bytes : List UInt8) (start : Nat) : Prop where
  tag : entry.tag = e.order.intAt bytes start 2
  typeId : entry.typeId = e.order.intAt bytes (start + 2) 2
  count : entry.count = e.order.intAt bytes (start + 4) (Segment.offsetWidth e.big)
  valueArea : entry.valueArea.data.toList =
    bytesAt bytes (start + 4 + Segment.offsetWidth e.big) (FieldType.inlineSize e.big)

theorem size_eq (big : Bool) :
    size big = 2 + 2 + Segment.offsetWidth big + FieldType.inlineSize big := by
  cases big <;> rfl

/-- Reading an entry takes it from where the cursor stands and moves the cursor on by its size. -/
theorem read_of_rest {cursor behind : Segment} {bytes : List UInt8} {start : Nat}
    (hread : read e cursor = (entry, behind)) (horder : cursor.order = e.order)
    (h : cursor.rest = bytes.drop start) (hle : start + size e.big ≤ bytes.length) :
    entry.StoredIn e bytes start ∧ behind.order = e.order ∧
      behind.rest = bytes.drop (start + size e.big) := by
  rw [size_eq] at hle ⊢
  rw [read] at hread
  cases htag : cursor.uint 2 with | mk tag c₁ => ?_
  cases htype : c₁.uint 2 with | mk typeId c₂ => ?_
  cases hcount : c₂.offsetValue e.big with | mk count c₃ => ?_
  cases harea : c₃.getData (FieldType.inlineSize e.big) with | mk valueArea c₄ => ?_
  simp only [htag, htype, hcount, harea] at hread
  obtain ⟨rfl, rfl⟩ := Prod.mk.inj hread
  obtain ⟨htag, ho₁, hr⟩ := Segment.uint_of_rest htag h (by omega)
  obtain ⟨htype, ho₂, hr⟩ := Segment.uint_of_rest htype hr (by omega)
  obtain ⟨hcount, ho₃, hr⟩ := Segment.uint_of_rest hcount hr (by omega)
  obtain ⟨harea, ho₄, hr⟩ := Segment.getData_of_rest harea hr
  rw [horder] at htag ho₁
  rw [ho₁] at htype ho₂
  rw [ho₂] at hcount ho₃
  refine ⟨⟨htag, htype, hcount, harea⟩, ho₄.trans ho₃, ?_⟩
  rw [hr]
  simp only [Nat.add_assoc]

end Entry

namespace Intake

structure TakesIn (c : Context) (s : Intake) (f : Field) (found : List Finding) (t : Intake) :
    Prop where
  resolves : (Entry.read c.encoding s.cursor).1.Resolves c.encoding c.source f found
  cursor : t.cursor = (Entry.read c.encoding s.cursor).2
  fields : t.fields.toList = s.fields.toList ++ [f]
  findings : t.findings.toList = s.findings.toList ++ found ++
    (FieldRules.orderFindings (s.fields.toList.getLast?.map (·.tag)) f.tag ++ FieldRules.check f)

inductive Runs (c : Context) : Intake → List Field → Intake → Prop where
  | done {s : Intake} : Runs c s [] s
  | next {s t u : Intake} {f : Field} {fs : List Field} {found : List Finding} :
      TakesIn c s f found t → Runs c t fs u → Runs c s (f :: fs) u

variable {c : Context} {s t : Intake}

theorem step_ok (h : s.step c = (.ok (), t)) : ∃ f found, TakesIn c s f found t := by
  rw [step] at h
  simp only [Field.read] at h
  cases hr : ((Entry.read c.encoding s.cursor).1.resolve c.encoding c.source s.budget).result with
  | error cause =>
    rw [hr] at h
    cases (Prod.mk.inj h).1
  | ok f =>
    rw [hr] at h
    obtain rfl := (Prod.mk.inj h).2
    refine ⟨f, _, Entry.resolve_ok hr, rfl, ?_, ?_⟩
    · simp [accept]
    · simp [accept, Array.back?_eq_getElem?, List.getLast?_eq_getElem?]

theorem run_ok {count : Nat} (h : s.run c count = (.ok (), t)) :
    ∃ fs, fs.length = count ∧ Runs c s fs t := by
  induction count generalizing s with
  | zero =>
    obtain rfl := (Prod.mk.inj h).2
    exact ⟨[], rfl, .done⟩
  | succ count ih =>
    rw [run] at h
    split at h
    · cases (Prod.mk.inj h).1
    · next hstep =>
      obtain ⟨f, found, htake⟩ := step_ok hstep
      obtain ⟨fs, hlength, hruns⟩ := ih h
      exact ⟨f :: fs, congrArg Nat.succ hlength, .next htake hruns⟩

theorem Runs.fields {fs : List Field} (h : Runs c s fs t) :
    t.fields.toList = s.fields.toList ++ fs := by
  induction h with
  | done => exact (List.append_nil _).symm
  | next htake _ ih => rw [ih, htake.fields, List.append_assoc, List.singleton_append]

theorem Runs.findings {fs : List Field} (h : Runs c s fs t) :
    s.findings.toList ⊆ t.findings.toList := by
  induction h with
  | done => exact List.Subset.refl _
  | next htake _ ih =>
    refine List.Subset.trans ?_ ih
    rw [htake.findings, List.append_assoc]
    exact List.subset_append_left _ _

end Intake
end ImageAudit.Tiff
