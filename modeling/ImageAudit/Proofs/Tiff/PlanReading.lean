import ImageAudit.Proofs.Jpeg.Agreement
import ImageAudit.Proofs.Tiff.Blank
import ImageAudit.Proofs.Tiff.Entries
import ImageAudit.Proofs.Tiff.Plan
import Mathlib.Data.List.Basic

/-! Reading planned directories. With either byte order the file of a plan yields the entries that
were planned, so two such files give directories that differ at most in the order of bytes. -/
namespace ImageAudit

/-- Bytes that stand in what a source holds are read from it. -/
theorem Source.Holds.read_of_standsAt {source : Source} {content bytes : List UInt8}
    {offset count : Nat} (h : source.Holds content) (hstands : StandsAt bytes content offset)
    (hcount : bytes.length = count) :
    source.hasSection offset count = true ∧ source.read offset count = .ok ⟨bytes.toArray⟩ := by
  subst hcount
  exact ⟨h.hasSection_iff.mpr hstands.le, h.read_iff.mpr ⟨List.size_toArray, hstands⟩⟩

namespace Tiff

namespace FieldType

theorem size_eq (t : FieldType) : t.size = t.components * t.componentSize := by
  cases t <;> rfl

def Fits (t : FieldType) (numbers : List Nat) : Prop :=
  numbers.length = t.components ∧ ∀ n ∈ numbers, n < Nat.pow 256 t.componentSize

variable {t : FieldType} {numbers : List Nat} {values : List (List Nat)}

theorem length_encode (h : t.Fits numbers) (order : ByteOrder) :
    (t.encode order numbers).length = t.size := by
  rw [encode, length_flatMap_of_forall fun n _ => order.length_encode _ n, h.1, t.size_eq,
    Nat.mul_comm]

theorem length_flatMap_encode (h : ∀ numbers ∈ values, t.Fits numbers) (order : ByteOrder) :
    (values.flatMap (t.encode order)).length = t.size * values.length :=
  length_flatMap_of_forall fun numbers hmem => length_encode (h numbers hmem) order

/-- A value is the same in both orders. -/
theorem decode_encode (h : t.Fits numbers) (order : ByteOrder) :
    t.decode order (t.encode order numbers) = t.value numbers := by
  obtain ⟨hlength, hlt⟩ := h
  cases t <;>
    first
    | obtain ⟨n, rfl⟩ := List.length_eq_one_iff.mp hlength
      have hn := ByteOrder.decode_encode order _ n (hlt n (List.mem_singleton_self n))
      simp only [decode, encode, List.flatMap_singleton, componentSize] at hn ⊢
      rw [hn]
      rfl
    | obtain ⟨n, d, rfl⟩ := List.length_eq_two.mp hlength
      rw [List.forall_mem_cons, List.forall_mem_singleton] at hlt
      have hn := ByteOrder.decode_encode order 4 n hlt.1
      have hd := ByteOrder.decode_encode order 4 d hlt.2
      have hsplit := ByteOrder.length_encode order 4 n
      simp only [decode, ratio?, encode, List.flatMap_cons, List.flatMap_nil, List.append_nil,
        componentSize, List.take_left' hsplit, List.drop_left' hsplit, hn, hd]
      rfl

/-- So is the fraction of a rational. -/
theorem ratio?_encode (h : t.Fits numbers) (order order' : ByteOrder) :
    t.ratio? order (t.encode order numbers) = t.ratio? order' (t.encode order' numbers) := by
  obtain ⟨hlength, hlt⟩ := h
  cases t <;>
    first
    | rfl
    | obtain ⟨n, d, rfl⟩ := List.length_eq_two.mp hlength
      rw [List.forall_mem_cons, List.forall_mem_singleton] at hlt
      simp only [ratio?, encode, List.flatMap_cons, List.flatMap_nil, List.append_nil,
        componentSize, List.take_left' (ByteOrder.length_encode _ 4 n),
        List.drop_left' (ByteOrder.length_encode _ 4 n), ByteOrder.decode_encode _ 4 _ hlt.1,
        ByteOrder.decode_encode _ 4 _ hlt.2]

/-- Stored values are cut apart again. -/
theorem elements_encode (h : ∀ numbers ∈ values, t.Fits numbers) (order : ByteOrder) :
    t.elements ⟨(values.flatMap (t.encode order)).toArray⟩ = values.map (t.encode order) := by
  have hpos := t.size_pos
  have hsize : (⟨(values.flatMap (t.encode order)).toArray⟩ : ByteArray).size / t.size =
      values.length := by
    rw [ByteArray.size, List.size_toArray, length_flatMap_encode h,
      Nat.mul_div_cancel_left _ hpos]
  have hcut : ∀ i, ((⟨(values.flatMap (t.encode order)).toArray⟩ : ByteArray).extract (i * t.size)
      (i * t.size + t.size)).data.toList =
        ((values.flatMap (t.encode order)).drop (i * t.size)).take t.size := by
    intro i
    rw [ByteArray.data_extract, Array.toList_extract, List.extract_eq_take_drop,
      Nat.add_sub_cancel_left]
  simp only [elements, hsize, hcut]
  clear hsize hcut
  induction values with
  | nil => rfl
  | cons numbers values ih =>
    rw [List.forall_mem_cons] at h
    have hlength := length_encode h.1 order
    rw [List.length_cons, List.range_succ_eq_map, List.map_cons, List.map_map, List.map_cons,
      ← ih h.2, List.flatMap_cons]
    congr 1
    · rw [Nat.zero_mul, List.drop_zero, List.take_left' hlength]
    · apply List.map_congr_left
      intro i _
      rw [Function.comp_apply, Nat.succ_mul, Nat.add_comm, ← List.drop_drop,
        List.drop_left' hlength]

end FieldType

namespace PlannedEntry

variable {x : PlannedEntry} {big : Bool} {fileLength : Nat} {order : ByteOrder}

theorem Valid.fits (h : x.Valid big fileLength) : ∀ numbers ∈ x.place.values, x.type.Fits numbers :=
  h.numbers

theorem length_raw (h : x.Valid big fileLength) (order : ByteOrder) :
    (x.raw order).length = x.type.size * x.place.values.length :=
  FieldType.length_flatMap_encode h.fits order

theorem length_valueArea (h : x.Valid big fileLength) (order : ByteOrder) :
    (x.valueArea order big).length = FieldType.inlineSize big := by
  have hraw := length_raw h order
  have hplace := h.place
  unfold valueArea
  cases hp : x.place with
  | inline values padding =>
    rw [hp] at hplace hraw
    rw [List.length_append, hraw]
    exact hplace
  | region values offset => exact ByteOrder.length_encode _ _ _
  | nowhere count offset => exact ByteOrder.length_encode _ _ _

def stored (x : PlannedEntry) (order : ByteOrder) (big : Bool) : Entry :=
  ⟨x.tag, x.type.id, x.place.count, ⟨(x.valueArea order big).toArray⟩⟩

/-- A planned entry is read as it is stored. -/
theorem read_stored (h : x.Valid big fileLength) {cursor : Segment} {more : List UInt8}
    (horder : cursor.order = order) (hrest : cursor.rest = x.bytes order big ++ more) :
    (Entry.read ⟨order, big⟩ cursor).1 = x.stored order big ∧
      (Entry.read ⟨order, big⟩ cursor).2.order = order ∧
      (Entry.read ⟨order, big⟩ cursor).2.rest = more := by
  have hid : x.type.id < Nat.pow 256 2 := by cases x.type <;> decide
  simp only [bytes, List.append_assoc] at hrest
  subst horder
  obtain ⟨htag, hrest⟩ := Segment.uint_of_encode hrest h.tag_lt
  have horder₁ := cursor.order_uint 2
  rw [← horder₁] at hrest
  obtain ⟨htype, hrest⟩ := Segment.uint_of_encode hrest hid
  have horder₂ := ((cursor.uint 2).2.order_uint 2).trans horder₁
  rw [horder₁, ← horder₂] at hrest
  obtain ⟨hcount, hrest⟩ := Segment.uint_of_encode hrest h.count_lt
  have horder₃ :=
    ((((cursor.uint 2).2.uint 2).2).order_uint (Segment.offsetWidth big)).trans horder₂
  obtain ⟨harea, hrest⟩ := Segment.getData_of_append hrest
  rw [horder₂, length_valueArea h] at harea hrest
  refine ⟨?_, horder₃, hrest⟩
  simp only [Entry.read, stored, htag, htype, Segment.offsetValue, hcount, harea]

def field (x : PlannedEntry) (order : ByteOrder) (valueOffset : Option Nat) : Field :=
  ⟨x.tag, x.type.id, x.place.count, valueOffset, ⟨(x.raw order).toArray⟩, x.decoded⟩

def ratioFindings (x : PlannedEntry) (order : ByteOrder) : List Finding :=
  x.place.values.filterMap fun numbers =>
    x.type.ratioFinding? order x.tag (x.type.encode order numbers)

theorem ratioFindings_eq (h : x.Valid big fileLength) (order order' : ByteOrder) :
    x.ratioFindings order = x.ratioFindings order' := by
  apply List.filterMap_congr
  intro numbers hmem
  rw [FieldType.ratioFinding?, FieldType.ratio?_encode (h.fits numbers hmem) order order']
  rfl

theorem decode_stored (h : x.Valid big fileLength) (valueOffset : Option Nat) :
    (x.stored order big).decode ⟨order, big⟩ x.type valueOffset ⟨(x.raw order).toArray⟩ =
      (x.field order valueOffset, x.ratioFindings order) := by
  have helements := FieldType.elements_encode h.fits order
  simp only [Entry.decode, raw, helements, field, stored, List.map_map, ratioFindings,
    List.filterMap_map, decoded]
  congr 2
  apply List.map_congr_left
  intro numbers hmem
  exact FieldType.decode_encode (h.fits numbers hmem) order

/-- Fields of the same planned entry in two orders differ in the order of bytes alone. -/
theorem blank_field (h : x.Valid big fileLength) (hcount : x.place.count = x.place.values.length)
    (order order' : ByteOrder) (valueOffset : Option Nat) :
    (x.field order valueOffset).blank = (x.field order' valueOffset).blank := by
  have hsize : ∀ order, (x.field order valueOffset).raw.size =
      x.type.size * x.place.values.length := fun order =>
    (List.size_toArray).trans (length_raw h order)
  refine Field.blank_eq_blank rfl rfl rfl rfl rfl ((hsize order).trans (hsize order').symm) ?_
  by_cases hone : x.type.size = 1
  · left
    have hencode : x.type.encode order = x.type.encode order' := by
      have hcomponent : x.type.componentSize = 1 := by
        cases htype : x.type <;> simp_all [FieldType.size, FieldType.componentSize]
      funext numbers
      rw [FieldType.encode, FieldType.encode, hcomponent]
      cases order <;> cases order' <;> rfl
    simp only [field, raw, hencode]
  · by_cases hnone : x.place.values.length = 0
    · left
      rw [List.length_eq_zero_iff] at hnone
      simp only [field, raw, hnone, List.flatMap_nil]
    · right
      have hpos := x.type.size_pos
      have hwide : 1 < x.type.size := by omega
      refine ⟨?_, ?_⟩
      · have hid : FieldType.ofId? x.type.id = some x.type := by cases x.type <;> rfl
        simp [Field.isWide, Field.fieldType?, field, hid, hwide]
      · rw [hsize]
        change _ ≠ x.place.count
        rw [hcount]
        have := Nat.mul_lt_mul_of_pos_right hwide (Nat.pos_of_ne_zero hnone)
        omega

def bare (x : PlannedEntry) (valueOffset : Option Nat) : Field :=
  ⟨x.tag, x.type.id, x.place.count, valueOffset, .empty, []⟩

private theorem ofId?_id (t : FieldType) : FieldType.ofId? t.id = some t := by
  cases t <;> rfl

variable {values : List (List Nat)} {offset : Nat} {source : Source} {budget : Budget}

/-- Values in the entry are decoded from it. -/
theorem resolve_inline (h : x.Valid big fileLength) {padding : List UInt8}
    (hp : x.place = .inline values padding) :
    (x.stored order big).resolve ⟨order, big⟩ source budget =
      ⟨.ok (x.field order none), x.ratioFindings order, budget⟩ := by
  have hplace := h.place
  have hlength := length_raw h order
  rw [hp] at hplace hlength
  have hfits : x.type.fitsInline x.place.count big = true := by
    rw [hp, FieldType.fitsInline, decide_eq_true_iff, ← hplace]
    exact Nat.le_add_right _ _
  have hraw : (x.stored order big).valueArea.extract 0 (x.type.size * x.place.count) =
      ⟨(x.raw order).toArray⟩ := by
    apply ByteArray.ext
    apply Array.toList_inj.mp
    rw [ByteArray.data_extract, Array.toList_extract, List.extract_eq_take_drop, List.drop_zero,
      Nat.sub_zero, hp]
    change ((x.valueArea order big).take _) = x.raw order
    rw [valueArea, hp]
    exact List.take_left' hlength
  have hdecode : (x.stored order big).decode ⟨order, big⟩ x.type none ⟨(x.raw order).toArray⟩ =
      (x.field order none, x.ratioFindings order) := decode_stored h none
  have hid : FieldType.ofId? (x.stored order big).typeId = some x.type := ofId?_id x.type
  have hfits' : x.type.fitsInline (x.stored order big).count big = true := hfits
  simp only [Entry.resolve, hid, hfits', reduceIte]
  rw [show (x.stored order big).count = x.place.count from rfl, hraw, hdecode]

/-- The offset of values that are not in the entry is read as it was planned. -/
theorem decode_valueArea (harea : x.valueArea order big =
      order.encode (Segment.offsetWidth big) offset)
    (hoffset : offset < Nat.pow 256 (Segment.offsetWidth big)) :
    order.decode (x.stored order big).valueArea.data.toList = offset := by
  change order.decode (x.valueArea order big) = offset
  rw [harea]
  exact ByteOrder.decode_encode _ _ _ hoffset

/-- Values that are not in the entry are decoded if they are loaded. -/
theorem resolve_of_load (h : x.Valid big fileLength)
    (hfits : x.type.fitsInline x.place.count big = false)
    (harea : order.decode (x.stored order big).valueArea.data.toList = offset)
    {found : List Finding} {rest : Budget} :
    ((x.stored order big).load x.type source offset budget = ⟨.ok none, found, rest⟩ →
      (x.stored order big).resolve ⟨order, big⟩ source budget =
        ⟨.ok (x.bare (some offset)), found, rest⟩) ∧
    ((x.stored order big).load x.type source offset budget =
        ⟨.ok (some ⟨(x.raw order).toArray⟩), found, rest⟩ →
      (x.stored order big).resolve ⟨order, big⟩ source budget =
        ⟨.ok (x.field order (some offset)), found ++ x.ratioFindings order, rest⟩) := by
  have hid : FieldType.ofId? (x.stored order big).typeId = some x.type := ofId?_id x.type
  have hfits' : x.type.fitsInline (x.stored order big).count big = false := hfits
  constructor <;> intro hload
  · simp only [Entry.resolve, hid, hfits', harea, hload, Bool.false_eq_true, reduceIte]
    rfl
  · simp only [Entry.resolve, hid, hfits', harea, hload, Bool.false_eq_true, reduceIte,
      decode_stored h]

def FoundIn (x : PlannedEntry) (source : Source) (order : ByteOrder) (offset : Nat) : Prop :=
  source.hasSection offset (x.raw order).length = true ∧
    source.read offset (x.raw order).length = .ok ⟨(x.raw order).toArray⟩

/-- Whether values are loaded from their region does not depend on the order of their bytes. -/
theorem load_region_cases (h : x.Valid big fileLength)
    (hcount : x.place.count = x.place.values.length) (offset : Nat) (budget : Budget) :
    ∃ found rest,
      (∀ order source, x.FoundIn source order offset →
        (x.stored order big).load x.type source offset budget = ⟨.ok none, found, rest⟩) ∨
      (∀ order source, x.FoundIn source order offset →
        (x.stored order big).load x.type source offset budget =
          ⟨.ok (some ⟨(x.raw order).toArray⟩), found, rest⟩) := by
  have hlength := length_raw h
  have hstored : ∀ order, (x.stored order big).count = x.place.values.length := fun _ => hcount
  have htag : ∀ order, (x.stored order big).tag = x.tag := fun _ => rfl
  obtain ⟨charge, hcharge⟩ : ∃ charge, saturate (x.type.charge x.place.values.length) = charge :=
    ⟨_, rfl⟩
  by_cases hlarge : maxFieldCharge < charge
  · refine ⟨Entry.oddFindings x.tag offset ++ [.fieldDataTooLarge x.tag charge maxFieldCharge],
      budget, .inl fun order source hfound => ?_⟩
    rw [FoundIn, hlength] at hfound
    simp only [Entry.load, hstored, htag, hfound.1, hcharge, hlarge, Bool.not_true,
      Bool.false_eq_true, reduceIte, Entry.oddFindings]
  · cases htake : budget.take? charge with
    | none =>
      refine ⟨Entry.oddFindings x.tag offset ++
          [.budgetExhausted x.tag charge budget.remaining budget.limit],
        budget, .inl fun order source hfound => ?_⟩
      rw [FoundIn, hlength] at hfound
      simp only [Entry.load, hstored, htag, hfound.1, hcharge, hlarge, htake, Bool.not_true,
        Bool.false_eq_true, reduceIte, Entry.oddFindings]
    | some rest =>
      refine ⟨Entry.oddFindings x.tag offset, rest, .inr fun order source hfound => ?_⟩
      rw [FoundIn, hlength] at hfound
      simp only [Entry.load, hstored, htag, hfound.1, hfound.2, hcharge, hlarge, htake,
        Bool.not_true, Bool.false_eq_true, reduceIte, Except.map, Entry.oddFindings]

def Shows (x : PlannedEntry) (f : Field) : Prop :=
  f.tag = x.tag ∧ (f.values = [] ∨ f.values = x.decoded)

/-- What became of a planned entry in two files that differ in the order of bytes alone. -/
def Resolved (x : PlannedEntry) (r s : Loaded Field) : Prop :=
  ∃ f g, r.result = .ok f ∧ s.result = .ok g ∧ f.blank = g.blank ∧ x.Shows f ∧
    r.findings = s.findings ∧ r.budget = s.budget

/-- Both files yield the entry alike. -/
theorem resolved_stored {s₁ s₂ : Source} (h : x.Valid big s₁.length)
    (hlength : s₁.length = s₂.length) (order₁ order₂ : ByteOrder)
    (hfound : ∀ values offset, x.place = .region values offset →
      x.FoundIn s₁ order₁ offset ∧ x.FoundIn s₂ order₂ offset) (budget : Budget) :
    x.Resolved ((x.stored order₁ big).resolve ⟨order₁, big⟩ s₁ budget)
      ((x.stored order₂ big).resolve ⟨order₂, big⟩ s₂ budget) := by
  have hplace := h.place
  cases hp : x.place with
  | inline values padding =>
    have hcount : x.place.count = x.place.values.length := by rw [hp]; rfl
    rw [resolve_inline h hp, resolve_inline h hp, ratioFindings_eq h order₂ order₁]
    exact ⟨_, _, rfl, rfl, blank_field h hcount order₁ order₂ none, ⟨rfl, .inr rfl⟩, rfl, rfl⟩
  | nowhere count offset =>
    rw [hp] at hplace
    obtain ⟨hfits, hoffset, hwindow⟩ := hplace
    have hcount : x.place.count = count := by rw [hp]; rfl
    have harea : ∀ order : ByteOrder, order.decode (x.stored order big).valueArea.data.toList = offset :=
      fun order => decode_valueArea (by rw [valueArea, hp]) hoffset
    have hload : ∀ (order : ByteOrder) (source : Source), source.length = s₁.length →
        (x.stored order big).load x.type source offset budget =
          ⟨.ok none, Entry.oddFindings x.tag offset ++
            [.invalidFieldWindow x.tag offset (Entry.shownSize (x.type.size * count)) s₁.length],
            budget⟩ := by
      intro order source hsource
      have hsection : source.hasSection offset (x.type.size * count) = false := by
        rw [Source.hasSection, hsource]
        exact hwindow
      have hstored : (x.stored order big).count = count := hcount
      simp only [Entry.load, hstored, hsection, hsource, Bool.not_false, reduceIte]
      rfl
    rw [hcount.symm] at hfits
    rw [(resolve_of_load h hfits (harea order₁)).1 (hload order₁ s₁ rfl),
      (resolve_of_load h hfits (harea order₂)).1 (hload order₂ s₂ hlength.symm)]
    exact ⟨_, _, rfl, rfl, rfl, ⟨rfl, .inl rfl⟩, rfl, rfl⟩
  | region values offset =>
    rw [hp] at hplace
    obtain ⟨hfits, hoffset⟩ := hplace
    have hcount : x.place.count = x.place.values.length := by rw [hp]; rfl
    have harea : ∀ order : ByteOrder, order.decode (x.stored order big).valueArea.data.toList = offset :=
      fun order => decode_valueArea (by rw [valueArea, hp]) hoffset
    have hfits : x.type.fitsInline x.place.count big = false := by rw [hp]; exact hfits
    obtain ⟨hfound₁, hfound₂⟩ := hfound values offset hp
    obtain ⟨found, rest, hload | hload⟩ := load_region_cases h hcount offset budget
    · rw [(resolve_of_load h hfits (harea order₁)).1 (hload order₁ s₁ hfound₁),
        (resolve_of_load h hfits (harea order₂)).1 (hload order₂ s₂ hfound₂)]
      exact ⟨_, _, rfl, rfl, rfl, ⟨rfl, .inl rfl⟩, rfl, rfl⟩
    · rw [(resolve_of_load h hfits (harea order₁)).2 (hload order₁ s₁ hfound₁),
        (resolve_of_load h hfits (harea order₂)).2 (hload order₂ s₂ hfound₂),
        ratioFindings_eq h order₂ order₁]
      exact ⟨_, _, rfl, rfl, blank_field h hcount order₁ order₂ _, ⟨rfl, .inr rfl⟩, rfl, rfl⟩

end PlannedEntry
end Tiff
end ImageAudit
