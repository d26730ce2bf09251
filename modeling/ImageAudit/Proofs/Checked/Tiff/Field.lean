import ImageAudit.Proofs.Checked.Input
import ImageAudit.Proofs.Tiff.Entries

/-! Reading fields with operations that can go wrong. Values are read one after another behind a
cursor. No value has size zero, and no rational is divided that has no denominator. -/
namespace ImageAudit.Tiff

open Checked

namespace FieldType

def ratio (t : FieldType) (numerator denominator : Nat) : Int × Int :=
  if t.isSigned then (signed 4 numerator, signed 4 denominator) else (numerator, denominator)

def checkedValue (t : FieldType) (tag : Nat) (cursor : Segment) :
    Checked ((Value × Option Finding) × Segment) :=
  if t = .rational ∨ t = .srational then do
    let (numerator, cursor) ← cursor.checkedUint 4
    let (denominator, cursor) ← cursor.checkedUint 4
    let (numerator, denominator) := t.ratio numerator denominator
    if denominator = 0 then
      let finding := if numerator = 0 then none else some (.denominatorZero tag numerator)
      pure ((.integer 0, finding), cursor)
    else do
      let value ← Checked.quotient signedQuad numerator denominator
      pure ((.integer value, none), cursor)
  else do
    let (bytes, next) ← cursor.checkedGetData t.size
    pure ((t.decode cursor.order bytes.data.toList, none), next)

def checkedValues (t : FieldType) (tag : Nat) :
    (count : Nat) → Segment → Checked (List Value × List Finding)
  | 0, _ => pure ([], [])
  | count + 1, cursor => do
    let ((value, finding), cursor) ← t.checkedValue tag cursor
    let (values, findings) ← t.checkedValues tag count cursor
    pure (value :: values, finding.toList ++ findings)

def pieces (size : Nat) : (count : Nat) → List UInt8 → List (List UInt8)
  | 0, _ => []
  | count + 1, bytes => bytes.take size :: pieces size count (bytes.drop size)

private theorem pieces_eq (size count : Nat) (bytes : List UInt8) :
    pieces size count bytes =
      (List.range count).map fun i => (bytes.drop (i * size)).take size := by
  induction count generalizing bytes with
  | zero => rfl
  | succ count ih =>
    rw [pieces, ih, List.range_succ_eq_map, List.map_cons, List.map_map, Nat.zero_mul,
      List.drop_zero]
    congr 2
    funext i
    rw [Function.comp_apply, List.drop_drop, Nat.succ_mul, Nat.add_comm size]

theorem elements_eq (t : FieldType) (raw : ByteArray) :
    t.elements raw = pieces t.size (raw.size / t.size) raw.data.toList := by
  rw [pieces_eq, elements]
  congr 1
  funext i
  rw [ByteArray.data_extract, Array.toList_extract, List.extract_eq_take_drop,
    Nat.add_sub_cancel_left]

variable {t : FieldType} {cursor : Segment}

private theorem size_of_ratio (h : t = .rational ∨ t = .srational) : t.size = 8 := by
  rcases h with rfl | rfl <;> rfl

private theorem ratio_eq (h : t = .rational ∨ t = .srational) (order : ByteOrder)
    (bytes : List UInt8) : t.ratio? order bytes =
      some (t.ratio (order.decode (bytes.take 4)) (order.decode (bytes.drop 4))) := by
  rcases h with rfl | rfl <;> rfl

private theorem ratio?_of_not (h : ¬ (t = .rational ∨ t = .srational)) (order : ByteOrder)
    (bytes : List UInt8) : t.ratio? order bytes = none := by
  cases t <;> first | rfl | simp at h

/-- Numerators and denominators have 32 bits. -/
private theorem ratio_fits {numerator denominator : Nat} (hn : numerator ≤ maxLong) :
    -signedQuad < (t.ratio numerator denominator).1 ∧
      (t.ratio numerator denominator).1 < signedQuad := by
  have hlong : maxLong = 0xFFFFFFFF := rfl
  have hquad : signedQuad = 0x80000000000000000000000000000000 := rfl
  rw [ratio]
  split
  · dsimp only
    rw [signed]
    split <;> omega
  · dsimp only
    omega

/-- A rational is the quotient of its numerator and its denominator, with a finding where there is
none. -/
private theorem decode_ratio (h : t = .rational ∨ t = .srational) (order : ByteOrder) (tag : Nat)
    (bytes : List UInt8) {numerator denominator : Int}
    (hratio : t.ratio (order.decode (bytes.take 4)) (order.decode (bytes.drop 4)) =
      (numerator, denominator)) :
    t.decode order bytes = .integer (quotient numerator denominator) ∧
      t.ratioFinding? order tag bytes =
        if denominator = 0 then
          if numerator = 0 then none else some (.denominatorZero tag numerator)
        else none := by
  have hsome := ratio_eq h order bytes
  rw [hratio] at hsome
  constructor
  · rcases h with rfl | rfl <;> rw [decode, hsome]
  · rw [ratioFinding?, hsome]
    split
    · next heq =>
      obtain ⟨rfl, rfl⟩ := Prod.mk.inj (Option.some.inj heq)
      rfl
    · next hnot => rw [if_neg fun hzero => hnot _ (by rw [hzero])]

private theorem uint_uint (hleft : 8 ≤ cursor.left) :
    (cursor.uint 4).1 = cursor.order.decode ((cursor.rest.take 8).take 4) ∧
      ((cursor.uint 4).2.uint 4).1 = cursor.order.decode ((cursor.rest.take 8).drop 4) ∧
      ((cursor.uint 4).2.uint 4).2 = (cursor.getData 8).2 := by
  have hnext : 4 ≤ (cursor.uint 4).2.left := by
    rw [Segment.left_uint]
    omega
  refine ⟨?_, ?_, ?_⟩
  · rw [cursor.uint_eq (by omega), List.take_take]
    rfl
  · rw [(cursor.uint 4).2.uint_eq hnext, Segment.rest_uint, Segment.order_uint, List.drop_take]
  · simp only [Segment.uint, Segment.getData]
    congr 1
    omega

theorem checkedValue_eq (h : cursor.Sound) (hleft : t.size ≤ cursor.left) (tag : Nat) :
    t.checkedValue tag cursor =
      pure ((t.decode cursor.order (cursor.rest.take t.size),
        t.ratioFinding? cursor.order tag (cursor.rest.take t.size)), (cursor.getData t.size).2) := by
  rw [checkedValue]
  split
  · next hkind =>
    rw [size_of_ratio hkind] at hleft ⊢
    obtain ⟨hnumerator, hdenominator, hnext⟩ := uint_uint hleft
    have hlong : (cursor.uint 4).1 ≤ maxLong := Nat.le_of_lt_succ (cursor.uint_lt 4)
    have hfits := @ratio_fits t _ ((cursor.uint 4).2.uint 4).1 hlong
    simp only [Segment.checkedUint_eq, Segment.sound_uint, h, h.size_le, pure_bind, hnext]
    rw [hnumerator, hdenominator] at hfits ⊢
    cases hratio : t.ratio (cursor.order.decode ((cursor.rest.take 8).take 4))
        (cursor.order.decode ((cursor.rest.take 8).drop 4)) with
    | mk numerator denominator =>
      rw [hratio] at hfits
      obtain ⟨hvalue, hfinding⟩ := decode_ratio hkind cursor.order tag _ hratio
      rw [hvalue, hfinding, quotient]
      dsimp only
      split
      · rfl
      · next hnonzero => rw [quotient_eq hnonzero hfits.1 hfits.2, pure_bind]
  · next hnot =>
    rw [Segment.checkedGetData_eq h, pure_bind, ratioFinding?, ratio?_of_not hnot]
    dsimp only
    rw [Segment.toList_getData]

/-- Values that are read one after another are those of the pieces. -/
theorem checkedValues_eq {count : Nat} (h : cursor.Sound) (hleft : count * t.size ≤ cursor.left)
    (tag : Nat) : t.checkedValues tag count cursor =
      pure ((pieces t.size count cursor.rest).map (t.decode cursor.order),
        (pieces t.size count cursor.rest).filterMap (t.ratioFinding? cursor.order tag)) := by
  induction count generalizing cursor with
  | zero => rfl
  | succ count ih =>
    rw [Nat.succ_mul] at hleft
    have hnext : (cursor.getData t.size).2.Sound := (Segment.sound_getData _ _).mpr h.size_le
    have hmore := @ih _ hnext (by rw [Segment.left_getData]; omega)
    rw [Segment.rest_getData, Segment.order_getData] at hmore
    rw [checkedValues, checkedValue_eq h (by omega), pure_bind]
    dsimp only
    rw [hmore, pure_bind, pieces, List.map_cons, List.filterMap_cons]
    cases t.ratioFinding? cursor.order tag (cursor.rest.take t.size) <;> rfl

end FieldType

namespace Entry

def checkedRead (e : Encoding) (cursor : Segment) : Checked (Entry × Segment) := do
  let (tag, cursor) ← cursor.checkedUint 2
  let (typeId, cursor) ← cursor.checkedUint 2
  let (count, cursor) ← cursor.checkedOffsetValue e.big
  let (valueArea, cursor) ← cursor.checkedGetData (FieldType.inlineSize e.big)
  pure (⟨tag, typeId, count, valueArea⟩, cursor)

def checkedDecode (entry : Entry) (e : Encoding) (t : FieldType) (valueOffset : Option Nat)
    (raw : ByteArray) : Checked (Field × List Finding) := do
  let count ← div raw.size t.size
  let (values, findings) ← t.checkedValues entry.tag count ⟨0, raw, e.order, 0⟩
  pure (⟨entry.tag, entry.typeId, entry.count, valueOffset, raw, values⟩, findings)

def checkedLoad (entry : Entry) (t : FieldType) (input : Input) (offset : Nat)
    (budget : Budget) : Checked (Loaded (Option ByteArray)) :=
  let odd := if offset % 2 = 1 then [Finding.oddFieldOffset entry.tag offset] else []
  let size := t.size * entry.count
  let charge := saturate (t.charge entry.count)
  if !input.source.hasSection offset size then
    pure ⟨.ok none, odd ++ [.invalidFieldWindow entry.tag offset (shownSize size)
      input.source.length], budget⟩
  else if maxFieldCharge < charge then
    pure ⟨.ok none, odd ++ [.fieldDataTooLarge entry.tag charge maxFieldCharge], budget⟩
  else match budget.take? charge with
    | none => pure ⟨.ok none, odd ++ [.budgetExhausted entry.tag charge budget.remaining
        budget.limit], budget⟩
    | some budget => do
      let bytes ← input.read offset size
      pure ⟨bytes.map some, odd, budget⟩

def checkedResolve (entry : Entry) (e : Encoding) (input : Input) (budget : Budget) :
    Checked (Loaded Field) :=
  let bare (valueOffset : Option Nat) (raw : ByteArray) : Field :=
    ⟨entry.tag, entry.typeId, entry.count, valueOffset, raw, []⟩
  match FieldType.ofId? entry.typeId with
  | none =>
    pure ⟨.ok (bare none entry.valueArea), [.unknownFieldType entry.tag entry.typeId], budget⟩
  | some t =>
    if t.fitsInline entry.count e.big then do
      let size ← mul maxWord t.size entry.count
      let raw ← slice entry.valueArea 0 (min size entry.valueArea.size)
      let (field, findings) ← entry.checkedDecode e t none raw
      pure ⟨.ok field, findings, budget⟩
    else do
      let offset := e.order.decode entry.valueArea.data.toList
      let loaded ← entry.checkedLoad t input offset budget
      match loaded.result with
      | .error error => pure ⟨.error error, loaded.findings, loaded.budget⟩
      | .ok none => pure ⟨.ok (bare (some offset) .empty), loaded.findings, loaded.budget⟩
      | .ok (some raw) => do
        let (field, findings) ← entry.checkedDecode e t (some offset) raw
        pure ⟨.ok field, loaded.findings ++ findings, loaded.budget⟩

variable {e : Encoding} {cursor : Segment} {entry : Entry} {input : Input}

theorem checkedRead_eq (h : cursor.Sound) : checkedRead e cursor = pure (read e cursor) := by
  simp only [checkedRead, read, Segment.checkedUint_eq, Segment.checkedOffsetValue_eq,
    Segment.checkedGetData_eq, Segment.sound_uint, Segment.sound_offsetValue, Segment.data_uint,
    h, h.size_le, pure_bind]

theorem size_valueArea_read (h : cursor.Sound) : (read e cursor).1.valueArea.size ≤ maxWord := by
  have hsize := h.size_le
  simp only [read, Segment.getData, ByteArray.size_extract, Segment.data_offsetValue,
    Segment.data_uint]
  omega

theorem sound_read (h : cursor.Sound) : (read e cursor).2.Sound :=
  (Segment.sound_getData _ _).mpr h.size_le

theorem checkedDecode_eq {raw : ByteArray} (hraw : raw.size ≤ maxWord) (t : FieldType)
    (valueOffset : Option Nat) :
    entry.checkedDecode e t valueOffset raw = pure (entry.decode e t valueOffset raw) := by
  have hcursor : Segment.Sound ⟨0, raw, e.order, 0⟩ := Segment.sound_of_size hraw
  have hleft : raw.size / t.size * t.size ≤ Segment.left ⟨0, raw, e.order, 0⟩ :=
    Nat.div_mul_le_self _ _
  rw [checkedDecode, div_eq t.size_pos, pure_bind, FieldType.checkedValues_eq hcursor hleft,
    pure_bind, decode, FieldType.elements_eq]
  rfl

/-- What was loaded is no longer than the source. -/
theorem size_le_of_loads {t : FieldType} {source : Source} {offset : Nat} {raw : ByteArray}
    {found : List Finding} (h : entry.Loads t source offset (some raw) found) :
    raw.size ≤ source.length := by
  cases h with
  | read hread =>
    have hinside := Source.le_of_read hread
    rw [← Source.size_read hread] at hinside
    omega

theorem checkedLoad_eq (h : input.Valid) (t : FieldType) (offset : Nat) (budget : Budget) :
    entry.checkedLoad t input offset budget = pure (entry.load t input.source offset budget) := by
  unfold checkedLoad load
  dsimp only
  split
  · rfl
  · split
    · rfl
    · cases budget.take? (saturate (t.charge entry.count)) with
      | none => rfl
      | some budget =>
        dsimp only
        rw [Input.read_eq h, pure_bind]

/-- Values that an entry holds have eight bytes at most. -/
private theorem size_le_of_fitsInline {t : FieldType} {count : Nat} {big : Bool}
    (h : t.fitsInline count big = true) : t.size * count ≤ 8 :=
  Nat.le_trans (of_decide_eq_true h) (by cases big <;> decide)

/-- A slice that ends with the bytes is one that ends behind them. -/
private theorem extract_min (data : ByteArray) (n : Nat) :
    data.extract 0 (min n data.size) = data.extract 0 n := by
  rcases Nat.le_total n data.size with hle | hle
  · rw [Nat.min_eq_left hle]
  · rw [Nat.min_eq_right hle, ByteArray.ext_iff, ByteArray.data_extract, ByteArray.data_extract,
      Array.extract_eq_self_of_le hle]
    exact Array.extract_size

theorem checkedResolve_eq (h : input.Valid) (hentry : entry.valueArea.size ≤ maxWord)
    (budget : Budget) :
    entry.checkedResolve e input budget = pure (entry.resolve e input.source budget) := by
  unfold checkedResolve resolve
  cases FieldType.ofId? entry.typeId with
  | none => rfl
  | some t =>
    dsimp only
    split
    · next hfits =>
      have hinline : t.size * entry.count ≤ 8 := size_le_of_fitsInline hfits
      have hword : 8 ≤ maxWord := by decide
      rw [mul_eq (Nat.le_trans hinline hword), pure_bind,
        slice_eq (Nat.zero_le _) (Nat.min_le_right _ _), pure_bind, extract_min,
        checkedDecode_eq ?_, pure_bind]
      rw [ByteArray.size_extract]
      omega
    · rw [checkedLoad_eq h, pure_bind]
      cases hload : (entry.load t input.source (e.order.decode entry.valueArea.data.toList)
          budget).result with
      | error error => rfl
      | ok loaded =>
        cases loaded with
        | none => rfl
        | some raw =>
          have hraw := size_le_of_loads (load_ok hload)
          have hlength := h.length_lt_maxWord
          dsimp only
          rw [checkedDecode_eq (by omega), pure_bind]

end Entry

namespace Field

def checkedRead (e : Encoding) (input : Input) (cursor : Segment) (budget : Budget) :
    Checked (Loaded Field × Segment) := do
  let (entry, cursor) ← Entry.checkedRead e cursor
  let loaded ← entry.checkedResolve e input budget
  pure (loaded, cursor)

variable {input : Input} {cursor : Segment}

theorem checkedRead_eq (h : input.Valid) (hcursor : cursor.Sound) (e : Encoding)
    (budget : Budget) :
    checkedRead e input cursor budget = pure (read e input.source cursor budget) := by
  have harea : (Entry.read e cursor).1.valueArea.size ≤ maxWord :=
    Entry.size_valueArea_read hcursor
  simp only [checkedRead, read, Entry.checkedRead_eq hcursor, pure_bind,
    Entry.checkedResolve_eq h harea]

theorem sound_read (e : Encoding) (source : Source) (hcursor : cursor.Sound) (budget : Budget) :
    (read e source cursor budget).2.Sound := by
  simp only [read]
  exact Entry.sound_read hcursor

/-- The values of a field were stored in its entry or in the source. -/
theorem raw_le_of_read (h : input.Valid) (hcursor : cursor.Sound) {e : Encoding} {budget : Budget}
    {f : Field} (hread : (read e input.source cursor budget).1.result = .ok f) :
    f.raw.size ≤ maxWord := by
  have harea : (Entry.read e cursor).1.valueArea.size ≤ maxWord :=
    Entry.size_valueArea_read hcursor
  have hlength := h.length_lt_maxWord
  simp only [read] at hread
  have hresolves := Entry.resolve_ok hread
  generalize ((Entry.read e cursor).1.resolve e input.source budget).findings = found
    at hresolves
  cases hresolves with
  | unknown => exact harea
  | inline =>
    refine Nat.le_trans ?_ harea
    simp only [Entry.decode, ByteArray.size_extract]
    omega
  | refused => exact Nat.zero_le _
  | loaded _ _ hloads => exact Nat.le_trans (Entry.size_le_of_loads hloads) (Nat.le_of_lt hlength)

end Field
end ImageAudit.Tiff
