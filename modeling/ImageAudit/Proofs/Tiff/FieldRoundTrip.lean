import ImageAudit.Proofs.Tiff.PlanReading
import Mathlib.Algebra.Ring.Nat

/-! Fields read back as they were written. An entry is written from the values themselves, signed
integers in two's complement and rationals as their fraction; what is read from it has the same
values, up to the quotient that stands for a fraction. -/
namespace ImageAudit.Tiff

/-- An entry that is there is read over. -/
theorem Entry.read_snd {e : Encoding} {cursor : Segment}
    (h : cursor.index + Entry.size e.big ≤ cursor.data.size) :
    (Entry.read e cursor).2 = { cursor with index := cursor.index + Entry.size e.big } := by
  rw [Entry.size_eq] at h ⊢
  simp only [Entry.read, Segment.offsetValue, Segment.uint, Segment.getData]
  congr 1
  omega

def wrap (width : Nat) (v : Int) : Nat := (v % (2 ^ (8 * width) : Nat)).toNat

theorem wrap_lt (width : Nat) (v : Int) : wrap width v < Nat.pow 256 width := by
  have hpow : Nat.pow 256 width = 2 ^ (8 * width) := by
    rw [Nat.pow_mul]
    rfl
  have hpos : 0 < 2 ^ (8 * width) := Nat.two_pow_pos _
  rw [hpow, wrap]
  have hlt := Int.emod_lt_of_pos v (Int.natCast_pos.mpr hpos)
  omega

/-- Of an integer that is not negative, it is the integer itself. -/
theorem wrap_of_nonneg {width : Nat} {v : Int} (h : 0 ≤ v) (hlt : v < (2 ^ (8 * width) : Nat)) :
    (wrap width v : Int) = v := by
  rw [wrap, Int.emod_eq_of_lt h hlt, Int.toNat_of_nonneg h]

theorem signed_wrap {width : Nat} {v : Int} (hwidth : 0 < width)
    (hlow : -(2 ^ (8 * width - 1) : Nat) ≤ v) (hhigh : v < (2 ^ (8 * width - 1) : Nat)) :
    signed width (wrap width v) = v := by
  have hdouble : 2 ^ (8 * width) = 2 * 2 ^ (8 * width - 1) := by
    rw [← Nat.pow_succ']
    congr 1
    omega
  rw [signed, Nat.one_shiftLeft, Nat.one_shiftLeft]
  obtain hneg | hpos := Int.lt_or_le v 0
  · have hwrap : (wrap width v : Int) = v + (2 ^ (8 * width) : Nat) := by
      rw [wrap, ← Int.add_emod_right, Int.emod_eq_of_lt (by omega) (by omega)]
      omega
    rw [if_neg (by omega), hwrap]
    omega
  · have hwrap : (wrap width v : Int) = v := wrap_of_nonneg hpos (by omega)
    rw [if_pos (by omega), hwrap]

inductive Datum where
  | integer (value : Int)
  | char (code : UInt8)
  | ratio (numerator denominator : Int)
deriving DecidableEq, Repr

namespace FieldType

theorem componentSize_pos (t : FieldType) : 0 < t.componentSize := by cases t <;> decide

def Represents (t : FieldType) (v : Int) : Prop :=
  if t.isSigned then
    -(2 ^ (8 * t.componentSize - 1) : Nat) ≤ v ∧ v < (2 ^ (8 * t.componentSize - 1) : Nat)
  else 0 ≤ v ∧ v < (2 ^ (8 * t.componentSize) : Nat)

instance (t : FieldType) (v : Int) : Decidable (t.Represents v) :=
  inferInstanceAs (Decidable (ite _ _ _))

def integer (t : FieldType) (n : Nat) : Int := if t.isSigned then signed t.componentSize n else n

theorem integer_wrap {t : FieldType} {v : Int} (h : t.Represents v) :
    t.integer (wrap t.componentSize v) = v := by
  rw [Represents] at h
  rw [integer]
  split at h
  · next hsigned => rw [if_pos hsigned, signed_wrap t.componentSize_pos h.1 h.2]
  · next hunsigned => rw [if_neg hunsigned, wrap_of_nonneg h.1 h.2]

end FieldType

namespace Datum

/-- The datum is a value of the type. Numbers with a fraction, `float` and `double`, are no data. -/
def Fits (t : FieldType) : Datum → Prop
  | integer v => t ∉ [.ascii, .rational, .srational, .float, .double] ∧ t.Represents v
  | char _ => t = .ascii
  | ratio n d => t ∈ [.rational, .srational] ∧ t.Represents n ∧ t.Represents d

instance (t : FieldType) : (x : Datum) → Decidable (x.Fits t)
  | integer _ => inferInstanceAs (Decidable (_ ∧ _))
  | char _ => inferInstanceAs (Decidable (_ = _))
  | ratio _ _ => inferInstanceAs (Decidable (_ ∧ _ ∧ _))

def numbers (t : FieldType) : Datum → List Nat
  | integer v => [wrap t.componentSize v]
  | char c => [c.toNat]
  | ratio n d => [wrap t.componentSize n, wrap t.componentSize d]

/-- The value that is read back. A fraction is cut to its quotient, which is zero over zero. -/
def value : Datum → Value
  | integer v => .integer v
  | char c => .char c
  | ratio n d => .integer (if d = 0 then 0 else n.tdiv d)

/-- What is found on the datum: a denominator that is zero, unless the numerator is as well. -/
def finding? (tag : Nat) : Datum → Option Finding
  | ratio n d => if d = 0 ∧ n ≠ 0 then some (.denominatorZero tag n) else none
  | _ => none

variable {t : FieldType} {x : Datum}

theorem fits_numbers (h : x.Fits t) : t.Fits (x.numbers t) := by
  cases x with
  | integer v =>
    have hone : t.components = 1 := by
      cases t <;> first | rfl | exact absurd (by decide) h.1
    refine ⟨hone.symm, fun n hn => ?_⟩
    obtain rfl := List.mem_singleton.mp hn
    exact wrap_lt _ _
  | char c =>
    obtain rfl : t = .ascii := h
    refine ⟨rfl, fun n hn => ?_⟩
    obtain rfl := List.mem_singleton.mp hn
    exact c.toNat_lt
  | ratio n d =>
    have htwo : t.components = 2 := by
      cases t <;> first | rfl | exact absurd h.1 (by decide)
    refine ⟨htwo.symm, fun k hk => ?_⟩
    obtain rfl | rfl := List.mem_pair.mp hk <;> exact wrap_lt _ _

theorem value_numbers (h : x.Fits t) : t.value (x.numbers t) = x.value := by
  cases x with
  | integer v =>
    have hv := FieldType.integer_wrap h.2
    cases t <;> first
      | exact absurd (by decide) h.1
      | exact congrArg Value.integer hv
  | char c =>
    obtain rfl : t = .ascii := h
    exact congrArg Value.char UInt8.ofNat_toNat
  | ratio n d =>
    have hn := FieldType.integer_wrap h.2.1
    have hd := FieldType.integer_wrap h.2.2
    cases t <;> first
      | exact absurd h.1 (by decide)
      | exact congrArg Value.integer (congrArg₂ quotient hn hd)

theorem ratio?_numbers (h : x.Fits t) (order : ByteOrder) :
    t.ratio? order (t.encode order (x.numbers t)) =
      match x with
      | ratio n d => some (n, d)
      | _ => none := by
  cases x with
  | integer v =>
    cases t <;> first
      | exact absurd (by decide) h.1
      | rfl
  | char c =>
    obtain rfl : t = .ascii := h
    rfl
  | ratio n d =>
    have hn := FieldType.integer_wrap h.2.1
    have hd := FieldType.integer_wrap h.2.2
    cases t <;> first
      | exact absurd h.1 (by decide)
      | simp only [FieldType.ratio?, FieldType.encode, numbers, FieldType.componentSize,
          List.flatMap_cons, List.flatMap_nil, List.append_nil,
          List.take_left' (ByteOrder.length_encode order 4 _),
          List.drop_left' (ByteOrder.length_encode order 4 _),
          ByteOrder.decode_encode order 4 _ (wrap_lt 4 _)]
        exact congrArg some (congrArg₂ Prod.mk hn hd)

theorem ratioFinding?_numbers (h : x.Fits t) (order : ByteOrder) (tag : Nat) :
    t.ratioFinding? order tag (t.encode order (x.numbers t)) = x.finding? tag := by
  rw [FieldType.ratioFinding?, ratio?_numbers h]
  cases x with
  | integer v => rfl
  | char c => rfl
  | ratio n d =>
    by_cases hd : d = 0
    · subst hd
      by_cases hn : n = 0 <;> simp [finding?, hn]
    · simp [finding?, hd]

def encode (t : FieldType) (order : ByteOrder) (data : List Datum) : List UInt8 :=
  data.flatMap fun x => t.encode order (x.numbers t)

end Datum

/-- The data are stored with an entry: in its value area, in front of bytes without a meaning, if
they fit there, and otherwise in a window of the source at an even offset, within the limit for one
field and what remains of the budget. This is the value area, the offset of the window, and what the
data are charged. -/
inductive Stores (e : Encoding) (source : Source) (budget : Budget) (t : FieldType)
    (data : List Datum) : List UInt8 → Option Nat → Nat → Prop where
  | inline (padding : List UInt8) :
      t.size * data.length + padding.length = FieldType.inlineSize e.big →
      Stores e source budget t data (Datum.encode t e.order data ++ padding) none 0
  | window (offset : Nat) :
      FieldType.inlineSize e.big < t.size * data.length →
      offset < Nat.pow 256 (Segment.offsetWidth e.big) → offset % 2 = 0 →
      source.read offset (t.size * data.length) =
        .ok ⟨(Datum.encode t e.order data).toArray⟩ →
      t.charge data.length ≤ maxFieldCharge → t.charge data.length ≤ budget.remaining →
      Stores e source budget t data (e.order.encode (Segment.offsetWidth e.big) offset)
        (some offset) (t.charge data.length)

def entryBytes (e : Encoding) (t : FieldType) (tag count : Nat) (valueArea : List UInt8) :
    List UInt8 :=
  e.order.encode 2 tag ++ (e.order.encode 2 t.id ++
    (e.order.encode (Segment.offsetWidth e.big) count ++ valueArea))

namespace PlannedEntry

variable {x : PlannedEntry} {data : List Datum}

theorem raw_of_data (h : x.place.values = data.map (Datum.numbers x.type)) (order : ByteOrder) :
    x.raw order = Datum.encode x.type order data := by
  rw [raw, h, List.flatMap_map]
  rfl

theorem decoded_of_data (h : x.place.values = data.map (Datum.numbers x.type))
    (hfits : ∀ d ∈ data, d.Fits x.type) : x.decoded = data.map Datum.value := by
  rw [decoded, h, List.map_map]
  exact List.map_congr_left fun d hd => Datum.value_numbers (hfits d hd)

theorem ratioFindings_of_data (h : x.place.values = data.map (Datum.numbers x.type))
    (hfits : ∀ d ∈ data, d.Fits x.type) (order : ByteOrder) :
    x.ratioFindings order = data.filterMap (Datum.finding? x.tag) := by
  rw [ratioFindings, h, List.filterMap_map]
  exact List.filterMap_congr fun d hd => Datum.ratioFinding?_numbers (hfits d hd) order x.tag

end PlannedEntry

namespace Field

def ofData (t : FieldType) (order : ByteOrder) (tag : Nat) (valueOffset : Option Nat)
    (data : List Datum) : Field :=
  ⟨tag, t.id, data.length, valueOffset, ⟨(Datum.encode t order data).toArray⟩,
    data.map Datum.value⟩

variable {e : Encoding} {source : Source} {budget : Budget} {t : FieldType} {data : List Datum}
  {x : PlannedEntry}

/-- The field of a planned entry with data is the one that shows them. -/
theorem field_of_data (h : x.place.values = data.map (Datum.numbers x.type))
    (hcount : x.place.count = x.place.values.length) (hfits : ∀ d ∈ data, d.Fits x.type)
    (order : ByteOrder) (valueOffset : Option Nat) :
    x.field order valueOffset = ofData x.type order x.tag valueOffset data := by
  rw [PlannedEntry.field, hcount, h, List.length_map, PlannedEntry.raw_of_data h,
    PlannedEntry.decoded_of_data h hfits]
  rfl

/-- Values in a window that may be loaded are loaded, and charged. -/
theorem load_of_data (h : x.place.values = data.map (Datum.numbers x.type))
    (hcount : x.place.count = x.place.values.length) {offset : Nat} (heven : offset % 2 = 0)
    (hread : source.read offset (x.type.size * data.length) =
      .ok ⟨(Datum.encode x.type e.order data).toArray⟩)
    (hcharge : x.type.charge data.length ≤ maxFieldCharge)
    (hleft : x.type.charge data.length ≤ budget.remaining) :
    (x.stored e.order e.big).load x.type source offset budget =
      ⟨.ok (some ⟨(x.raw e.order).toArray⟩), [],
        { budget with remaining := budget.remaining - x.type.charge data.length }⟩ := by
  have hsection : source.hasSection offset (x.type.size * data.length) = true := by
    by_contra hnot
    rw [Source.read, if_neg hnot] at hread
    cases hread
  have hsaturate : saturate (x.type.charge data.length) = x.type.charge data.length :=
    Nat.min_eq_left (Nat.le_trans hcharge (by decide))
  have hstored : (x.stored e.order e.big).count = data.length := by
    rw [PlannedEntry.stored, hcount, h, List.length_map]
  have hodd : ¬ offset % 2 = 1 := by omega
  simp only [Entry.load, hstored, hsection, hsaturate, Budget.take?, hread, hodd,
    if_pos hleft, if_neg (Nat.not_lt.mpr hcharge), Bool.not_true, Bool.false_eq_true, reduceIte,
    Except.map, PlannedEntry.raw_of_data h]

/-- Reading a planned entry resolves what it stores and moves the cursor behind it. -/
theorem read_planned {fileLength : Nat} {cursor : Segment} {more : List UInt8}
    (h : x.Valid e.big fileLength) (horder : cursor.order = e.order)
    (hrest : cursor.rest = x.bytes e.order e.big ++ more) :
    Field.read e source cursor budget =
      ((x.stored e.order e.big).resolve e source budget,
        { cursor with index := cursor.index + Entry.size e.big }) := by
  have hlength : (x.bytes e.order e.big).length = Entry.size e.big := by
    rw [Entry.size_eq, ← PlannedEntry.length_valueArea h e.order]
    simp only [PlannedEntry.bytes, List.length_append, ByteOrder.length_encode]
    omega
  have hleft : Entry.size e.big ≤ cursor.left := by
    rw [← Segment.length_rest, hrest, List.length_append, hlength]
    exact Nat.le_add_right _ _
  have hpos : 0 < Entry.size e.big := by cases e.big <;> decide
  rw [Segment.left] at hleft
  have hinside : cursor.index + Entry.size e.big ≤ cursor.data.size := by omega
  simp only [Field.read, Entry.read_snd hinside, (PlannedEntry.read_stored h horder hrest).1]

/-- A field that was written is read back: data of any type that is not a floating-point number,
stored with an entry in either order and layout, are the values of the field, and all that is found
are fractions over zero. The cursor is behind the entry, and the budget has paid for a window. -/
theorem read_written {tag charge : Nat} {valueArea more : List UInt8} {valueOffset : Option Nat}
    {cursor : Segment} (htag : tag < Nat.pow 256 2)
    (hcount : data.length < Nat.pow 256 (Segment.offsetWidth e.big))
    (hfits : ∀ d ∈ data, d.Fits t)
    (hstores : Stores e source budget t data valueArea valueOffset charge)
    (horder : cursor.order = e.order)
    (hrest : cursor.rest = entryBytes e t tag data.length valueArea ++ more) :
    Field.read e source cursor budget =
      (⟨.ok (ofData t e.order tag valueOffset data), data.filterMap (Datum.finding? tag),
        { budget with remaining := budget.remaining - charge }⟩,
        { cursor with index := cursor.index + if e.big then 20 else 12 }) ∧
    (ofData t e.order tag valueOffset data).fieldType? = some t := by
  have hnumbers : ∀ numbers ∈ data.map (Datum.numbers t), t.Fits numbers := by
    intro numbers hmem
    obtain ⟨d, hd, rfl⟩ := List.mem_map.mp hmem
    exact Datum.fits_numbers (hfits d hd)
  have hcount' : (data.map (Datum.numbers t)).length <
      Nat.pow 256 (Segment.offsetWidth e.big) := by
    rwa [List.length_map]
  rw [entryBytes, ← List.length_map (Datum.numbers t)] at hrest
  refine ⟨?_, by cases t <;> rfl⟩
  -- The length of a file counts for windows outside of it alone, so zero will do in both cases.
  cases hstores with
  | inline padding hfill =>
    have hvalues :
        (PlannedEntry.mk tag t (.inline (data.map (Datum.numbers t)) padding)).place.values =
          data.map (Datum.numbers t) := rfl
    have hvalid : PlannedEntry.Valid ⟨tag, t, .inline (data.map (Datum.numbers t)) padding⟩
        e.big 0 := by
      refine ⟨htag, hcount', hnumbers, ?_⟩
      dsimp only
      rwa [List.length_map]
    rw [← PlannedEntry.raw_of_data hvalues] at hrest
    rw [read_planned hvalid horder hrest, PlannedEntry.resolve_inline hvalid rfl,
      field_of_data hvalues rfl hfits, PlannedEntry.ratioFindings_of_data hvalues hfits]
    rfl
  | window offset hout hoffset heven hread hcharge hleft =>
    have hvalues :
        (PlannedEntry.mk tag t (.region (data.map (Datum.numbers t)) offset)).place.values =
          data.map (Datum.numbers t) := rfl
    have hlarge : t.fitsInline (data.map (Datum.numbers t)).length e.big = false := by
      rw [List.length_map, FieldType.fitsInline, decide_eq_false_iff_not]
      exact Nat.not_le.mpr hout
    have hvalid : PlannedEntry.Valid ⟨tag, t, .region (data.map (Datum.numbers t)) offset⟩
        e.big 0 :=
      ⟨htag, hcount', hnumbers, hlarge, hoffset⟩
    have hload := load_of_data hvalues rfl heven hread hcharge hleft
    rw [read_planned hvalid horder hrest, (PlannedEntry.resolve_of_load hvalid hlarge
        (PlannedEntry.decode_valueArea rfl hoffset)).2 hload,
      field_of_data hvalues rfl hfits, PlannedEntry.ratioFindings_of_data hvalues hfits]
    rfl

def threeFractions : Source := .ofBytes "fractions" ⟨#[0xFF, 0xFF, 0xFF, 0xF9, 0, 0, 0, 2,
  0, 0, 0, 5, 0, 0, 0, 0, 0, 0, 0, 0, 0, 0, 0, 0]⟩

/-- An entry in the classic layout that refers to three fractions in a window, and one in the big
layout with four signed numbers, which just fit into it. -/
theorem read_written_threeFractions :
    Field.read ⟨.bigEndian, false⟩ threeFractions
        ⟨8, ⟨#[0x92, 1, 0, 10, 0, 0, 0, 3, 0, 0, 0, 0, 0xAB]⟩, .bigEndian, 0⟩ (.ofLimit 1000) =
      (⟨.ok ⟨0x9201, 10, 3, some 0, ⟨#[0xFF, 0xFF, 0xFF, 0xF9, 0, 0, 0, 2,
          0, 0, 0, 5, 0, 0, 0, 0, 0, 0, 0, 0, 0, 0, 0, 0]⟩,
          [.integer (-3), .integer 0, .integer 0]⟩,
        [.denominatorZero 0x9201 5], ⟨1000, 880⟩⟩,
        ⟨8, ⟨#[0x92, 1, 0, 10, 0, 0, 0, 3, 0, 0, 0, 0, 0xAB]⟩, .bigEndian, 12⟩) ∧
    Field.read ⟨.littleEndian, true⟩ threeFractions
        ⟨16, ⟨#[1, 0, 8, 0, 4, 0, 0, 0, 0, 0, 0, 0, 0xFE, 0xFF, 3, 0, 0, 0x80, 0xFF, 0x7F]⟩,
          .littleEndian, 0⟩ (.ofLimit 0) =
      (⟨.ok ⟨1, 8, 4, none, ⟨#[0xFE, 0xFF, 3, 0, 0, 0x80, 0xFF, 0x7F]⟩,
          [.integer (-2), .integer 3, .integer (-32768), .integer 32767]⟩, [], ⟨0, 0⟩⟩,
        ⟨16, ⟨#[1, 0, 8, 0, 4, 0, 0, 0, 0, 0, 0, 0, 0xFE, 0xFF, 3, 0, 0, 0x80, 0xFF, 0x7F]⟩,
          .littleEndian, 20⟩) := by
  have hfractions : Stores ⟨.bigEndian, false⟩ threeFractions (.ofLimit 1000) .srational
      [.ratio (-7) 2, .ratio 5 0, .ratio 0 0] [0, 0, 0, 0] (some 0) 120 :=
    .window 0 (by decide) (by decide) (by decide) (by rfl) (by decide) (by decide)
  have hnumbers : Stores ⟨.littleEndian, true⟩ threeFractions (.ofLimit 0) .sshort
      [.integer (-2), .integer 3, .integer (-32768), .integer 32767]
      [0xFE, 0xFF, 3, 0, 0, 0x80, 0xFF, 0x7F] none 0 :=
    .inline [] (by decide)
  exact ⟨(read_written (by decide) (by decide) (by decide) hfractions rfl
      (by rfl : _ = entryBytes _ _ 0x9201 _ _ ++ [0xAB])).1,
    (read_written (by decide) (by decide) (by decide) hnumbers rfl
      (by rfl : _ = entryBytes _ _ 1 _ _ ++ [])).1⟩

end Field
end ImageAudit.Tiff
