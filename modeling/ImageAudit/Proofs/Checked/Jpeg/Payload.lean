import ImageAudit.Jpeg.Stream
import ImageAudit.Proofs.Checked.Input
import ImageAudit.Proofs.Checked.Jpeg.ScanData

/-! Reading the payloads of markers with operations that can go wrong. What a stream keeps of them,
a frame and tables, is such that no later use of it goes wrong. -/
namespace ImageAudit.Jpeg

open Checked

namespace Frame

def checkedReadComponent (cursor : Segment) : Checked (FrameComponent × Segment) := do
  let (id, cursor) ← cursor.checkedUint 1
  let (sampling, cursor) ← cursor.checkedUint 1
  let (selector, cursor) ← cursor.checkedUint 1
  pure (⟨id, sampling / 16, sampling % 16, selector⟩, cursor)

def checkedReadComponents :
    (count : Nat) → Frame → Segment → Checked (Frame × Segment × List Finding)
  | 0, f, cursor => pure (f, cursor, [])
  | count + 1, f, cursor => do
    let (c, cursor) ← checkedReadComponent cursor
    let (g, cursor, findings) ← checkedReadComponents count (f.addComponent c) cursor
    pure (g, cursor, f.componentFindings c ++ findings)

def checkedOfPayload (m : Marker) (frameClass : FrameClass) :
    Checked (Frame × Segment × List Finding) := do
  let (precision, cursor) ← m.segment.checkedUint 1
  let (height, cursor) ← cursor.checkedUint 2
  let (width, cursor) ← cursor.checkedUint 2
  let (count, cursor) ← cursor.checkedUint 1
  let frame : Frame := ⟨m.id, frameClass, precision, height, width, [], []⟩
  let findings := frame.headerFindings count
  let length := m.length.getD 0
  let records ← mul maxLong 3 count
  let expected ← add maxLong (markerSize + headerSize) records
  if length != expected then
    pure (frame, cursor, findings ++ [.invalidFrameLength count expected length])
  else do
    let (frame, cursor, more) ← checkedReadComponents count frame cursor
    pure (frame, cursor, findings ++ more)

def checkedRead (m : Marker) (existing : Option Frame) :
    Checked (Option Frame × Segment × List Finding) :=
  let refusals :=
    (if existing.isSome then [.multipleFrames] else []) ++
    (if m.payloadLength < headerSize then
      [.frameLengthTooSmall (m.length.getD 0) (headerSize + markerSize)] else [])
  match refusals, FrameClass.ofMarker? m.id with
  | [], some frameClass => do
    let (frame, cursor, findings) ← checkedOfPayload m frameClass
    pure (some frame, cursor, findings)
  | _, _ => pure (existing, m.segment, refusals)

variable {cursor : Segment} {m : Marker}

theorem checkedReadComponent_eq (h : cursor.Sound) :
    checkedReadComponent cursor = pure (readComponent cursor) := by
  simp only [checkedReadComponent, readComponent, Segment.checkedUint_eq, Segment.sound_uint,
    Segment.data_uint, h, h.size_le, pure_bind]

theorem sound_readComponent (h : cursor.Sound) : (readComponent cursor).2.Sound :=
  (Segment.sound_uint _ 1).mpr h.size_le

theorem checkedReadComponents_eq (h : cursor.Sound) (count : Nat) (f : Frame) :
    checkedReadComponents count f cursor = pure (readComponents count f cursor) := by
  induction count generalizing f cursor with
  | zero => rfl
  | succ count ih =>
    simp only [checkedReadComponents, readComponents, checkedReadComponent_eq h, pure_bind,
      ih (sound_readComponent h)]

theorem checkedOfPayload_eq (h : m.segment.Sound) (frameClass : FrameClass) :
    checkedOfPayload m frameClass = pure (ofPayload m frameClass) := by
  have hcount := Segment.uint_le_maxByte (((m.segment.uint 1).2.uint 2).2.uint 2).2
  have hrecords := Nat.mul_le_mul_left 3 hcount
  simp only [checkedOfPayload, ofPayload, Segment.checkedUint_eq, Segment.sound_uint,
    Segment.data_uint, h, h.size_le, pure_bind]
  rw [mul_eq (Nat.le_trans hrecords (by decide)), pure_bind,
    add_eq (Nat.le_trans (Nat.add_le_add_left hrecords _) (by decide)), pure_bind]
  split
  · rfl
  · have hcursor : ((((m.segment.uint 1).2.uint 2).2.uint 2).2.uint 1).2.Sound :=
      (Segment.sound_uint _ 1).mpr h.size_le
    rw [checkedReadComponents_eq hcursor, pure_bind]

theorem checkedRead_eq (h : m.segment.Sound) (existing : Option Frame) :
    checkedRead m existing = pure (read m existing) := by
  unfold checkedRead read
  dsimp only
  generalize (_ ++ _ : List Finding) = refusals
  cases refusals with
  | cons _ _ => rfl
  | nil =>
    cases FrameClass.ofMarker? m.id with
    | none => rfl
    | some frameClass => simp only [checkedOfPayload_eq h, pure_bind]

theorem Sound.addComponent {f : Frame} (hf : f.Sound) {c : FrameComponent}
    (hc : c.horizontal ≤ maxByte ∧ c.vertical ≤ maxByte) : (f.addComponent c).Sound := by
  rw [Frame.addComponent]
  split
  · exact hf
  · refine ⟨hf.width_le, hf.height_le, fun d hmem => ?_⟩
    rcases List.mem_append.mp hmem with hmem | hmem
    · exact hf.sampling_le d hmem
    · rw [List.mem_singleton.mp hmem]
      exact hc

private theorem sampling_le_readComponent (cursor : Segment) :
    (readComponent cursor).1.horizontal ≤ maxByte ∧ (readComponent cursor).1.vertical ≤ maxByte := by
  have hsampling := Segment.uint_le_maxByte (cursor.uint 1).2
  simp only [readComponent]
  omega

theorem sound_readComponents {f : Frame} (hf : f.Sound) (count : Nat) (cursor : Segment) :
    (readComponents count f cursor).1.Sound := by
  induction count generalizing f cursor with
  | zero => exact hf
  | succ count ih => exact ih (hf.addComponent (sampling_le_readComponent cursor)) _

theorem sound_ofPayload (m : Marker) (frameClass : FrameClass) :
    (ofPayload m frameClass).1.Sound := by
  have hempty : ∀ {precision height width : Nat}, height ≤ maxHalf → width ≤ maxHalf →
      Sound ⟨m.id, frameClass, precision, height, width, [], []⟩ :=
    fun hheight hwidth => ⟨hwidth, hheight, fun c hmem => by cases hmem⟩
  simp only [ofPayload]
  split
  · exact hempty (Segment.uint_le_maxHalf _) (Segment.uint_le_maxHalf _)
  · dsimp only
    apply sound_readComponents
    exact hempty (Segment.uint_le_maxHalf _) (Segment.uint_le_maxHalf _)

theorem sound_read {existing : Option Frame} (h : ∀ f, existing = some f → f.Sound) {f : Frame}
    (hread : (read m existing).1 = some f) : f.Sound := by
  unfold read at hread
  dsimp only at hread
  split at hread
  · obtain rfl := Option.some.inj hread
    exact sound_ofPayload _ _
  · exact h f hread

end Frame

namespace Scan

def checkedReadComponent (cursor : Segment) : Checked (ScanComponent × Segment) := do
  let (id, cursor) ← cursor.checkedUint 1
  let (tables, cursor) ← cursor.checkedUint 1
  pure (⟨id, tables / 16, tables % 16⟩, cursor)

def checkedReadComponents : (count : Nat) → Segment → Checked (List ScanComponent × Segment)
  | 0, cursor => pure ([], cursor)
  | count + 1, cursor => do
    let (c, cursor) ← checkedReadComponent cursor
    let (rest, cursor) ← checkedReadComponents count cursor
    pure (c :: rest, cursor)

def checkedRead (m : Marker) (f : Frame) : Checked (Option Scan × Segment × List Finding) := do
  let (count, cursor) ← m.segment.checkedUint 1
  let length := m.length.getD 0
  if count < minComponents || maxComponents < count then
    pure (none, cursor, [.invalidScanComponentCount count minComponents maxComponents])
  else do
    let records ← mul maxHalf 2 count
    let expected ← add maxHalf (markerSize + 4) records
    if length != expected then
      pure (none, cursor, [.invalidScanLength count expected length])
    else do
      let (components, cursor) ← checkedReadComponents count cursor
      let (spectralStart, cursor) ← cursor.checkedUint 1
      let (spectralEnd, cursor) ← cursor.checkedUint 1
      let (approximation, cursor) ← cursor.checkedUint 1
      let scan : Scan :=
        ⟨components, spectralStart, spectralEnd, approximation / 16, approximation % 16⟩
      pure (some scan, cursor, componentFindings f [] components ++ parameterFindings f scan)

variable {cursor : Segment} {m : Marker}

theorem checkedReadComponent_eq (h : cursor.Sound) :
    checkedReadComponent cursor = pure (readComponent cursor) := by
  simp only [checkedReadComponent, readComponent, Segment.checkedUint_eq, Segment.sound_uint, h,
    h.size_le, pure_bind]

theorem sound_readComponent (h : cursor.Sound) : (readComponent cursor).2.Sound :=
  (Segment.sound_uint _ 1).mpr h.size_le

theorem sound_readComponents (h : cursor.Sound) (count : Nat) :
    (readComponents count cursor).2.Sound := by
  induction count generalizing cursor with
  | zero => exact h
  | succ count ih => exact ih (sound_readComponent h)

theorem checkedReadComponents_eq (h : cursor.Sound) (count : Nat) :
    checkedReadComponents count cursor = pure (readComponents count cursor) := by
  induction count generalizing cursor with
  | zero => rfl
  | succ count ih =>
    simp only [checkedReadComponents, readComponents, checkedReadComponent_eq h, pure_bind,
      ih (sound_readComponent h)]

theorem checkedRead_eq (h : m.segment.Sound) (f : Frame) :
    checkedRead m f = pure (read m f) := by
  have hcursor : (m.segment.uint 1).2.Sound := (Segment.sound_uint _ 1).mpr h.size_le
  simp only [checkedRead, read, Segment.checkedUint_eq h, pure_bind]
  split
  · rfl
  · next hcount =>
    have hle : (m.segment.uint 1).1 ≤ maxComponents := by
      simp only [Bool.or_eq_true, decide_eq_true_eq] at hcount
      omega
    have hrecords := Nat.mul_le_mul_left 2 hle
    have hcomponents := sound_readComponents hcursor (m.segment.uint 1).1
    rw [mul_eq (Nat.le_trans hrecords (by decide)), pure_bind,
      add_eq (Nat.le_trans (Nat.add_le_add_left hrecords _) (by decide)), pure_bind]
    split
    · rfl
    · simp only [checkedReadComponents_eq hcursor, Segment.checkedUint_eq, Segment.sound_uint,
        Segment.data_uint, hcomponents, hcomponents.size_le, pure_bind]

end Scan

namespace Slots

variable {α : Type}

def checkedSet (s : Slots α) (i : Nat) (a : α) : Checked (Slots α) :=
  if i < count then pure (s.set i a) else throw .outOfRange

theorem checkedSet_eq {i : Nat} (hi : i < count) (s : Slots α) (a : α) :
    s.checkedSet i a = pure (s.set i a) := if_pos hi

end Slots

namespace Quantization

def checkedReadDefinition (cursor : Segment) :
    Checked (Except (List Finding) Table × Segment) := do
  let (value, cursor) ← cursor.checkedUint 1
  let precision := value / 16
  let id := value % 16
  let faults := destinationFindings id
  match elementSize? precision with
  | none => pure (.error (faults ++ [.invalidQuantizationPrecision precision]), cursor)
  | some size =>
    if !faults.isEmpty then pure (.error faults, cursor)
    else do
      let needed ← mul maxWord blockSize size
      let left ← cursor.checkedLeft
      if left < needed then pure (.error [.quantizationTableTooShort left needed], cursor)
      else do
        let (data, cursor) ← cursor.checkedGetData needed
        let _ ← div data.size size
        pure (.ok ⟨id, precision, elements size data⟩, cursor)

def checkedReadTables : (turns : Nat) → (cursor : Segment) → (tables : Slots Table) →
    Checked (Slots Table × Segment × List Finding)
  | 0, _, _ => throw .endless
  | turns + 1, cursor, tables => do
    let left ← cursor.checkedLeft
    if left = 0 then pure (tables, cursor, [])
    else do
      let (result, cursor) ← checkedReadDefinition cursor
      match result with
      | .error findings => pure (tables, cursor, findings)
      | .ok table => do
        let tables ← tables.checkedSet table.id table
        checkedReadTables turns cursor tables

variable {cursor : Segment} {tables : Slots Table}

theorem sound_readDefinition (h : cursor.Sound) : (readDefinition cursor).2.Sound := by
  simp only [readDefinition]
  split
  · exact (Segment.sound_uint _ 1).mpr h.size_le
  · split
    · exact (Segment.sound_uint _ 1).mpr h.size_le
    · split
      · exact (Segment.sound_uint _ 1).mpr h.size_le
      · exact (Segment.sound_getData _ _).mpr h.size_le

private theorem lt_count_of_isEmpty {id : Nat} (h : (destinationFindings id).isEmpty = true) :
    id < Slots.count := by
  rw [destinationFindings] at h
  split at h
  · cases h
  · next hid => exact Nat.lt_succ_of_le (Nat.le_of_not_lt hid)

theorem id_lt_of_readDefinition {table : Table} (h : (readDefinition cursor).1 = .ok table) :
    table.id < Slots.count := by
  simp only [readDefinition] at h
  split at h
  · cases h
  · split at h
    · cases h
    · next hfaults =>
      split at h
      · cases h
      · obtain rfl := Except.ok.inj h
        exact lt_count_of_isEmpty (by simpa using hfaults)

private theorem elementSize?_bounds {precision size : Nat} (h : elementSize? precision = some size) :
    0 < size ∧ size ≤ 2 := by
  unfold elementSize? at h
  split at h <;> cases h <;> decide

theorem checkedReadDefinition_eq (h : cursor.Sound) :
    checkedReadDefinition cursor = pure (readDefinition cursor) := by
  simp only [checkedReadDefinition, readDefinition, Segment.checkedUint_eq h, pure_bind]
  cases hsize : elementSize? ((cursor.uint 1).1 / 16) with
  | none => rfl
  | some size =>
    dsimp only
    have hcursor : (cursor.uint 1).2.Sound := (Segment.sound_uint _ 1).mpr h.size_le
    have hbounds := elementSize?_bounds hsize
    split
    · rfl
    · have hneeded := Nat.mul_le_mul_left blockSize hbounds.2
      rw [mul_eq (Nat.le_trans hneeded (by decide)), pure_bind, Segment.checkedLeft_eq hcursor,
        pure_bind]
      split
      · rfl
      · simp only [Segment.checkedGetData_eq hcursor, div_eq hbounds.1, pure_bind]

/-- A turn is taken for every byte at most, and one more. -/
theorem checkedReadTables_eq {turns : Nat} (h : cursor.Sound) (hturns : cursor.left < turns) :
    checkedReadTables turns cursor tables = pure (readTables cursor tables) := by
  induction turns generalizing cursor tables with
  | zero => omega
  | succ turns ih =>
    rw [checkedReadTables, Segment.checkedLeft_eq h, pure_bind, readTables]
    by_cases hleft : cursor.left = 0
    · rw [if_pos hleft, dif_pos hleft]
    · have hless := left_readDefinition cursor hleft
      rw [if_neg hleft, dif_neg hleft, checkedReadDefinition_eq h, pure_bind]
      dsimp only
      cases hresult : (readDefinition cursor).1 with
      | error findings => rfl
      | ok table =>
        dsimp only
        rw [Slots.checkedSet_eq (id_lt_of_readDefinition hresult), pure_bind]
        exact ih (sound_readDefinition h) (by omega)

end Quantization

namespace Huffman

namespace Tables

def checkedStore (tables : Tables) (table : Table) : Checked Tables := do
  match ← get (TableClass.ofIndex? table.tableClass) with
  | .dc => do
    let dc ← tables.dc.checkedSet table.id table
    pure { tables with dc }
  | .ac => do
    let ac ← tables.ac.checkedSet table.id table
    pure { tables with ac }

variable {tables : Tables} {table : Table}

theorem checkedStore_eq (tables : Tables) (hclass : table.tableClass ≤ 1)
    (hid : table.id < Slots.count) : tables.checkedStore table = pure (tables.store table) := by
  rw [checkedStore, store]
  obtain hdc | hac : table.tableClass = 0 ∨ table.tableClass = 1 := by omega
  · simp only [hdc, TableClass.ofIndex?, get_some, pure_bind, Slots.checkedSet_eq hid]
  · simp only [hac, TableClass.ofIndex?, get_some, pure_bind, Slots.checkedSet_eq hid]

theorem canonical_empty : Tables.Canonical .empty := by
  intro c id t h
  have hnone : Slots.get? (.empty : Slots Table) id = some t := by cases c <;> exact h
  rw [Slots.get?_empty] at hnone
  cases hnone

theorem Canonical.store (h : tables.Canonical) (ht : table.Canonical) :
    (tables.store table).Canonical := by
  rw [Tables.store]
  split
  · intro c id t hget
    cases c with
    | dc =>
      rcases Slots.of_get?_set hget with ⟨-, rfl⟩ | hold
      · exact ht
      · exact h .dc id t hold
    | ac => exact h .ac id t hget
  · intro c id t hget
    cases c with
    | dc => exact h .dc id t hget
    | ac =>
      rcases Slots.of_get?_set hget with ⟨-, rfl⟩ | hold
      · exact ht
      · exact h .ac id t hold
  · exact h

end Tables

def checkedCounts : (n : Nat) → Segment → Checked (List Nat × Segment)
  | 0, cursor => pure ([], cursor)
  | n + 1, cursor => do
    let (count, cursor) ← cursor.checkedUint 1
    let (rest, cursor) ← checkedCounts n cursor
    pure (count :: rest, cursor)

def checkedReadDefinition (narrow : Nat → Checked Nat) (limits : Limits) (cursor : Segment) :
    Checked (Except (List Finding) Table × Segment) := do
  let (value, cursor) ← cursor.checkedUint 1
  let tableClass := value / 16
  let id := value % 16
  let faults := limitFindings limits tableClass id
  if !faults.isEmpty then pure (.error faults, cursor)
  else do
    let left ← cursor.checkedLeft
    if left < maxLength then pure (.error [.huffmanTableTooShort maxLength left], cursor)
    else do
      let (counts, cursor) ← checkedCounts maxLength cursor
      let count ← checkedTotal counts
      let left ← cursor.checkedLeft
      if count ≤ maxSymbols ∧ left < count then
        pure (.error [.huffmanTableTooShort count left], cursor)
      else do
        let (symbols, cursor) ← cursor.checkedGetData count
        match ← Table.checkedBuild narrow tableClass id counts symbols.data with
        | .ok table => pure (.ok table, cursor)
        | .error e => pure (.error [e.finding], cursor)

def checkedReadTables (narrow : Nat → Checked Nat) (limits : Limits) :
    (turns : Nat) → (cursor : Segment) → (tables : Tables) →
      Checked (Tables × Segment × List Finding)
  | 0, _, _ => throw .endless
  | turns + 1, cursor, tables => do
    let left ← cursor.checkedLeft
    if left = 0 then pure (tables, cursor, [])
    else do
      let (result, cursor) ← checkedReadDefinition narrow limits cursor
      match result with
      | .error findings => pure (tables, cursor, findings)
      | .ok table => do
        let tables ← tables.checkedStore table
        checkedReadTables narrow limits turns cursor tables

variable {limits : Limits} {cursor : Segment} {tables : Tables}

private theorem decode_singleton (order : ByteOrder) (b : UInt8) :
    order.decode [b] = b.toNat := by
  cases order <;> simp [ByteOrder.decode, ByteOrder.ofDigits]

/-- Counts that are read one by one are the next bytes. -/
theorem checkedCounts_eq {n : Nat} (h : cursor.Sound) (hleft : n ≤ cursor.left) :
    checkedCounts n cursor =
      pure ((cursor.getData n).1.data.toList.map UInt8.toNat, (cursor.getData n).2) := by
  induction n generalizing cursor with
  | zero =>
    have hindex : min (cursor.index + 0) cursor.data.size = cursor.index :=
      Nat.min_eq_left h.valid
    have hstay : (cursor.getData 0).2 = cursor := by rw [Segment.getData, hindex]
    rw [checkedCounts, hstay, Segment.toList_getData]
    rfl
  | succ n ih =>
    have hnext : (cursor.uint 1).2.Sound := (Segment.sound_uint _ 1).mpr h.size_le
    have hleft' : n ≤ (cursor.uint 1).2.left := by
      rw [Segment.left_uint]
      omega
    have hcursor : ((cursor.uint 1).2.getData n).2 = (cursor.getData (n + 1)).2 := by
      simp only [Segment.uint, Segment.getData]
      congr 1
      omega
    have hvalue := cursor.uint_eq (show 1 ≤ cursor.left by omega)
    have hlength := cursor.length_rest
    rw [checkedCounts, Segment.checkedUint_eq h, pure_bind]
    simp only [ih hnext hleft', pure_bind, hcursor, Segment.toList_getData, Segment.rest_uint]
    cases hrest : cursor.rest with
    | nil =>
      rw [hrest] at hlength
      simp only [List.length_nil] at hlength
      omega
    | cons b rest =>
      rw [hvalue, hrest, List.take_succ_cons, List.take_zero, decode_singleton]
      rfl

private theorem total_le {counts : List Nat} {bound : Nat} (h : ∀ c ∈ counts, c ≤ bound) :
    total counts ≤ counts.length * bound := by
  induction counts with
  | nil => exact Nat.zero_le _
  | cons count counts ih =>
    rw [List.forall_mem_cons] at h
    have hrest := ih h.2
    change count + total counts ≤ (counts.length + 1) * bound
    rw [Nat.add_one_mul]
    omega

private theorem length_getData {n : Nat} (h : n ≤ cursor.left) :
    (cursor.getData n).1.data.toList.length = n :=
  cursor.size_getData h

private theorem total_counts_le (bytes : List UInt8) :
    total (bytes.map UInt8.toNat) ≤ bytes.length * maxByte := by
  have hle := @total_le (bytes.map UInt8.toNat) maxByte (by
    intro c hmem
    obtain ⟨b, _, rfl⟩ := List.mem_map.mp hmem
    exact Nat.le_of_lt_succ b.toNat_lt)
  rwa [List.length_map] at hle

theorem sound_readDefinition (h : cursor.Sound) : (readDefinition limits cursor).2.Sound := by
  simp only [readDefinition]
  split
  · exact (Segment.sound_uint _ 1).mpr h.size_le
  · split
    · exact (Segment.sound_uint _ 1).mpr h.size_le
    · split
      · exact (Segment.sound_getData _ _).mpr h.size_le
      · split <;> exact (Segment.sound_getData _ _).mpr h.size_le

theorem checkedReadDefinition_eq (h : cursor.Sound) :
    checkedReadDefinition (cut maxHalf) limits cursor = pure (readDefinition limits cursor) := by
  have hcursor : (cursor.uint 1).2.Sound := (Segment.sound_uint _ 1).mpr h.size_le
  have hcounts : ((cursor.uint 1).2.getData maxLength).2.Sound :=
    (Segment.sound_getData _ _).mpr h.size_le
  simp only [checkedReadDefinition, readDefinition, Segment.checkedUint_eq h, pure_bind]
  split
  · rfl
  · rw [Segment.checkedLeft_eq hcursor, pure_bind]
    split
    · rfl
    · next hleft =>
      have hsize := length_getData (Nat.le_of_not_lt hleft)
      have htotal := total_counts_le ((cursor.uint 1).2.getData maxLength).1.data.toList
      rw [hsize] at htotal
      have hword := Nat.le_trans htotal (show maxLength * maxByte ≤ maxWord by decide)
      rw [checkedCounts_eq hcursor (Nat.le_of_not_lt hleft), pure_bind]
      dsimp only
      rw [checkedTotal_eq hword, pure_bind, Segment.checkedLeft_eq hcounts, pure_bind]
      split
      · rfl
      · rw [Segment.checkedGetData_eq hcounts, pure_bind]
        rw [Table.checkedBuild_eq ((List.length_map _).trans hsize) hword, pure_bind]
        generalize Table.build _ _ _ _ = built
        cases built <;> rfl

private theorem le_of_isEmpty {tableClass id : Nat}
    (h : (limitFindings limits tableClass id).isEmpty = true) :
    tableClass ≤ limits.tableClass ∧ id ≤ limits.destination := by
  rw [limitFindings, List.isEmpty_iff, List.append_eq_nil_iff] at h
  obtain ⟨hclass, hid⟩ := h
  constructor
  · split at hclass
    · cases hclass
    · next hle => exact Nat.le_of_not_lt hle
  · split at hid
    · cases hid
    · next hle => exact Nat.le_of_not_lt hle

private theorem tableClass_ofFrame (f : Option Frame) : (Limits.ofFrame f).tableClass ≤ 1 := by
  cases f with
  | none => exact Nat.le_refl 1
  | some f =>
    rw [Limits.ofFrame]
    dsimp only
    split <;> decide

private theorem destination_ofFrame (f : Option Frame) :
    (Limits.ofFrame f).destination < Slots.count := by
  cases f with
  | none => exact Nat.lt_succ_self 3
  | some f =>
    rw [Limits.ofFrame]
    dsimp only
    split <;> decide

/-- A definition that was read has a class and a destination, and its table is canonical. -/
theorem fits_of_readDefinition {f : Option Frame} {table : Table}
    (h : (readDefinition (.ofFrame f) cursor).1 = .ok table) :
    table.tableClass ≤ 1 ∧ table.id < Slots.count ∧ table.Canonical := by
  simp only [readDefinition] at h
  split at h
  · cases h
  · next hfaults =>
    split at h
    · cases h
    · next hleft =>
      split at h
      · cases h
      · split at h
        · next hbuild =>
          obtain rfl := Except.ok.inj h
          have hsize := length_getData (Nat.le_of_not_lt hleft)
          have hcanonical := Table.canonical_of_build ((List.length_map _).trans hsize) hbuild
          obtain ⟨hclass, hid⟩ := le_of_isEmpty (by simpa using hfaults)
          obtain ⟨_, codes, _, rfl⟩ := Table.eq_of_build hbuild
          exact ⟨Nat.le_trans hclass (tableClass_ofFrame f),
            Nat.lt_of_le_of_lt hid (destination_ofFrame f), hcanonical⟩
        · cases h

/-- A turn is taken for every byte at most, and one more. -/
theorem checkedReadTables_eq {f : Option Frame} {turns : Nat} (h : cursor.Sound)
    (hturns : cursor.left < turns) :
    checkedReadTables (cut maxHalf) (.ofFrame f) turns cursor tables =
      pure (readTables (.ofFrame f) cursor tables) := by
  induction turns generalizing cursor tables with
  | zero => omega
  | succ turns ih =>
    rw [checkedReadTables, Segment.checkedLeft_eq h, pure_bind, readTables]
    by_cases hleft : cursor.left = 0
    · rw [if_pos hleft, dif_pos hleft]
    · have hless := left_readDefinition (.ofFrame f) cursor hleft
      rw [if_neg hleft, dif_neg hleft, checkedReadDefinition_eq h, pure_bind]
      dsimp only
      cases hresult : (readDefinition (.ofFrame f) cursor).1 with
      | error findings => rfl
      | ok table =>
        obtain ⟨hclass, hid, -⟩ := fits_of_readDefinition hresult
        dsimp only
        rw [Tables.checkedStore_eq tables hclass hid, pure_bind]
        exact ih (sound_readDefinition h) (by omega)

theorem canonical_readTables {f : Option Frame} (h : tables.Canonical) :
    (readTables (.ofFrame f) cursor tables).1.Canonical := by
  fun_induction readTables (.ofFrame f) cursor tables with
  | case1 => exact h
  | case2 => exact h
  | case3 _ _ _ _ _ hresult ih => exact ih (h.store (fits_of_readDefinition hresult).2.2)

end Huffman
end ImageAudit.Jpeg
