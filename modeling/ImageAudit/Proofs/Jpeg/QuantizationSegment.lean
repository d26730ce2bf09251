import ImageAudit.Proofs.Bytes.Content
import ImageAudit.Proofs.Jpeg.Definitions
import Mathlib.Data.List.Basic

/-! Quantization table segments. They are accepted exactly if they are definitions one behind the
other, and the last definition of a destination is the one that is kept. -/
namespace ImageAudit.Jpeg

namespace Quantization

structure Table.Valid (t : Table) : Prop where
  precision_le : t.precision ≤ 1
  id_le : t.id ≤ 3
  length_values : t.values.length = 64
  lt_pow : ∀ v ∈ t.values, v < Nat.pow 256 (t.precision + 1)

def Table.bytes (t : Table) : List UInt8 :=
  nibbles t.precision t.id :: t.values.flatMap (ByteOrder.bigEndian.encode (t.precision + 1))

def format : DefinitionFormat Table where
  Valid := Table.Valid
  bytes := Table.bytes
  bytes_ne_nil _ := List.cons_ne_nil _ _

variable {t : Table} {size : Nat} {values : List Nat}

theorem elements_eq (size : Nat) (data : ByteArray) :
    elements size data = (List.range blockSize).map fun i =>
      ByteOrder.bigEndian.decode ((data.data.toList.drop (i * size)).take size) := by
  rw [elements]
  refine List.map_congr_left fun i _ => ?_
  rw [ByteArray.data_extract, Array.toList_extract, List.extract_eq_take_drop,
    Nat.add_sub_cancel_left]

/-- Values that are stored are read back. -/
theorem elements_of_encode {data : ByteArray} (hlength : values.length = blockSize)
    (hlt : ∀ v ∈ values, v < Nat.pow 256 size)
    (hdata : data.data.toList = values.flatMap (ByteOrder.bigEndian.encode size)) :
    elements size data = values := by
  rw [elements_eq, hdata, ← hlength]
  refine List.ext_getElem (by rw [List.length_map, List.length_range]) fun i hi hi' => ?_
  rw [List.getElem_map, List.getElem_range,
    take_drop_flatMap (fun v => ByteOrder.length_encode _ size v) hi',
    ByteOrder.decode_encode _ _ _ (hlt _ (List.getElem_mem hi'))]

/-- Bytes that are read are those that store the values. -/
theorem encode_elements {data : ByteArray} (hdata : data.data.toList.length = blockSize * size) :
    (elements size data).flatMap (ByteOrder.bigEndian.encode size) = data.data.toList := by
  have hchunk : ∀ i ∈ List.range blockSize, ByteOrder.bigEndian.encode size
      (ByteOrder.bigEndian.decode ((data.data.toList.drop (i * size)).take size)) =
        (data.data.toList.drop (i * size)).take size := by
    intro i hi
    have hlt := List.mem_range.mp hi
    have hle : (i + 1) * size ≤ blockSize * size := Nat.mul_le_mul_right size hlt
    rw [Nat.succ_mul] at hle
    have hlength : ((data.data.toList.drop (i * size)).take size).length = size := by
      rw [List.length_take, List.length_drop]
      omega
    have h := ByteOrder.bigEndian.encode_decode ((data.data.toList.drop (i * size)).take size)
    rwa [hlength] at h
  rw [elements_eq, List.flatMap_map, List.flatMap_congr hchunk, flatMap_take_drop, ← hdata,
    List.take_length]

theorem lt_pow_of_mem_elements {data : ByteArray} {v : Nat} (h : v ∈ elements size data) :
    v < Nat.pow 256 size := by
  rw [elements_eq] at h
  obtain ⟨i, _, rfl⟩ := List.mem_map.mp h
  refine Nat.lt_of_lt_of_le (ByteOrder.decode_lt _ _) ?_
  exact Nat.pow_le_pow_right (by decide) (List.length_take_le size _)

theorem elementSize?_eq_some {precision : Nat} :
    elementSize? precision = some size ↔ precision ≤ 1 ∧ size = precision + 1 := by
  match precision with
  | 0 => simp [elementSize?, eq_comm]
  | 1 => simp [elementSize?, eq_comm]
  | n + 2 => simp [elementSize?]

theorem destinationFindings_eq_nil {id : Nat} : destinationFindings id = [] ↔ id ≤ 3 := by
  rw [destinationFindings, maxDestination]
  split <;> simp <;> omega

/-- A valid definition is read. -/
theorem readDefinition_of_valid {cursor : Segment} {more : List UInt8} (h : t.Valid)
    (hrest : cursor.rest = t.bytes ++ more) :
    (readDefinition cursor).1 = .ok t ∧ (readDefinition cursor).2.rest = more := by
  have hprecision := h.precision_le
  have hid := h.id_le
  rw [Table.bytes, List.cons_append] at hrest
  obtain ⟨hdiv, hmod, hnext⟩ := uint_of_nibbles (by omega) (by omega) hrest
  have hlength : (t.values.flatMap (ByteOrder.bigEndian.encode (t.precision + 1))).length =
      blockSize * (t.precision + 1) := by
    rw [length_flatMap_of_forall fun v _ => ByteOrder.length_encode _ _ v, h.length_values,
      Nat.mul_comm]
    rfl
  have hleft : ¬ (cursor.uint 1).2.left < blockSize * (t.precision + 1) := by
    rw [← Segment.length_rest, hnext, List.length_append, hlength]
    omega
  obtain ⟨hdata, hbehind⟩ := Segment.getData_of_append hnext
  rw [hlength] at hdata hbehind
  have helements : elements (t.precision + 1)
      ((cursor.uint 1).2.getData (blockSize * (t.precision + 1))).1 = t.values :=
    elements_of_encode h.length_values h.lt_pow (by rw [hdata])
  rw [readDefinition]
  simpa only [hdiv, hmod, elementSize?_eq_some.mpr ⟨hprecision, rfl⟩,
    destinationFindings_eq_nil.mpr hid, List.isEmpty_nil, Bool.not_true, Bool.false_eq_true,
    if_false, if_neg hleft, helements, true_and] using hbehind

/-- Only a valid definition gives a table. -/
theorem valid_of_readDefinition {cursor : Segment} (hleft : cursor.left ≠ 0)
    (h : (readDefinition cursor).1 = .ok t) : t.Valid ∧ t.bytes <+: cursor.rest := by
  obtain ⟨b, more, hrest, hvalue, hnext⟩ := exists_uint_of_left hleft
  rw [readDefinition] at h
  dsimp only at h
  rw [hvalue] at h
  cases hsize : elementSize? (b.toNat / 16) with
  | none =>
    rw [hsize] at h
    cases h
  | some size =>
    rw [hsize] at h
    dsimp only at h
    split at h
    · cases h
    · next hfaults =>
      split at h
      · cases h
      · next henough =>
        obtain ⟨hprecision, hsize⟩ := elementSize?_eq_some.mp hsize
        subst hsize
        obtain rfl := Except.ok.inj h
        have hid : b.toNat % 16 ≤ 3 := destinationFindings_eq_nil.mp (by simpa using hfaults)
        have hneeded : ((cursor.uint 1).2.getData (blockSize * (b.toNat / 16 + 1))).1.data.toList =
            more.take (blockSize * (b.toNat / 16 + 1)) := by
          rw [Segment.toList_getData, hnext]
        have hlength : (more.take (blockSize * (b.toNat / 16 + 1))).length =
            blockSize * (b.toNat / 16 + 1) := by
          rw [← hnext, List.length_take, Segment.length_rest]
          omega
        refine ⟨⟨hprecision, hid, ?_, fun v hv => lt_pow_of_mem_elements hv⟩, ?_⟩
        · rw [elements, List.length_map, List.length_range]
          rfl
        · rw [Table.bytes, nibbles_div_mod, encode_elements (hneeded ▸ hlength), hneeded, hrest]
          exact List.cons_prefix_cons.mpr ⟨rfl, List.take_prefix _ _⟩

/-- What was found fault with in a definition is told. -/
theorem ne_nil_of_readDefinition {findings : List Finding} {cursor : Segment}
    (h : (readDefinition cursor).1 = .error findings) : findings ≠ [] := by
  rw [readDefinition] at h
  dsimp only at h
  split at h
  · cases h
    exact List.append_ne_nil_of_right_ne_nil _ (List.cons_ne_nil _ _)
  · split at h
    · next hfaults =>
      cases h
      simpa using hfaults
    · split at h <;> cases h
      exact List.cons_ne_nil _ _

theorem format_readBy : format.ReadBy id readDefinition where
  of_valid := readDefinition_of_valid
  exists_valid hleft h := ⟨_, valid_of_readDefinition hleft h⟩
  ne_nil := ne_nil_of_readDefinition

theorem readTables_loopOf :
    DefinitionFormat.LoopOf readDefinition (fun slots t => slots.set t.id t) readTables where
  of_end s hleft := by rw [readTables, dif_pos hleft]
  of_error s hleft h := by rw [readTables, dif_neg hleft, h]
  of_ok s hleft h := by rw [readTables, dif_neg hleft, h]

def flatTable (value : UInt8) : Table := ⟨1, 0, List.replicate 64 value.toNat⟩

theorem valid_flatTable (value : UInt8) : (flatTable value).Valid where
  precision_le := Nat.zero_le 1
  id_le := (by decide : 1 ≤ 3)
  length_values := List.length_replicate
  lt_pow v hv := by
    rw [(List.mem_replicate.mp hv).2]
    exact Nat.lt_of_lt_of_eq value.toNat_lt (by simp [flatTable])

def flatMarker : Marker :=
  ⟨MarkerId.defineQuantization, some 132, 2, 1,
    ⟨6, ⟨((flatTable 16).bytes ++ (flatTable 17).bytes).toArray⟩, .bigEndian, 0⟩⟩

end Quantization

namespace Stream

/-- A segment of quantization tables is accepted exactly if it consists of definitions. Those that
stand in front are kept in any case, of each destination the last one, and nothing else changes. -/
theorem takeQuantization_keeps_last (s : Stream) (m : Marker) (hclean : s.findings = []) :
    ((s.takeQuantization m).1.findings = [] ↔
      ∃ defs : List Quantization.Table, (∀ d ∈ defs, d.Valid) ∧
        m.segment.rest = defs.flatMap Quantization.Table.bytes) ∧
    (∃ defs rest, Quantization.format.Splits m.segment.rest defs rest) ∧
    (∀ defs rest, Quantization.format.Splits m.segment.rest defs rest →
      ∀ id, (s.takeQuantization m).1.quantization.get? id =
        (defs.reverse.find? fun d => d.id == id).or (s.quantization.get? id)) ∧
    ∃ quantization findings, (s.takeQuantization m).1 = { s with quantization, findings } := by
  have hfindings : (s.takeQuantization m).1.findings =
      (Quantization.readTables m.segment s.quantization).2.2 := by
    change s.findings ++ _ = _
    rw [hclean, List.nil_append]
  refine ⟨?_, Quantization.format.exists_splits _, fun defs rest hsplits id => ?_,
    _, _, rfl⟩
  · rw [hfindings]
    exact Quantization.readTables_loopOf.findings_eq_nil_iff Quantization.format_readBy _ _
  · change (Quantization.readTables m.segment s.quantization).1.get? id = _
    rw [(Quantization.readTables_loopOf.of_splits Quantization.format_readBy hsplits _).1,
      List.map_id]
    refine foldl_last (fun slots : Slots Quantization.Table => slots.get? id)
      (fun d : Quantization.Table => d.id == id) (fun slots d hd => ?_) _
    have hid : d.id < Slots.count := Nat.lt_succ_of_le (hsplits.valid d hd).id_le
    rw [Slots.get?_set hid]
    simp only [beq_iff_eq]

/-- Two definitions of one destination; the second one is kept. -/
theorem takeQuantization_keeps_last_twice :
    (empty false).findings = [] ∧
      ((empty false).takeQuantization Quantization.flatMarker).1.findings = [] ∧
      ((empty false).takeQuantization Quantization.flatMarker).1.quantization.get? 1 =
        some (Quantization.flatTable 17) := by
  have hvalid : ∀ d ∈ [Quantization.flatTable 16, Quantization.flatTable 17], d.Valid := by
    simp [Quantization.valid_flatTable]
  have hrest : Quantization.flatMarker.segment.rest =
      [Quantization.flatTable 16, Quantization.flatTable 17].flatMap
        Quantization.Table.bytes := by
    simp [Quantization.flatMarker, Segment.rest]
  obtain ⟨haccepts, _, hkeeps, _⟩ :=
    takeQuantization_keeps_last (empty false) Quantization.flatMarker rfl
  refine ⟨rfl, haccepts.mpr ⟨_, hvalid, hrest⟩, ?_⟩
  rw [hkeeps _ [] (.of_flatMap hvalid hrest)]
  rfl

end Stream
end ImageAudit.Jpeg
