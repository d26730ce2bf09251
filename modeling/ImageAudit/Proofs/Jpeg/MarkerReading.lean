import ImageAudit.Jpeg.Decoder
import ImageAudit.Proofs.Bytes.Content

/-! Markers as they are stored, and reading them. Exactly the bytes of a marker are read as it, and
whoever takes in its payload moves no more than the cursor over it. -/
namespace ImageAudit

namespace Segment

def Moved (s t : Segment) : Prop := ∃ index, t = { s with index }

variable {s t u : Segment}

theorem Moved.refl (s : Segment) : Moved s s := ⟨s.index, rfl⟩

theorem Moved.trans (h : Moved s t) (h' : Moved t u) : Moved s u := by
  obtain ⟨i, rfl⟩ := h
  obtain ⟨j, rfl⟩ := h'
  exact ⟨j, rfl⟩

theorem moved_getData (s : Segment) (n : Nat) : Moved s (s.getData n).2 := ⟨_, rfl⟩

theorem moved_uint (s : Segment) (width : Nat) : Moved s (s.uint width).2 := s.moved_getData width

end Segment

namespace Jpeg

open Segment (Moved moved_uint moved_getData)

namespace Frame

theorem moved_readComponent (cursor : Segment) : Moved cursor (readComponent cursor).2 :=
  ((moved_uint _ 1).trans (moved_uint _ 1)).trans (moved_uint _ 1)

theorem moved_readComponents (count : Nat) (f : Frame) (cursor : Segment) :
    Moved cursor (readComponents count f cursor).2.1 := by
  induction count generalizing f cursor with
  | zero => exact .refl cursor
  | succ count ih => exact (moved_readComponent cursor).trans (ih _ _)

theorem moved_ofPayload (m : Marker) (frameClass : FrameClass) :
    Moved m.segment (ofPayload m frameClass).2.1 := by
  have hheader := (((moved_uint m.segment 1).trans (moved_uint _ 2)).trans (moved_uint _ 2)).trans
    (moved_uint _ 1)
  simp only [ofPayload]
  generalize ((((m.segment.uint 1).2.uint 2).2.uint 2).2.uint 1) = last at hheader ⊢
  split
  · exact hheader
  · exact hheader.trans (moved_readComponents _ _ _)

theorem moved_read (m : Marker) (existing : Option Frame) :
    Moved m.segment (read m existing).2.1 := by
  simp only [read]
  split
  · exact moved_ofPayload m _
  · exact .refl _

end Frame

namespace Scan

theorem moved_readComponents (count : Nat) (cursor : Segment) :
    Moved cursor (readComponents count cursor).2 := by
  induction count generalizing cursor with
  | zero => exact .refl cursor
  | succ count ih => exact ((moved_uint _ 1).trans (moved_uint _ 1)).trans (ih _)

theorem moved_read (m : Marker) (f : Frame) : Moved m.segment (read m f).2.1 := by
  simp only [read]
  split
  · exact moved_uint _ 1
  · split
    · exact moved_uint _ 1
    · exact ((((moved_uint _ 1).trans (moved_readComponents _ _)).trans (moved_uint _ 1)).trans
        (moved_uint _ 1)).trans (moved_uint _ 1)

end Scan

namespace Huffman

theorem moved_readDefinition (limits : Limits) (cursor : Segment) :
    Moved cursor (readDefinition limits cursor).2 := by
  have hcounts := (moved_uint cursor 1).trans (moved_getData _ maxLength)
  simp only [readDefinition]
  split
  · exact moved_uint _ 1
  · split
    · exact moved_uint _ 1
    · split
      · exact hcounts
      · split <;> exact hcounts.trans (moved_getData _ _)

theorem moved_readTables (limits : Limits) (cursor : Segment) (tables : Tables) :
    Moved cursor (readTables limits cursor tables).2.1 := by
  fun_induction readTables limits cursor tables with
  | case1 => exact .refl _
  | case2 => exact moved_readDefinition _ _
  | case3 _ _ _ _ _ _ ih => exact (moved_readDefinition _ _).trans ih

end Huffman

namespace Quantization

theorem moved_readDefinition (cursor : Segment) : Moved cursor (readDefinition cursor).2 := by
  simp only [readDefinition]
  split
  · exact moved_uint _ 1
  · split
    · exact moved_uint _ 1
    · split
      · exact moved_uint _ 1
      · exact (moved_uint _ 1).trans (moved_getData _ _)

theorem moved_readTables (cursor : Segment) (tables : Slots Table) :
    Moved cursor (readTables cursor tables).2.1 := by
  fun_induction readTables cursor tables with
  | case1 => exact .refl _
  | case2 => exact moved_readDefinition _
  | case3 _ _ _ _ _ _ ih => exact (moved_readDefinition _).trans ih

end Quantization

def Marker.moveTo (m : Marker) (index : Nat) : Marker :=
  { m with segment := { m.segment with index } }

namespace Stream

/-- Taking in a marker moves the cursor over its payload; the markers before it and the place of the
stream stay as they are. -/
structure Takes (s : Stream) (m : Marker) (result : Stream × Marker) : Prop where
  marker : ∃ index, result.2 = m.moveTo index
  markers : result.1.markers = s.markers
  embedded : result.1.embedded = s.embedded

private theorem Takes.of_moved {s t : Stream} {m : Marker} {segment : Segment}
    (hmoved : Moved m.segment segment) (hmarkers : t.markers = s.markers)
    (hembedded : t.embedded = s.embedded) : Takes s m (t, { m with segment }) where
  marker := by
    obtain ⟨index, rfl⟩ := hmoved
    exact ⟨index, rfl⟩
  markers := hmarkers
  embedded := hembedded

theorem takes_take (s : Stream) (m : Marker) : Takes s m (s.take m) := by
  have hsame : ∀ t : Stream, t.markers = s.markers → t.embedded = s.embedded →
      Takes s m (t, m) := fun t => .of_moved (.refl _)
  unfold take
  split
  · exact .of_moved (Frame.moved_read _ _) rfl rfl
  split
  · unfold takeScan
    split
    · exact hsame _ rfl rfl
    · exact .of_moved (Scan.moved_read _ _) rfl rfl
  split
  · exact .of_moved (Huffman.moved_readTables _ _ _) rfl rfl
  split
  · exact .of_moved (Quantization.moved_readTables _ _) rfl rfl
  split
  · simp only [takeRestartInterval]
    split
    · exact hsame _ rfl rfl
    · exact .of_moved (moved_uint _ 2) rfl rfl
  · exact hsame s rfl rfl

end Stream

namespace Marker

def bytes (m : Marker) : List UInt8 :=
  ByteOrder.bigEndian.encode markerSize m.id ++
    match m.length with
    | none => []
    | some length =>
      ByteOrder.bigEndian.encode markerSize length ++ m.segment.data.data.toList

/-- A marker that can be stored. Its length is that of its payload and of the length field, and
standalone markers have neither. -/
structure Stored (m : Marker) : Prop where
  id_gt : MarkerId.stuffing < m.id
  id_lt : m.id < MarkerId.fill
  length_eq : m.length =
    if MarkerId.hasLength m.id then some (markerSize + m.segment.length) else none
  length_lt : markerSize + m.segment.length < 0x10000
  segment_offset : m.segment.offset =
    m.offset + markerSize + if MarkerId.hasLength m.id then markerSize else 0
  standalone : MarkerId.hasLength m.id = false → m.segment.data = .empty

@[simp] theorem bytes_moveTo (m : Marker) (index : Nat) : (m.moveTo index).bytes = m.bytes := rfl

theorem Stored.moveTo {m : Marker} (h : m.Stored) (index : Nat) : (m.moveTo index).Stored :=
  ⟨h.id_gt, h.id_lt, h.length_eq, h.length_lt, h.segment_offset, h.standalone⟩

def Unread (m : Marker) : Prop := m.segment.order = .bigEndian ∧ m.segment.index = 0

variable {source : Source} {content : List UInt8} {offset number next id word count : Nat}
  {m : Marker}

theorem isMarker_iff (h : id < 0x10000) : MarkerId.isMarker id = true ↔ 0xFF00 ≤ id := by
  rw [MarkerId.isMarker, beq_iff_eq]
  omega

theorem readWord_iff (h : source.Holds content) :
    readWord source offset = .ok word ↔
      word < 0x10000 ∧ StandsAt (ByteOrder.bigEndian.encode markerSize word) content offset := by
  have hread : readWord source offset = .ok word ↔
      ∃ bytes, source.read offset markerSize = .ok bytes ∧
        ByteOrder.bigEndian.decode bytes.data.toList = word := by
    rw [readWord]
    constructor
    · intro hword
      split at hword
      · cases hword
      · split at hword
        · cases hword
        · next bytes hbytes =>
          exact ⟨bytes, hbytes, Except.ok.inj hword⟩
    · rintro ⟨bytes, hbytes, rfl⟩
      have hs : source.hasSection offset markerSize = true := by
        obtain ⟨hsize, hstands⟩ := h.read_iff.mp hbytes
        have hle := hstands.le
        rw [Array.length_toList] at hle
        exact h.hasSection_iff.mpr (by rw [← hsize]; exact hle)
      simp only [hs, hbytes, Bool.not_true, Bool.false_eq_true, reduceIte]
  rw [hread]
  constructor
  · rintro ⟨bytes, hbytes, rfl⟩
    obtain ⟨hsize, hstands⟩ := h.read_iff.mp hbytes
    have hlength : bytes.data.toList.length = markerSize := hsize
    have hlt := ByteOrder.bigEndian.decode_lt bytes.data.toList
    have hencode := ByteOrder.bigEndian.encode_decode bytes.data.toList
    rw [hlength] at hlt hencode
    exact ⟨hlt, hencode.symm ▸ hstands⟩
  · rintro ⟨hword, hstands⟩
    refine ⟨⟨(ByteOrder.bigEndian.encode markerSize word).toArray⟩, ?_, ?_⟩
    · exact h.read_iff.mpr ⟨ByteOrder.length_encode .bigEndian markerSize word, hstands⟩
    · exact ByteOrder.decode_encode .bigEndian markerSize word hword

theorem readPayload_iff (h : source.Holds content) {segment : Segment} :
    readPayload source offset count = .ok segment ↔
      segment.data.size = count ∧ StandsAt segment.data.data.toList content offset ∧
        segment = ⟨offset, segment.data, .bigEndian, 0⟩ := by
  unfold readPayload
  constructor
  · intro hread
    split at hread
    · cases hread
    · next hs =>
      have hle : offset + count ≤ content.length := h.hasSection_iff.mp (by simpa using hs)
      split at hread
      · next hcount =>
        obtain rfl := Except.ok.inj hread
        subst hcount
        exact ⟨rfl, ⟨hle, List.nil_prefix⟩, rfl⟩
      · split at hread
        · cases hread
        · next data hdata =>
          obtain rfl := Except.ok.inj hread
          exact ⟨(h.read_iff.mp hdata).1, (h.read_iff.mp hdata).2, rfl⟩
  · rintro ⟨hsize, hstands, hsegment⟩
    have hle := hstands.le
    rw [Array.length_toList] at hle
    have hs : source.hasSection offset count = true :=
      h.hasSection_iff.mpr (by rw [← hsize]; exact hle)
    simp only [hs, Bool.not_true, Bool.false_eq_true, reduceIte]
    split
    · next hcount =>
      have hempty : segment.data = .empty := by
        apply ByteArray.ext
        apply Array.eq_empty_of_size_eq_zero
        exact hsize.trans hcount
      rw [hsegment, hempty]
      rfl
    · rw [h.read_iff.mpr ⟨hsize, hstands⟩]
      exact congrArg Except.ok hsegment.symm

private theorem bytes_some {length : Nat} (h : m.length = some length) :
    m.bytes = ByteOrder.bigEndian.encode markerSize m.id ++
      (ByteOrder.bigEndian.encode markerSize length ++ m.segment.data.data.toList) := by
  rw [bytes, h]

private theorem bytes_none (h : m.length = none) :
    m.bytes = ByteOrder.bigEndian.encode markerSize m.id := by
  rw [bytes, h, List.append_nil]

theorem length_bytes (h : m.Stored) :
    m.bytes.length = markerSize +
      if MarkerId.hasLength m.id then markerSize + m.segment.length else 0 := by
  have hsize : m.segment.data.data.toList.length = m.segment.length := Array.length_toList
  cases hl : MarkerId.hasLength m.id with
  | true =>
    have hlength : m.length = some (markerSize + m.segment.length) := by
      rw [h.length_eq, hl]
      rfl
    rw [bytes_some hlength]
    simp only [List.length_append, ByteOrder.length_encode, hsize, reduceIte]
  | false =>
    rw [bytes_none (by rw [h.length_eq, hl]; rfl)]
    simp

private theorem segment_eq (h : m.Stored) (hunread : m.Unread) :
    m.segment = ⟨m.offset + markerSize + if MarkerId.hasLength m.id then markerSize else 0,
      m.segment.data, .bigEndian, 0⟩ := by
  rw [← h.segment_offset, ← hunread.1, ← hunread.2]

/-- Exactly a marker with a length is read from its bytes. -/
theorem readSegment_iff (h : source.Holds content) (hid : MarkerId.stuffing < id)
    (hid' : id < MarkerId.fill) (hlength : MarkerId.hasLength id = true)
    (hstands : StandsAt (ByteOrder.bigEndian.encode markerSize id) content offset) :
    readSegment source id offset number = .ok (.marker m next) ↔
      m.Stored ∧ m.Unread ∧ m.id = id ∧ m.offset = offset ∧ m.number = number ∧
        StandsAt m.bytes content offset ∧ next = offset + m.bytes.length := by
  constructor
  · intro hread
    simp only [readSegment] at hread
    split at hread
    · cases hread
    · next length hword =>
      obtain ⟨hlt, hword⟩ := (readWord_iff h).mp hword
      split at hread
      · cases hread
      · next hle =>
        split at hread
        · cases hread
        · next segment hpayload =>
          obtain ⟨hsize, hpayload, hsegment⟩ := (readPayload_iff h).mp hpayload
          simp only [Except.ok.injEq, Found.marker.injEq] at hread
          obtain ⟨rfl, rfl⟩ := hread
          have hsum : length = markerSize + segment.length := by
            rw [Segment.length, hsize]
            omega
          have hstored : Stored ⟨id, some length, offset, number, segment⟩ := {
            id_gt := hid
            id_lt := hid'
            length_eq := by simp [hlength, hsum]
            length_lt := by rwa [← hsum]
            segment_offset := by
              rw [hsegment]
              simp [hlength]
            standalone := by simp [hlength] }
          refine ⟨hstored, by rw [Unread, hsegment]; exact ⟨rfl, rfl⟩, rfl, rfl, rfl, ?_, ?_⟩
          · simp only [bytes, StandsAt.append_iff, ByteOrder.length_encode]
            exact ⟨hstands, hword, hpayload⟩
          · rw [length_bytes hstored]
            simp only [hlength, reduceIte, Segment.length, hsize]
            omega
  · rintro ⟨hstored, hunread, rfl, rfl, rfl, hbytes, rfl⟩
    have hm : m.length = some (markerSize + m.segment.length) := by
      rw [hstored.length_eq, hlength]
      rfl
    rw [bytes_some hm, StandsAt.append_iff, StandsAt.append_iff, ByteOrder.length_encode,
      ByteOrder.length_encode] at hbytes
    have hsegment : m.segment =
        ⟨m.offset + markerSize + markerSize, m.segment.data, .bigEndian, 0⟩ := by
      have hsegment := segment_eq hstored hunread
      rwa [hlength] at hsegment
    have hword := (readWord_iff h).mpr ⟨hstored.length_lt, hbytes.2.1⟩
    have hpayload : readPayload source (m.offset + markerSize + markerSize) m.segment.length =
        .ok m.segment := (readPayload_iff h).mpr ⟨rfl, hbytes.2.2, hsegment⟩
    have hsub : markerSize + m.segment.length - markerSize = m.segment.length := by omega
    have hnot : ¬ markerSize + m.segment.length < markerSize := by omega
    simp only [readSegment, hword, hsub, hpayload, hnot, reduceIte, length_bytes hstored, hlength]
    rw [← hm, Nat.add_assoc, Nat.add_assoc]

/-- Exactly the bytes of a marker other than the start of the image are read as it. -/
theorem readAt_marker_iff (h : source.Holds content) :
    readAt source offset number = .ok (.marker m next) ↔
      m.Stored ∧ m.Unread ∧ m.id ≠ MarkerId.startOfImage ∧ m.offset = offset ∧
        m.number = number ∧ StandsAt m.bytes content offset ∧ next = offset + m.bytes.length := by
  constructor
  · intro hread
    unfold readAt at hread
    split at hread
    · cases hread
    · next id hword =>
      obtain ⟨hlt, hword⟩ := (readWord_iff h).mp hword
      split at hread
      · cases hread
      · next hfill =>
        unfold readMarker at hread
        split at hread
        · cases hread
        · next hmarker =>
          simp only [Bool.or_eq_true, Bool.not_eq_true', beq_iff_eq, not_or,
            Bool.not_eq_false] at hmarker
          have hge := (isMarker_iff hlt).mp hmarker.1
          have hid : MarkerId.stuffing < id := Nat.lt_of_le_of_ne hge (Ne.symm hmarker.2)
          have hid' : id < MarkerId.fill := Nat.lt_of_le_of_ne (Nat.le_of_lt_succ hlt) hfill
          split at hread
          · cases hread
          · next hstart =>
            split at hread
            · next hlength =>
              obtain ⟨hstored, hunread, rfl, hrest⟩ :=
                (readSegment_iff h hid hid' hlength hword).mp hread
              exact ⟨hstored, hunread, hstart, hrest⟩
            · next hlength =>
              simp only [Except.ok.injEq, Found.marker.injEq] at hread
              obtain ⟨rfl, rfl⟩ := hread
              have hstored : Stored ⟨id, none, offset, number, .empty (offset + markerSize)⟩ := {
                id_gt := hid
                id_lt := hid'
                length_eq := by simp [hlength]
                length_lt := by simp [Segment.length, Segment.empty, markerSize]
                segment_offset := by simp [hlength, Segment.empty]
                standalone := fun _ => rfl }
              refine ⟨hstored, ⟨rfl, rfl⟩, hstart, rfl, rfl, ?_, ?_⟩
              · rw [bytes_none rfl]
                exact hword
              · rw [bytes_none rfl, ByteOrder.length_encode]
  · rintro ⟨hstored, hunread, hstart, rfl, rfl, hbytes, rfl⟩
    have hgt := hstored.id_gt
    have hlt := hstored.id_lt
    have hlt' : m.id < 0x10000 := Nat.lt_of_lt_of_le hlt (by decide)
    have hid := (StandsAt.append_iff.mp hbytes).1
    have hword := (readWord_iff h).mpr ⟨hlt', hid⟩
    have hmarker : MarkerId.isMarker m.id = true := (isMarker_iff hlt').mpr (Nat.le_of_lt hgt)
    have hstuffing : ¬ m.id = MarkerId.stuffing := Nat.ne_of_gt hgt
    have hfill : ¬ m.id = MarkerId.fill := Nat.ne_of_lt hlt
    simp only [readAt, hword, readMarker, hmarker, hstuffing, hfill, hstart, Bool.not_true,
      Bool.false_or, beq_iff_eq, reduceIte]
    split
    · next hlength =>
      exact (readSegment_iff h hgt hlt hlength hid).mpr
        ⟨hstored, hunread, rfl, rfl, rfl, hbytes, rfl⟩
    · next hlength =>
      simp only [Bool.not_eq_true] at hlength
      have hnone : m.length = none := by
        rw [hstored.length_eq, hlength]
        rfl
      have hsegment : m.segment = .empty (m.offset + markerSize) := by
        have hsegment := segment_eq hstored hunread
        rwa [hlength, hstored.standalone hlength] at hsegment
      rw [bytes_none hnone, ByteOrder.length_encode, ← hsegment, ← hnone]

/-- A fill byte is one in front of another `0xFF`. -/
theorem readAt_fill_iff (h : source.Holds content) :
    readAt source offset number = .ok .fill ↔ StandsAt [0xFF, 0xFF] content offset := by
  have hfill : ByteOrder.bigEndian.encode markerSize MarkerId.fill = [0xFF, 0xFF] := by decide
  constructor
  · intro hread
    unfold readAt at hread
    split at hread
    · cases hread
    · next id hword =>
      split at hread
      · next hid =>
        obtain ⟨_, hstands⟩ := (readWord_iff h).mp hword
        rwa [hid, hfill] at hstands
      · simp only [readMarker, readSegment] at hread
        split at hread
        · cases hread
        · split at hread
          · cases hread
          · split at hread
            · repeat' split at hread
              all_goals cases hread
            · cases hread
  · intro hstands
    rw [← hfill] at hstands
    have hword := (readWord_iff h).mpr ⟨by decide, hstands⟩
    simp only [readAt, hword, reduceIte]

end Marker
end Jpeg
end ImageAudit
